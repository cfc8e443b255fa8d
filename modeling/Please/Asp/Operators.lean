import Mathlib.Data.List.Infix

/-!
# Operators of the BUILD language

Model of `Operator` and its `Precedence` (`src/parse/asp/grammar.go`, lines 281–370), of `operator`
(`interpreter.go`, lines 740–746), and of the operators of integers, booleans and strings
(`objects.go`). A panic is an error with its message.
-/

namespace Please.Asp

/-- `Operator`. (`Index` is not used when parsing code.) -/
inductive Operator
  | add | subtract | multiply | divide | floorDivide | modulo | negate
  | lessThan | greaterThan | lessThanOrEqual | greaterThanOrEqual | equal | notEqual
  | in_ | notIn | and | or | not | union | is | isNot
deriving DecidableEq

namespace Operator

/-- `Operator.String`. -/
def toStr : Operator → String
  | .add => "+"
  | .subtract => "-"
  | .multiply => "*"
  | .divide => "/"
  | .floorDivide => "//"
  | .modulo => "%"
  | .negate => "-"
  | .lessThan => "<"
  | .greaterThan => ">"
  | .lessThanOrEqual => "<="
  | .greaterThanOrEqual => ">="
  | .equal => "=="
  | .notEqual => "!="
  | .in_ => "in"
  | .notIn => "not in"
  | .and => "and"
  | .or => "or"
  | .not => "not"
  | .union => "|"
  | .is => "is"
  | .isNot => "is not"

/-- `Operator.Precedence`. -/
def precedence : Operator → ℤ
  | .negate => 4
  | .multiply | .divide | .floorDivide | .modulo => 3
  | .add | .subtract => 2
  | .union => 1
  | .not => -1
  | .and => -2
  | .or => -3
  | _ => 0

/-- `Operator.Lazy`. -/
def lazy : Operator → Bool
  | .and | .or => true
  | _ => false

end Operator

/-! ## Values -/

/-- `pyInt`, `pyBool` and `pyString`. -/
inductive Value
  | int (i : Int64)
  | bool (b : Bool)
  | str (s : String)
deriving DecidableEq

/-- What Go's floating-point division and `fmt.Sprintf` return. -/
structure Prims where
  /-- `int(math.Floor(float64(i) / float64(o)))` -/
  floorDivide : Int64 → Int64 → Int64
  /-- `fmt.Sprintf` with one argument -/
  sprintf : String → Value → String

namespace Value

def type : Value → String
  | .int _ => "int"
  | .bool _ => "bool"
  | .str _ => "str"

def isTruthy : Value → Bool
  | .int i => i ≠ 0
  | .bool b => b
  | .str s => s ≠ ""

/-- The largest `int`, which bounds the length of a string. -/
def maxInt : ℕ := 9223372036854775807

/-- `strings.Repeat`. -/
def repeatStr (s : String) (count : Int64) : Except String Value :=
  if count < 0 then .error "strings: negative Repeat count"
  else if maxInt < s.utf8ByteSize * count.toInt.toNat then
    .error "strings: Repeat output length overflow"
  else .ok (.str (String.join (List.replicate count.toInt.toNat s)))

/-- `pyInt.Operator`. -/
def intOperator (P : Prims) (i : Int64) (op : Operator) : Value → Except String Value
  | .int o =>
    match op with
    | .add => .ok (.int (i + o))
    | .subtract => .ok (.int (i - o))
    | .multiply => .ok (.int (i * o))
    | .divide => if o = 0 then .error "runtime error: integer divide by zero"
        else .ok (.int (i / o))
    | .floorDivide => .ok (.int (P.floorDivide i o))
    | .lessThan => .ok (.bool (i < o))
    | .greaterThan => .ok (.bool (i > o))
    | .lessThanOrEqual => .ok (.bool (i ≤ o))
    | .greaterThanOrEqual => .ok (.bool (i ≥ o))
    | .modulo => if o = 0 then .error "runtime error: integer divide by zero"
        else .ok (.int (i % o))
    | .in_ => .error "bad operator: 'in' int"
    | _ => .error "unknown operator"
  | .str s => if op = .multiply then repeatStr s i else .error "Cannot operate on int and str"
  | .bool _ => .error "Cannot operate on int and bool"

/-- `pyString.Operator`. -/
def strOperator (P : Prims) (s : String) (op : Operator) (operand : Value) : Except String Value :=
  match op, operand with
  | .multiply, .int i => repeatStr s i
  | .multiply, _ => .error ("Can only multiply string with int, not with " ++ operand.type)
  | .modulo, .bool _ => .error "Argument to string interpolation must be a string or list; was bool"
  | .modulo, _ => .ok (.str (P.sprintf s operand))
  | .add, .str s2 => .ok (.str (s ++ s2))
  | .lessThan, .str s2 => .ok (.bool (s < s2))
  | .greaterThan, .str s2 => .ok (.bool (s > s2))
  | .lessThanOrEqual, .str s2 => .ok (.bool (s ≤ s2))
  | .greaterThanOrEqual, .str s2 => .ok (.bool (s ≥ s2))
  | .in_, .str s2 => .ok (.bool (s2.toList <:+: s.toList))
  | .notIn, .str s2 => .ok (.bool (¬ s2.toList <:+: s.toList))
  | _, .str _ => .error "Unknown operator for string"
  | _, _ => .error ("Cannot operate on str and " ++ operand.type)

end Value

/-- `scope.operator`. -/
def operator (P : Prims) (op : Operator) (obj operand : Value) : Except String Value :=
  match obj with
  | .int i => Value.intOperator P i op operand
  | .str s => Value.strOperator P s op operand
  | .bool _ => .error ("operator " ++ op.toStr ++ " not implemented on type " ++ obj.type)

end Please.Asp
