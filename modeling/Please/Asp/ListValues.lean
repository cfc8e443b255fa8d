import Please.Lib.Slice
import Please.Lib.Traced
import Please.Asp.Operators

/-!
# Lists of the BUILD language

Model of how list expressions are evaluated: `interpretExpression`, `interpretOp`,
`interpretSlice`, `interpretIdentStatement`, `interpretList`, `evaluateComprehension`,
`evaluateComprehensionExpression`, `unpackNames`, `iterable`, `iterableLen` and
`evaluateExpressions` (`src/parse/asp/interpreter.go`, lines 655–746, 781–1085), `pyIndex`,
`pyList.Operator` and `pyList.Repeat` (`src/parse/asp/objects.go`, lines 186–199, 352–403 and
443–449).

A `pyList` is a Go slice, and the model keeps it one: a list value is a header that points into
an array on an explicit heap. A panic is an error with its message. Every addition of two lists
is recorded with the headers of both.
-/

namespace Please.Asp.Lists

open Please.Lib Slice

/-! ## Values and scopes -/

/-- A `pyObject`: `pyInt`, `pyBool`, `pyString`; `pyNone`; `pyList`. -/
inductive Obj
  | scalar (v : Value)
  | none
  | list (l : Slice)
  deriving DecidableEq

/-- The zero value in the cells of an array that have not been written. No list reads them. -/
instance : Inhabited Obj := ⟨.none⟩

namespace Obj

def type : Obj → String
  | scalar v => v.type
  | none => "none"
  | list _ => "list"

def isTruthy : Obj → Bool
  | scalar v => v.isTruthy
  | none => false
  | list l => l.len > 0

end Obj

/-- The variables that are visible in a scope, its own before those of its parents. -/
abbrev Locals := List (String × Obj)

/-- What an expression is evaluated in. -/
structure Scope where
  locals : Locals
  /-- The objects that `optimiseExpressions` has precalculated for constant expressions. -/
  constants : List Obj

namespace Scope

/-- `scope.Set`. -/
def set (s : Scope) (name : String) (value : Obj) : Scope :=
  { s with locals := (name, value) :: s.locals }

/-- `scope.Lookup`. -/
def lookup (s : Scope) (name : String) : Except String Obj :=
  match s.locals.lookup name with
  | some obj => .ok obj
  | none => .error ("name '" ++ name ++ "' is not defined")

end Scope

/-- An addition of two lists, with what the slice headers are before it. -/
structure Addition where
  left : Slice
  right : Slice

/-- The left list has spare capacity for the elements of the right one. -/
def Addition.InPlace (a : Addition) : Prop := 0 < a.right.len ∧ a.left.HasRoom a.right.len

instance (a : Addition) : Decidable a.InPlace := inferInstanceAs (Decidable (_ ∧ _))

/-- Evaluation performs additions of lists and may panic. -/
abbrev Eval := Traced Addition String

def raise {α : Type} (msg : String) : Eval α := ⟨[], .error msg⟩

def ofExcept {α : Type} (r : Except String α) : Eval α := ⟨[], r⟩

/-- What is not part of the interpreter: Go's runtime and the operators that take a list or
None and return no list. -/
structure Runtime where
  prims : Prims
  /-- The capacity of a slice that `append` has to move. -/
  growth : Growth
  /-- `==` and `!=` by `reflect.DeepEqual`, `<` on lists, `%` with a list, or the panic. -/
  operator : Operator → Heap Obj → Obj → Obj → Except String Value
  /-- `t[start:end]` on a string. -/
  substr : String → ℤ → ℤ → Except String String

section

variable (R : Runtime)

/-! ## Operators -/

/-- `item == operand` in Go: two lists cannot be compared. -/
def goEqual : Obj → Obj → Except String Bool
  | .list _, .list _ => .error "runtime error: comparing uncomparable type asp.pyList"
  | o, o' => .ok (o = o')

/-- The loop of `pyList.Operator` for `in` (lines 364–368). -/
def contains (operand : Obj) : List Obj → Except String Bool
  | [] => .ok false
  | item :: items => do
    if ← goEqual item operand then .ok true else contains operand items

/-- `objLen`. -/
def objLen : Obj → Except String ℕ
  | .list l => .ok l.len
  | .scalar (.str s) => .ok s.length
  | o => .error ("object of type " ++ o.type ++ " has no len()")

/-- `pyIndex`. -/
def pyIndex (obj index : Obj) (slice : Bool) : Except String ℤ :=
  match index with
  | .scalar (.int i) => do
    let l ← objLen obj
    if i.toInt < 0 then .ok (l + i.toInt)
    else if i.toInt > l then
      if slice then .ok l else .error (obj.type ++ " index out of range")
    else .ok i.toInt
  | index => .error (obj.type ++ " indices must be integers, not " ++ index.type)

/-- `pyList.Repeat`: the capacity that is made is the length of the result. -/
def pyListRepeat (h : Heap Obj) (l : Slice) (n : Int64) : Eval (Obj × Heap Obj) :=
  if n.toInt * l.len < 0 then raise "runtime error: makeslice: cap out of range"
  else
    let (ret, h) := alloc h (List.replicate n.toInt.toNat (l.contents h)).flatten 0
    pure (.list ret, h)

/-- `l + l2` on lists: `slices.Clip(append(l, l2...))`. -/
def pyListAdd (h : Heap Obj) (l l2 : Slice) : Eval (Obj × Heap Obj) :=
  let (ret, h) := append R.growth h l (l2.contents h)
  Traced.perform ⟨l, l2⟩ (.ok (.list ret.clip, h))

/-- `scope.operator`. -/
def operator (op : Operator) (obj operand : Obj) (h : Heap Obj) : Eval (Obj × Heap Obj) :=
  match op, obj, operand with
  | .add, .list l, .list l2 => pyListAdd R h l l2
  | .add, .list _, operand => raise ("Cannot add list and " ++ operand.type)
  | .in_, .list l, operand => do
    let found ← ofExcept (contains operand (l.contents h))
    pure (.scalar (.bool found), h)
  | .notIn, .list l, operand => do
    let found ← ofExcept (contains operand (l.contents h))
    pure (.scalar (.bool !found), h)
  | .multiply, .list l, .scalar (.int i) => pyListRepeat h l i
  | .multiply, .scalar (.int i), .list l => pyListRepeat h l i
  | op, .scalar v, .scalar w => do
    let value ← ofExcept (Asp.operator R.prims op v w)
    pure (.scalar value, h)
  | op, obj, operand => do
    let value ← ofExcept (R.operator op h obj operand)
    pure (.scalar value, h)

/-- `scope.operator` for `Index`. -/
def operatorIndex (obj index : Obj) (h : Heap Obj) : Eval (Obj × Heap Obj) :=
  match obj with
  | .list l => do
    let i ← ofExcept (pyIndex obj index false)
    match if i < 0 then none else (l.contents h)[i.toNat]? with
    | some item => pure (item, h)
    | none => raise "runtime error: index out of range"
  | .scalar (.str s) => do
    let i ← ofExcept (pyIndex obj index false)
    match if i < 0 then none else s.toList[i.toNat]? with
    | some c => pure (.scalar (.str c.toString), h)
    | none => raise "runtime error: index out of range"
  | .scalar (.int _) =>
    match index with
    | .scalar (.int _) => raise "unknown operator"
    | index => raise ("Cannot operate on int and " ++ index.type)
  | obj => raise ("operator unknown not implemented on type " ++ obj.type)

/-! ## Expressions -/

/-- What an expression does in a scope. -/
abbrev Interp := Scope → Heap Obj → Eval (Obj × Heap Obj)

/-- `scope.interpretIs`. -/
def interpretIs : Obj → Obj → Obj
  | .none, .none => .scalar (.bool true)
  | .scalar (.bool b), .scalar (.bool b') => .scalar (.bool (b = b'))
  | _, _ => .scalar (.bool false)

/-- `scope.negate`. -/
def negate (obj : Obj) : Obj := .scalar (.bool !obj.isTruthy)

/-- `==` and `!=` (lines 719–722). -/
def interpretEqual (op : Operator) (obj operand : Obj) (h : Heap Obj) : Eval (Obj × Heap Obj) :=
  match obj, operand with
  | .scalar v, .scalar w => pure (.scalar (.bool (decide (v = w) == decide (op = .equal))), h)
  | obj, operand => do
    let value ← ofExcept (R.operator op h obj operand)
    pure (.scalar value, h)

/-- `scope.interpretOp` for the operators with two operands. -/
def interpretOp (op : Operator) (left right : Interp) : Interp := fun s h => do
  let (obj, h) ← left s h
  match op with
  | .and => if obj.isTruthy then right s h else pure (obj, h)
  | .or => if obj.isTruthy then pure (obj, h) else right s h
  | .is => do
    let (operand, h) ← right s h
    pure (interpretIs obj operand, h)
  | .isNot => do
    let (operand, h) ← right s h
    pure (negate (interpretIs obj operand), h)
  | .equal | .notEqual => do
    let (operand, h) ← right s h
    interpretEqual R op obj operand h
  | .in_ | .notIn => do
    -- the implementation of in is defined by the right-hand side, not the left
    let (operand, h) ← right s h
    operator R op operand obj h
  | op => do
    let (operand, h) ← right s h
    operator R op obj operand h

/-- `scope.interpretOp` for `not` and `-`. -/
def interpretUnary (op : Operator) (e : Interp) : Interp := fun s h => do
  let (obj, h) ← e s h
  match op, obj with
  | .not, obj => pure (negate obj, h)
  | .negate, .scalar (.int i) => pure (.scalar (.int (-i)), h)
  | _, _ => raise "Unary - can only be applied to an integer"

/-- The condition of an expression `e if cond else e'` (lines 672–674). -/
def interpretIf (cond e e' : Interp) : Interp := fun s h => do
  let (c, h) ← cond s h
  if c.isTruthy then e s h else e' s h

/-- A variable: `scope.Lookup`. -/
def interpretLocal (name : String) : Interp := fun s h => do
  let obj ← ofExcept (s.lookup name)
  pure (obj, h)

/-- A constant expression: the object that was precalculated (lines 658–659). -/
def interpretConstant (i : ℕ) : Interp := fun s h =>
  match s.constants[i]? with
  | some obj => pure (obj, h)
  | none => raise "runtime error: invalid memory address or nil pointer dereference"

/-- Indexing in `interpretValueExpression` (lines 806–809). -/
def interpretIndex (obj index : Interp) : Interp := fun s h => do
  let (obj, h) ← obj s h
  let (index, h) ← index s h
  operatorIndex obj index h

/-- `interpretSliceExpression`. -/
def interpretSliceExpression (obj : Obj) (expr : Option Interp) (default : ℤ) (s : Scope)
    (h : Heap Obj) : Eval (ℤ × Heap Obj) :=
  match expr with
  | none => pure (default, h)
  | some e => do
    let (index, h) ← e s h
    let i ← ofExcept (pyIndex obj index true)
    pure (i, h)

/-- `t[start:end]` on a slice: the bound for the end is the capacity. -/
def goSlice (t : Slice) (start stop : ℤ) : Except String Slice :=
  if 0 ≤ start ∧ start ≤ stop ∧ stop ≤ t.cap then .ok (t.reslice start.toNat stop.toNat)
  else .error "runtime error: slice bounds out of range"

/-- `interpretSlice`. -/
def interpretSlice (obj : Interp) (start stop : Option Interp) : Interp := fun s h => do
  let (obj, h) ← obj s h
  let (first, h) ← interpretSliceExpression obj start 0 s h
  match obj with
  | .list t => do
    let (last, h) ← interpretSliceExpression obj stop t.len s h
    let l ← ofExcept (goSlice t first last)
    pure (.list l, h)
  | .scalar (.str t) => do
    let (last, h) ← interpretSliceExpression obj stop t.utf8ByteSize s h
    let str ← ofExcept (R.substr t first last)
    pure (.scalar (.str str), h)
  | obj => raise ("Unsliceable type " ++ obj.type)

/-- `evaluateExpressions`: the objects, in order. -/
def evaluateExpressions : List Interp → Scope → Heap Obj → Eval (List Obj × Heap Obj)
  | [], _, h => pure ([], h)
  | e :: es, s, h => do
    let (obj, h) ← e s h
    let (objs, h) ← evaluateExpressions es s h
    pure (obj :: objs, h)

/-- `interpretList` without a comprehension. The capacity of the slice is its length; so it is
for `[]`, where `emptyList` stands for every empty list. -/
def interpretValues (values : List Interp) : Interp := fun s h => do
  let (objs, h) ← evaluateExpressions values s h
  let (l, h) := alloc h objs 0
  pure (.list l, h)

/-! ## Comprehensions -/

/-- `iterable`: of the objects here, only lists can be iterated over. -/
def iterable (obj : Obj) : Except String Slice :=
  match obj with
  | .list l => .ok l
  | obj => .error ("Non-iterable type " ++ obj.type)

/-- Set the names one after the other. -/
def setAll (s : Scope) : List (String × Obj) → Scope
  | [] => s
  | (name, value) :: nvs => setAll (s.set name value) nvs

/-- `unpackNames`. -/
def unpackNames (names : List String) (obj : Obj) (s : Scope) (h : Heap Obj) :
    Except String Scope :=
  match names with
  | [name] => .ok (s.set name obj)
  | names =>
    match obj with
    | .list l =>
      if l.len = names.length then .ok (setAll s (names.zip (l.contents h)))
      else .error ("Incorrect number of values to unpack; expected " ++ toString names.length ++
        ", got " ++ toString l.len)
    | obj => .error ("Cannot unpack " ++ obj.type ++ " into [" ++ " ".intercalate names ++ "]")

/-- `for _, x := range l`: the header is read once, each element when its turn comes. `n`
elements are left, from place `i` on. -/
def forRange {σ : Type} (l : Slice) (body : Obj → σ → Heap Obj → Eval (σ × Heap Obj)) :
    (n i : ℕ) → σ → Heap Obj → Eval (σ × Heap Obj)
  | 0, _, st, h => pure (st, h)
  | n + 1, i, st, h => do
    let (st, h) ← body ((l.contents h).getD i default) st h
    forRange l body n (i + 1) st h

/-- `Comprehension`, with what its expressions do. -/
structure Comprehension where
  names : List String
  expr : Interp
  second : Option (List String × Interp)
  cond : Option Interp

/-- `evaluateComprehensionExpression`, then the callback if the item is kept. -/
def comprehensionItem (comp : Comprehension)
    (callback : Scope → Slice → Heap Obj → Eval (Slice × Heap Obj)) (names : List String) (li : Obj)
      (st : Scope × Slice) (h : Heap Obj) :
    Eval ((Scope × Slice) × Heap Obj) := do
  let (s, ret) := st
  let s ← ofExcept (unpackNames names li s h)
  match comp.cond with
  | none => do
    let (ret, h) ← callback s ret h
    pure ((s, ret), h)
  | some cond => do
    let (keep, h) ← cond s h
    if keep.isTruthy then do
      let (ret, h) ← callback s ret h
      pure ((s, ret), h)
    else pure ((s, ret), h)

/-- `evaluateComprehension`. The scope goes along with the result `ret` that the callback
appends to. -/
def evaluateComprehension (comp : Comprehension)
    (callback : Scope → Slice → Heap Obj → Eval (Slice × Heap Obj)) (it : Slice)
    (st : Scope × Slice) (h : Heap Obj) : Eval ((Scope × Slice) × Heap Obj) :=
  match comp.second with
  | none => forRange it (comprehensionItem comp callback comp.names) it.len 0 st h
  | some (names, expr) =>
    forRange it (fun li st h => do
      let (s, ret) := st
      let s ← ofExcept (unpackNames comp.names li s h)
      let (obj, h) ← expr s h
      let it ← ofExcept (iterable obj)
      forRange it (comprehensionItem comp callback names) it.len 0 (s, ret) h) it.len 0 st h

/-- The callback of `interpretList`. -/
def appendItem (values : List Interp) (s : Scope) (ret : Slice) (h : Heap Obj) :
    Eval (Slice × Heap Obj) := do
  let (objs, h) ← evaluateExpressions values s h
  match objs with
  | [obj] => pure (append R.growth h ret [obj])
  | objs =>
    let (l, h) := alloc h objs 0
    pure (append R.growth h ret [.list l])

/-- `interpretList` with a comprehension: the capacity is made for the length of what is
iterated over. -/
def interpretComprehension (values : List Interp) (comp : Comprehension) : Interp := fun s h => do
  let (obj, h) ← comp.expr s h
  let it ← ofExcept (iterable obj)
  let (ret, h) := alloc h [] it.len
  let (st, h) ← evaluateComprehension comp (appendItem R values) it (s, ret) h
  pure (.list st.2, h)

/-! ## Programs -/

end

/-- An expression. The operators stand in the tree in which `interpretOps` applies them. -/
inductive Expr
  | scalar (v : Value)
  | none
  /-- a constant expression: the place of its object among the constants -/
  | optimised (i : ℕ)
  | ident (name : String)
  | list (values : List Expr)
  | comprehension (values : List Expr) (names : List String) (expr : Expr)
      (second : Option (List String × Expr)) (cond : Option Expr)
  | slice (obj : Expr) (start stop : Option Expr)
  | index (obj index : Expr)
  | op (op : Operator) (left right : Expr)
  | unary (op : Operator) (e : Expr)
  | ite (cond e e' : Expr)

section

variable (R : Runtime)

mutual

/-- `interpretExpression`. -/
def interpretExpression : Expr → Interp
  | .scalar v => fun _ h => pure (.scalar v, h)
  | .none => fun _ h => pure (.none, h)
  | .optimised i => interpretConstant i
  | .ident name => interpretLocal name
  | .list values => interpretValues (interpretExpressions values)
  | .comprehension values names expr second cond =>
    interpretComprehension R (interpretExpressions values)
      ⟨names, interpretExpression expr, interpretSecond second, interpretOption cond⟩
  | .slice obj start stop =>
    interpretSlice R (interpretExpression obj) (interpretOption start) (interpretOption stop)
  | .index obj index => interpretIndex (interpretExpression obj) (interpretExpression index)
  | .op op left right => interpretOp R op (interpretExpression left) (interpretExpression right)
  | .unary op e => interpretUnary op (interpretExpression e)
  | .ite cond e e' =>
    interpretIf (interpretExpression cond) (interpretExpression e) (interpretExpression e')

def interpretExpressions : List Expr → List Interp
  | [] => []
  | e :: es => interpretExpression e :: interpretExpressions es

def interpretOption : Option Expr → Option Interp
  | none => none
  | some e => some (interpretExpression e)

def interpretSecond : Option (List String × Expr) → Option (List String × Interp)
  | none => none
  | some (names, e) => some (names, interpretExpression e)

end

/-- A statement that assigns a variable. -/
inductive Statement
  | assign (name : String) (e : Expr)
  | augAssign (name : String) (e : Expr)

/-- The variable that a statement assigns. -/
def Statement.name : Statement → String
  | .assign name _ => name
  | .augAssign name _ => name

structure State where
  scope : Scope
  heap : Heap Obj

/-- `interpretIdentStatement`, for the two assignments. -/
def interpretStatement (st : State) : Statement → Eval State
  | .assign name e => do
    let (obj, h) ← interpretExpression R e st.scope st.heap
    pure ⟨st.scope.set name obj, h⟩
  | .augAssign name e => do
    -- implemented exactly as x += y -> x = x + y
    let x ← ofExcept (st.scope.lookup name)
    let (y, h) ← interpretExpression R e st.scope st.heap
    let (obj, h) ← operator R .add x y h
    pure ⟨st.scope.set name obj, h⟩

/-- `interpretStatements`. -/
def interpretStatements (st : State) : List Statement → Eval State
  | [] => pure st
  | stmt :: stmts => do
    let st ← interpretStatement R st stmt
    interpretStatements st stmts

end

end Please.Asp.Lists
