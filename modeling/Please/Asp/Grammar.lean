import Please.Asp.Operators
import Please.Build.RuleHash

/-!
# Syntax trees of the BUILD language

The types of `src/parse/asp/grammar.go`. The types of expressions refer to one another; they
are one family `Node` here, indexed by the kind of node, and a node with pointers of which
exactly one is set has a constructor for each of them. The positions in expressions have a
type `P` of their own, so that the tree without them is the one with `P = Unit`. The positions
of statements and of the headers of clauses, which are read again after parsing, are numbers.

Left out are the fields that the parser does not set: `optimised`, `KeywordsOnly`, `IsBuiltin`.
-/

namespace Please.Asp.Syntax

open Please.Fs (Bytes)
open Please.Build (utf8)

/-! ## Names -/

/-- `knownTypeNames` (`objects.go`, lines 1099–1124). -/
def knownTypeNames : List Bytes :=
  ["bool", "str", "int", "list", "dict", "function", "config", "none"].map utf8

/-- `strings.Join`. -/
def joinBytes (sep : Bytes) (l : List Bytes) : Bytes := sep.intercalate l

/-! ## Expressions -/

/-- `FStringVar`: the text before a variable, and its name with any accessors. -/
structure FStringVar where
  before : Bytes
  var : List Bytes
  deriving DecidableEq

/-- `FString`. -/
structure FString where
  vars : List FStringVar
  suffix : Bytes
  deriving DecidableEq

/-- The types of nodes in an expression. -/
inductive Kind
  | expression | opExpression | inlineIf | valueExpression | literal | identExpr
  | identExprAction | call | callArgument | list | dict | dictItem | slice | comprehension
  | secondComprehension | lambda | argument
  | listOf (k : Kind)
  | optional (k : Kind)
  deriving DecidableEq

/-- A node of an expression. -/
inductive Node (P : Type) : Kind → Type
  | nil {k : Kind} : Node P (.listOf k)
  | cons {k : Kind} (head : Node P k) (tail : Node P (.listOf k)) : Node P (.listOf k)
  | absent {k : Kind} : Node P (.optional k)
  | present {k : Kind} (node : Node P k) : Node P (.optional k)
  /-- `Expression`; only `parseExpression` sets `EndPos`. -/
  | expression (pos : P) (endPos : Option P) (val : Node P .valueExpression)
      (op : Node P (.listOf .opExpression)) (inlineIf : Node P (.optional .inlineIf)) :
      Node P .expression
  /-- `OpExpression`; an operator of one operand has no expression. -/
  | opExpression (op : Operator) (expr : Node P (.optional .expression)) : Node P .opExpression
  | inlineIf (condition otherwise : Node P .expression) : Node P .inlineIf
  /-- `ValueExpression`; of its fields up to `Ident` exactly one is set. -/
  | valueExpression (literal : Node P .literal) (slices : Node P (.listOf .slice))
      (property : Node P (.optional .identExpr)) (call : Node P (.optional .call)) :
      Node P .valueExpression
  | string (s : Bytes) : Node P .literal
  | fString (f : FString) : Node P .literal
  | true_ : Node P .literal
  | false_ : Node P .literal
  | none_ : Node P .literal
  | int (i : ℤ) : Node P .literal
  | listLiteral (l : Node P .list) : Node P .literal
  | dictLiteral (d : Node P .dict) : Node P .literal
  | tupleLiteral (l : Node P .list) : Node P .literal
  | lambdaLiteral (l : Node P .lambda) : Node P .literal
  | ident (i : Node P .identExpr) : Node P .literal
  | identExpr (pos endPos : P) (name : Bytes) (action : Node P (.listOf .identExprAction)) :
      Node P .identExpr
  | propertyAction (property : Node P .identExpr) : Node P .identExprAction
  | callAction (call : Node P .call) : Node P .identExprAction
  | call (arguments : Node P (.listOf .callArgument)) : Node P .call
  /-- `CallArgument`; an argument without a name has the empty one, and no position. -/
  | callArgument (pos : Option P) (name : Bytes) (value : Node P .expression) : Node P .callArgument
  | list (values : Node P (.listOf .expression))
      (comprehension : Node P (.optional .comprehension)) : Node P .list
  | dict (items : Node P (.listOf .dictItem))
      (comprehension : Node P (.optional .comprehension)) : Node P .dict
  | dictItem (key value : Node P .expression) : Node P .dictItem
  | slice (start : Node P (.optional .expression)) (colon : Bool)
      (stop : Node P (.optional .expression)) : Node P .slice
  | comprehension (names : List Bytes) (expr : Node P .expression)
      (second : Node P (.optional .secondComprehension))
      (cond : Node P (.optional .expression)) : Node P .comprehension
  | secondComprehension (names : List Bytes) (expr : Node P .expression) :
      Node P .secondComprehension
  | lambda (arguments : Node P (.listOf .argument)) (expr : Node P .expression) : Node P .lambda
  | argument (name : Bytes) (type aliases : List Bytes) (value : Node P (.optional .expression))
      (isPrivate : Bool) : Node P .argument

abbrev Expression (P : Type) := Node P .expression

namespace Node

variable {P : Type} {k : Kind}

/-- The node of a list of nodes. -/
def ofList : List (Node P k) → Node P (.listOf k)
  | [] => .nil
  | x :: xs => .cons x (ofList xs)

/-- The node of a node that may be missing. -/
def ofOption : Option (Node P k) → Node P (.optional k)
  | none => .absent
  | some x => .present x

/-- The nodes of the kind `k` in a list of nodes. -/
def toListAs (k : Kind) : {k' : Kind} → Node P k' → List (Node P k)
  | _, .cons (k := k') head tail => if h : k' = k then h ▸ head :: toListAs k tail else []
  | _, _ => []

/-- The nodes of a list of nodes. -/
def toList (l : Node P (.listOf k)) : List (Node P k) := toListAs k l

@[simp]
theorem toList_nil : toList (.nil : Node P (.listOf k)) = [] := rfl

@[simp]
theorem toList_cons (head : Node P k) (tail : Node P (.listOf k)) :
    toList (.cons head tail) = head :: toList tail := by
  rw [toList, toListAs, dif_pos rfl]
  rfl

def isNil : Node P (.listOf k) → Bool
  | .nil => true
  | .cons _ _ => false

def isAbsent : Node P (.optional k) → Bool
  | .absent => true
  | .present _ => false

theorem eq_nil_of_isNil {l : Node P (.listOf k)} (h : l.isNil) : l = .nil := by
  cases l with
  | nil => rfl
  | cons => cases h

theorem eq_singleton_of_toList {l : Node P (.listOf k)} {x : Node P k} (h : l.toList = [x]) :
    l = .cons x .nil := by
  cases l with
  | nil => simp at h
  | cons head tail =>
    cases tail with
    | nil =>
      obtain rfl : head = x := by simpa using h
      rfl
    | cons => simp at h

theorem eq_absent_of_isAbsent {o : Node P (.optional k)} (h : o.isAbsent) : o = .absent := by
  cases o with
  | absent => rfl
  | present => cases h

end Node

/-! ## Statements -/

/-- `IdentStatement`. -/
inductive IdentStatement (P : Type)
  | bare (name : Bytes)
  | unpack (name : Bytes) (names : List Bytes) (expr : Expression P)
  | index (name : Bytes) (expr assign : Expression P)
  | indexAug (name : Bytes) (expr augAssign : Expression P)
  | property (name : Bytes) (property : Node P .identExpr)
  | call (name : Bytes) (call : Node P .call)
  | assign (name : Bytes) (assign : Expression P)
  | augAssign (name : Bytes) (augAssign : Expression P)

mutual

/-- `Statement`. -/
inductive Statement (P : Type)
  | mk (pos endPos : ℕ) (body : Body P)

/-- The fields of `Statement` of which exactly one is set. -/
inductive Body (P : Type)
  | funcDef (name : Bytes) (arguments : List (Node P .argument)) (docstring : Bytes)
      (statements : List (Statement P)) (eoDef : ℕ) (ret : Bytes) (isPrivate : Bool)
  | for_ (names : List Bytes) (expr : Expression P) (statements : List (Statement P))
  /-- The clauses `if` and `elif`, and the statements of `else` with the positions of its
      header; without `else` there are none. -/
  | if_ (first : Clause P) (elif : List (Clause P)) (elseHeaderPos elseHeaderEndPos : ℕ)
      (elseStatements : List (Statement P))
  | return_ (values : List (Expression P))
  | raise (expr : Expression P)
  | assert (expr : Expression P) (message : Option (Expression P))
  | ident (i : IdentStatement P)
  | literal (expr : Expression P)
  | pass
  | continue_
  | break_

/-- `IfStatementElif`; the first clause of `IfStatement` has the same fields. -/
inductive Clause (P : Type)
  | mk (headerPos headerEndPos : ℕ) (condition : Expression P) (statements : List (Statement P))

end

namespace Statement

variable {P : Type}

def pos : Statement P → ℕ
  | mk pos _ _ => pos

def endPos : Statement P → ℕ
  | mk _ endPos _ => endPos

end Statement

end Please.Asp.Syntax
