import Please.Asp.Parser

/-!
# Where `break` and `continue` stand

The parser keeps a flag `inFor`, which it saves and sets anew for the body of a loop and for the
body of a function. In what it accepts, `break` and `continue` stand in a loop of the same function
body.
-/

namespace Please.Asp.Syntax

open Please.Fs (Bytes)
open Please.Build (utf8)
open Please.Lib.Utf8 List

variable {P : Type}

/-! ## Annotations of expressions -/

/-- The annotations of all expressions in a node satisfy `A`. -/
def Annotated (A : P → Prop) : {k : Kind} → Node P k → Prop
  | _, .nil | _, .absent => True
  | _, .cons head tail => Annotated A head ∧ Annotated A tail
  | _, .present node => Annotated A node
  | _, .expression pos _ val op inlineIf =>
    A pos ∧ Annotated A val ∧ Annotated A op ∧ Annotated A inlineIf
  | _, .opExpression _ expr => Annotated A expr
  | _, .inlineIf condition otherwise => Annotated A condition ∧ Annotated A otherwise
  | _, .valueExpression literal slices property call =>
    Annotated A literal ∧ Annotated A slices ∧ Annotated A property ∧ Annotated A call
  | _, .string _ | _, .fString _ | _, .true_ | _, .false_ | _, .none_ | _, .int _ => True
  | _, .listLiteral l | _, .tupleLiteral l => Annotated A l
  | _, .dictLiteral d => Annotated A d
  | _, .lambdaLiteral l => Annotated A l
  | _, .ident i => Annotated A i
  | _, .identExpr _ _ _ action => Annotated A action
  | _, .propertyAction property => Annotated A property
  | _, .callAction call => Annotated A call
  | _, .call arguments => Annotated A arguments
  | _, .callArgument _ _ value => Annotated A value
  | _, .list values comprehension => Annotated A values ∧ Annotated A comprehension
  | _, .dict items comprehension => Annotated A items ∧ Annotated A comprehension
  | _, .dictItem key value => Annotated A key ∧ Annotated A value
  | _, .slice start _ stop => Annotated A start ∧ Annotated A stop
  | _, .comprehension _ expr second cond => Annotated A expr ∧ Annotated A second ∧ Annotated A cond
  | _, .secondComprehension _ expr => Annotated A expr
  | _, .lambda arguments expr => Annotated A arguments ∧ Annotated A expr
  | _, .argument _ _ _ value _ => Annotated A value

variable {A : P → Prop}

theorem annotated_ofList {k : Kind} {xs : List (Node P k)}
    (h : ∀ x ∈ xs, Annotated A x) : Annotated A (Node.ofList xs) := by
  induction xs with
  | nil => trivial
  | cons x xs ih => exact ⟨h x mem_cons_self, ih (forall_mem_cons.mp h).2⟩

theorem annotated_ofOption {k : Kind} {x : Option (Node P k)}
    (h : ∀ y ∈ x, Annotated A y) : Annotated A (Node.ofOption x) := by
  cases x with
  | none => trivial
  | some y => exact h y rfl

theorem annotated_hoist {op : Operator} {e : Expression P} (h : Annotated A e) :
    Annotated A (hoist op e) := by
  obtain ⟨pos, endPos, val, ops, inlineIf⟩ := e
  exact ⟨⟨h.1, h.2.1, trivial, h.2.2.2⟩, h.2.2.1⟩

theorem annotated_of_mem_toList {k : Kind} {l : Node P (.listOf k)}
    (h : Annotated A l) {x : Node P k} (hx : x ∈ l.toList) : Annotated A x := by
  have hall : ∀ xs : List (Node P k), ∀ l : Node P (.listOf k), l.toList = xs → Annotated A l →
      ∀ x ∈ xs, Annotated A x := by
    intro xs
    induction xs with
    | nil => exact fun _ _ _ x hx => absurd hx not_mem_nil
    | cons y ys ih =>
      intro l hl hann
      cases l with
      | nil => cases hl
      | cons _ tail =>
        rw [Node.toList_cons] at hl
        obtain ⟨rfl, htail⟩ := cons.inj hl
        exact forall_mem_cons.mpr ⟨hann.1, ih tail htail hann.2⟩
  exact hall _ l rfl h x hx

/-! ## Statements -/

section placed

variable (A : P → Prop)

/-- The annotations in a statement that begins with a name. -/
def AnnotatedIdent : IdentStatement P → Prop
  | .bare _ => True
  | .unpack _ _ expr => Annotated A expr
  | .index _ expr assign => Annotated A expr ∧ Annotated A assign
  | .indexAug _ expr augAssign => Annotated A expr ∧ Annotated A augAssign
  | .property _ property => Annotated A property
  | .call _ call => Annotated A call
  | .assign _ assign => Annotated A assign
  | .augAssign _ augAssign => Annotated A augAssign

mutual

/-- `break` and `continue` stand in loops of the same function body, unless the block is itself in
one. -/
def Placed (inLoop : Bool) : List (Statement P) → Prop
  | [] => True
  | stmt :: stmts => PlacedStatement inLoop stmt ∧ Placed inLoop stmts

def PlacedStatement (inLoop : Bool) : Statement P → Prop
  | .mk _ _ body => PlacedBody inLoop body

def PlacedBody (inLoop : Bool) : Body P → Prop
  | .funcDef _ arguments _ statements _ _ _ =>
    (∀ arg ∈ arguments, Annotated A arg) ∧ Placed false statements
  | .for_ _ expr statements => Annotated A expr ∧ Placed true statements
  | .if_ first elif _ _ elseStatements =>
    PlacedClause inLoop first ∧ PlacedClauses inLoop elif ∧ Placed inLoop elseStatements
  | .return_ values => ∀ value ∈ values, Annotated A value
  | .raise expr => Annotated A expr
  | .assert expr message => Annotated A expr ∧ ∀ e ∈ message, Annotated A e
  | .ident i => AnnotatedIdent A i
  | .literal expr => Annotated A expr
  | .pass => True
  | .continue_ | .break_ => inLoop = true

def PlacedClause (inLoop : Bool) : Clause P → Prop
  | .mk _ _ condition statements => Annotated A condition ∧ Placed inLoop statements

def PlacedClauses (inLoop : Bool) : List (Clause P) → Prop
  | [] => True
  | clause :: clauses => PlacedClause inLoop clause ∧ PlacedClauses inLoop clauses

end

variable {A} {inLoop : Bool}

theorem placedClauses_iff {clauses : List (Clause P)} :
    PlacedClauses A inLoop clauses ↔ ∀ clause ∈ clauses, PlacedClause A inLoop clause := by
  induction clauses with
  | nil => simp [PlacedClauses]
  | cons _ _ ih => rw [PlacedClauses, forall_mem_cons, ih]

theorem placed_iff {stmts : List (Statement P)} :
    Placed A inLoop stmts ↔ ∀ stmt ∈ stmts, PlacedStatement A inLoop stmt := by
  induction stmts with
  | nil => simp [Placed]
  | cons _ _ ih => rw [Placed, forall_mem_cons, ih]

theorem placed_append {xs ys : List (Statement P)} :
    Placed A inLoop (xs ++ ys) ↔ Placed A inLoop xs ∧ Placed A inLoop ys := by
  rw [placed_iff, placed_iff, placed_iff, forall_mem_append]

end placed

end Please.Asp.Syntax
