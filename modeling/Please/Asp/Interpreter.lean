import Please.Asp.Expressions

/-!
# The interpreter of the BUILD language

Model of `src/parse/asp/interpreter.go` (lines 564–1130) and of functions with code
(`src/parse/asp/objects.go`, lines 639–676). `denote` goes over the syntax tree of an expression and
`interpretStatements` over statements; both give a program. `answer` has the functions with code: it
looks one up and runs its statements, to a depth of calls that is bounded.
-/

namespace Please.Asp.Interp

open Please.Fs (Bytes)
open Please.Build (utf8)
open Please.Lib LitDen Syntax
open Please.Asp.Syntax

variable {H : Type} (R : Runtime H) (N : Natives H)

/-! ## Functions with code -/

/-- Whether `scope.Constant` finds that an expression describes a constant (lines 1104–1130); for a
list, whether all its elements do. -/
def isConstant : {k : Kind} → Node Ann k → Bool
  | _, .expression ann _ val op inlineIf =>
    match ann.optimised with
    | some (.constant _) => true
    | some _ => false
    | none => op.isNil && inlineIf.isAbsent && isConstant val
  | _, .valueExpression literal slices property call =>
    slices.isNil && property.isAbsent && call.isAbsent && isConstant literal
  | _, .string _ | _, .true_ | _, .false_ | _, .none_ | _, .int _ => true
  | _, .fString f => f.vars.isEmpty
  | _, .listLiteral l => isConstant l
  | _, .list values comprehension => comprehension.isAbsent && isConstant values
  | _, .nil => true
  | _, .cons head tail => isConstant head && isConstant tail
  | _, _ => false

/-- The value of a constant, as `newPyFunc` keeps it. -/
def constantDefault (s : ℕ) (arg : Node Ann .argument) (val : Option (Exp H)) : P H (Option Obj) :=
  match arg, val with
  | .argument _ _ _ (.present e) _, some val =>
    if isConstant e then do
      let obj ← val s
      pure (some obj)
    else pure none
  | _, _ => pure none

def argName : Node Ann .argument → Bytes
  | .argument name _ _ _ _ => name

/-- The names that an argument goes by. -/
def argNames : Node Ann .argument → List Bytes
  | .argument name _ aliases _ _ => name :: aliases

/-- The types of an argument that have a name. -/
def argTypes : Node Ann .argument → List Bytes
  | .argument _ type _ _ _ => type.filter knownTypeNames.contains

/-- The default of an argument, if it is not a constant. -/
def argDefault : Node Ann .argument → Option (Syntax.Expression Ann)
  | .argument _ _ _ (.present e) _ => if isConstant e then none else some e
  | .argument _ _ _ .absent _ => none

/-- The function of a definition in the scope `s`, with the constants among its defaults. Of two
arguments with one name the later one has it. -/
def newClosure (s : ℕ) (name : Bytes) (arguments : List (Node Ann .argument))
    (constants : List (Option Obj)) (code : List (Statement Ann)) (returnType : Bytes) :
    Closure where
  sig := {
    name
    args := arguments.map argName
    argIndices := (arguments.zipIdx.flatMap fun (arg, i) =>
      (argNames arg).map fun name => (name, i)).reverse
    types := arguments.map argTypes
    constants
    hasDefault := arguments.map fun arg => (argDefault arg).isSome }
  scope := s
  defaults := arguments.map argDefault
  code := code
  returnType := returnType

/-- `newPyFunc` (lines 639–676): the constants are evaluated now, other defaults when they are
needed. -/
def newPyFunc (s : ℕ) (name : Bytes) (arguments : List (Node Ann .argument))
    (vals : List (Option (Exp H))) (code : List (Statement Ann)) (returnType : Bytes) :
    P H Obj := do
  let constants ← (arguments.zip vals).mapM fun (arg, val) => constantDefault s arg val
  let f ← ask (.define (newClosure s name arguments constants code returnType))
  pure (.func (.closure f))

/-! ## Expressions -/

/-- What a node of an expression does. -/
def Den (H : Type) : Kind → Type
  | .expression => Exp H
  | .opExpression => OpDen H
  | .inlineIf => Exp H × Exp H
  | .valueExpression => ValDen H
  | .literal => LitDen H
  | .identExpr => IdentDen H
  | .identExprAction => ActionDen H
  | .call => Args H
  | .callArgument => Bytes × Exp H
  | .list => ListDen H
  | .dict => DictDen H
  | .dictItem => Exp H × Exp H
  | .slice => SliceDen H
  | .comprehension => CompDen H
  | .secondComprehension => List Bytes × Exp H
  | .lambda => Exp H
  | .argument => Option (Exp H)
  | .listOf k => List (Den H k)
  | .optional k => Option (Den H k)

/-- What a node of an expression does. The positions of an expression are for its errors only; a
lambda is a function with one statement. -/
def denote : {k : Kind} → Node Ann k → Den H k
  | _, .nil => []
  | _, .cons head tail => denote head :: denote tail
  | _, .absent => none
  | _, .present node => some (denote node)
  | _, .expression ann _ val op inlineIf =>
    interpretExpression R N ann.optimised (denote val) (denote op) (denote inlineIf)
  | _, .opExpression op expr => (op, denote expr)
  | _, .inlineIf condition otherwise => (denote condition, denote otherwise)
  | _, .valueExpression literal slices property call =>
    { literal := denote literal
      slices := denote slices
      property := denote property
      call := denote call : ValDen H }
  | _, .string s => exp fun _ => pure (.str (stringLiteral s))
  | _, .fString f => exp (interpretFString R f)
  | _, .true_ => exp fun _ => pure (.bool true)
  | _, .false_ => exp fun _ => pure (.bool false)
  | _, .none_ => exp fun _ => pure .none
  | _, .int i => exp fun _ => pure (.int (Int64.ofInt i))
  | _, .listLiteral l => list (denote l)
  | _, .dictLiteral d => exp (interpretDict (denote d))
  | _, .tupleLiteral l => exp (interpretTuple R (denote l))
  | _, .lambdaLiteral l => exp (denote l)
  | _, .ident i => exp fun s => do
    let ident : IdentDen H := denote i
    let obj ← lookup s ident.name
    interpretIdent ident s obj
  | _, .identExpr _ _ name action => { name, actions := denote action : IdentDen H }
  | _, .propertyAction property => propertyAction R (denote property)
  | _, .callAction call => callAction N (denote call)
  | _, .call arguments => (denote arguments : Den H (.listOf .callArgument))
  | _, .callArgument _ name value => (name, denote value)
  | _, .list values comprehension =>
    { values := denote values, comprehension := denote comprehension : ListDen H }
  | _, .dict items comprehension =>
    { items := denote items, comprehension := denote comprehension : DictDen H }
  | _, .dictItem key value => (denote key, denote value)
  | _, .slice start colon stop => { start := denote start, colon, stop := denote stop : SliceDen H }
  | _, .comprehension names expr second cond =>
    { names, expr := denote expr, second := denote second, cond := denote cond : CompDen H }
  | _, .secondComprehension names expr => (names, denote expr)
  | _, .lambda arguments expr => fun s =>
    newPyFunc s (utf8 "<lambda>") arguments.toList (denote arguments)
      [.mk 0 0 (.return_ [expr])] []
  | _, .argument _ _ _ value _ => (denote value : Den H (.optional .expression))

/-! ## Plain constants -/

/-- The object of a constant that needs no array: of a list only if it is empty. -/
def plainLiteral : Node Ann .literal → Option Obj
  | .string s => some (.str (stringLiteral s))
  | .true_ => some (.bool true)
  | .false_ => some (.bool false)
  | .none_ => some .none
  | .int i => some (.int (Int64.ofInt i))
  | .fString f => if f.vars = [] then some (.str f.suffix) else none
  | .listLiteral (.list values comprehension) =>
    if values.isNil ∧ comprehension.isAbsent then some (.list emptyList) else none
  | _ => none

def plainValue : Node Ann .valueExpression → Option Obj
  | .valueExpression literal slices property call =>
    if slices.isNil ∧ property.isAbsent ∧ call.isAbsent then plainLiteral literal else none

/-- The object of a constant that needs no array, or has been made before. -/
def plainConstant : Syntax.Expression Ann → Option Obj
  | .expression ann _ val op inlineIf =>
    match ann.optimised with
    | some (.constant obj) => some obj
    | some _ => none
    | none => if op.isNil ∧ inlineIf.isAbsent then plainValue val else none

theorem interpretLiteral_of_plainLiteral {literal : Node Ann .literal} {obj : Obj}
    (h : plainLiteral literal = some obj) (s : ℕ) :
    interpretLiteral R (denote R N literal) s = pure obj := by
  cases literal with
  | fString f =>
    obtain ⟨vars, suffix⟩ := f
    obtain ⟨rfl, hobj⟩ := Option.ite_none_right_eq_some.mp h
    cases hobj
    rfl
  | listLiteral l =>
    obtain ⟨values, comprehension⟩ := l
    obtain ⟨⟨hvalues, hcomp⟩, hobj⟩ := Option.ite_none_right_eq_some.mp h
    cases hobj
    rw [Node.eq_nil_of_isNil hvalues, Node.eq_absent_of_isAbsent hcomp]
    rfl
  | _ => cases h <;> rfl

theorem interpretValueExpression_of_plainValue {val : Node Ann .valueExpression} {obj : Obj}
    (h : plainValue val = some obj) (s : ℕ) :
    interpretValueExpression R N (denote R N val) s = pure obj := by
  obtain ⟨literal, slices, property, call⟩ := val
  obtain ⟨⟨hslices, hproperty, hcall⟩, hobj⟩ := Option.ite_none_right_eq_some.mp h
  rw [Node.eq_nil_of_isNil hslices, Node.eq_absent_of_isAbsent hproperty,
    Node.eq_absent_of_isAbsent hcall]
  simp only [denote, interpretValueExpression, interpretLiteral_of_plainLiteral R N hobj]
  rfl

/-- A plain constant is its object, and nothing else happens. -/
theorem denote_of_plainConstant {e : Syntax.Expression Ann} {obj : Obj}
    (h : plainConstant e = some obj) (s : ℕ) : denote R N e s = (pure obj : P H Obj) := by
  cases e with
  | expression ann =>
    obtain ⟨pos, optimised⟩ := ann
    cases optimised with
    | some o => cases o <;> cases h; rfl
    | none =>
      obtain ⟨⟨hop, hif⟩, hobj⟩ := Option.ite_none_right_eq_some.mp h
      rw [Node.eq_nil_of_isNil hop, Node.eq_absent_of_isAbsent hif]
      simp only [denote, interpretExpression, interpretValueExpression_of_plainValue R N hobj]
      rfl

/-! ## Statements -/

/-- What a statement does in a scope; it may return an object. -/
abbrev Stm (H : Type) := ℕ → P H (Option Obj)

/-- `scope.interpretIdentStatement` (lines 939–975). -/
def interpretIdentStatement (i : IdentStatement Ann) (s : ℕ) : P H Unit :=
  match i with
  | .bare name => do
    let _ ← lookup s name
    pure ()
  | .unpack name names expr => do
    let obj ← denote R N expr s
    match obj with
    | .list l =>
      if l.len = names.length + 1 then do
        let objs ← read fun st => l.contents st.arrays
        setAll s (name :: names) objs
      else raise (utf8 "Wrong number of items to unpack; expected " ++ itoa (names.length + 1) ++
        utf8 ", got " ++ itoa l.len)
    -- the type in the message is that of the list that it is not
    | _ => raise (utf8 "Cannot unpack type list")
  | .index name expr assign => do
    let obj ← lookup s name
    let idx ← denote R N expr s
    let val ← denote R N assign s
    Prog.act fun st => (indexAssign obj idx val st).map fun st => ((), st)
  | .indexAug name expr augAssign => do
    let obj ← lookup s name
    let idx ← denote R N expr s
    let old ← readOr (operatorIndex R obj idx)
    let operand ← denote R N augAssign s
    let val ← Prog.act (operator R .add old operand)
    Prog.act fun st => (indexAssign obj idx val st).map fun st => ((), st)
  | .property name prop => do
    let ident : IdentDen H := denote R N prop
    let obj ← lookup s name
    let obj ← readOr (property R obj ident.name)
    let _ ← interpretIdent ident s obj
    pure ()
  | .call name call => do
    let obj ← lookup s name
    let _ ← callObject N name obj s (denote R N call)
    pure ()
  | .assign name assign => do
    let obj ← denote R N assign s
    set s name obj
  | .augAssign name augAssign => do
    let obj ← lookup s name
    let operand ← denote R N augAssign s
    let obj ← Prog.act (operator R .add obj operand)
    set s name obj

/-- Fail with the text of an object. -/
def raiseObj {α : Type} (obj : Obj) : P H α := do
  let msg ← readOr fun st => R.toStr st obj
  raise msg

/-- `scope.interpretFor` (lines 639–653), for what the statements of its body do. -/
def interpretFor (names : List Bytes) (expr : Exp H) (body : Stm H) : Stm H := fun s => do
  let it ← expr s
  iterable it
  iterate it (fun _ li => do
    unpackNames s names li
    let ret ← body s
    match ret with
    | none | some .continueIteration => pure (none, true)
    | some .stopIteration => pure (none, false)
    | some obj => pure (some obj, false)) none

/-- One clause of `if`: what follows it if the condition does not hold. -/
def interpretClause (condition : Exp H) (body otherwise : Stm H) : Stm H := fun s => do
  let obj ← condition s
  if ← truthy obj then body s else otherwise s

/-- One statement after another, until one returns. -/
def andThenStm (x y : Stm H) : Stm H := fun s => do
  let ret ← x s
  match ret with
  | none => y s
  | some obj => pure (some obj)

mutual

/-- `scope.interpretStatements` (lines 564–625). -/
def interpretStatements : List (Statement Ann) → Stm H
  | [] => fun _ => pure none
  | stmt :: stmts => andThenStm (interpretStatement stmt) (interpretStatements stmts)

def interpretStatement : Statement Ann → Stm H
  | .mk _ _ body => interpretBody body

def interpretBody : Body Ann → Stm H
  | .funcDef name arguments _ statements _ ret _ => fun s => do
    let f ← newPyFunc s name arguments (arguments.map (denote R N)) statements ret
    set s name f
    pure none
  | .for_ names expr statements =>
      interpretFor names (denote R N expr) (interpretStatements statements)
  | .if_ first elif _ _ elseStatements =>
    interpretIf first (interpretElif elif (interpretStatements elseStatements))
  | .return_ [] => fun _ => pure (some .none)
  | .return_ [value] => fun s => do
    let obj ← (denote R N value : Exp H) s
    pure (some obj)
  | .return_ values => fun s => do
    let obj ← evaluateList s (values.map (denote R N))
    pure (some obj)
  | .raise expr => fun s => do
    let obj ← (denote R N expr : Exp H) s
    raiseObj R obj
  | .assert expr message => fun s => do
    let obj ← (denote R N expr : Exp H) s
    if ← truthy obj then pure none
    else
      match message with
      | none => raise (utf8 "assertion failed")
      | some message => do
        let obj ← (denote R N message : Exp H) s
        raiseObj R obj
  | .ident i => fun s => do
    interpretIdentStatement R N i s
    pure none
  | .literal expr => fun s => do
    let _ ← (denote R N expr : Exp H) s
    pure none
  | .pass => fun _ => pure none
  | .continue_ => fun _ => pure (some .continueIteration)
  | .break_ => fun _ => pure (some .stopIteration)

/-- `scope.interpretIf` (lines 627–637), one clause at a time. -/
def interpretIf : Clause Ann → Stm H → Stm H
  | .mk _ _ condition statements, otherwise =>
    interpretClause (denote R N condition) (interpretStatements statements) otherwise

def interpretElif : List (Clause Ann) → Stm H → Stm H
  | [], otherwise => otherwise
  | clause :: clauses, otherwise => interpretIf clause (interpretElif clauses otherwise)

end

/-! ## Running -/

/-- How requests are answered, with at most `n` calls in one another and at most `n` turns of a loop
over a range. The functions with code are the part of the state that programs do not see. -/
def answer : ℕ → Prog.Handler Answer (Store H) (List Closure) Bytes
  | _, .define c, (st, fs) => (.ok fs.length, st, fs ++ [c])
  | _, .signature f, (st, fs) =>
    match fs[f]? with
    | some c => (.ok (c.sig, c.scope, c.returnType), st, fs)
    | none => (.error nilDereference, st, fs)
  | n, .fuel, (st, fs) => (.ok n, st, fs)
  | 0, .default _ _ _, (st, fs) | 0, .body _ _, (st, fs) => (.diverged, st, fs)
  | n + 1, .default f i s, (st, fs) =>
    match fs[f]?.bind fun c => c.defaults.getD i none with
    | some e => (denote R N e s : P H Obj).run (answer n) (st, fs)
    | none => (.error nilDereference, st, fs)
  | n + 1, .body f s, (st, fs) =>
    match fs[f]? with
    | some c => (interpretStatements R N c.code s : P H (Option Obj)).run (answer n) (st, fs)
    | none => (.error nilDereference, st, fs)
  | _, .stuck, (st, fs) => (.diverged, st, fs)

theorem answer_define (n : ℕ) (c : Closure) (st : Store H) (fs : List Closure) :
    answer R N n (.define c) (st, fs) = (.ok fs.length, st, fs ++ [c]) := by
  cases n <;> rfl

theorem answer_signature_some (n : ℕ) {f : ℕ} {c : Closure} (st : Store H) {fs : List Closure}
    (h : fs[f]? = some c) :
    answer R N n (.signature f) (st, fs) = (.ok (c.sig, c.scope, c.returnType), st, fs) := by
  cases n <;> simp only [answer, h]

theorem answer_signature_none (n : ℕ) {f : ℕ} (st : Store H) {fs : List Closure}
    (h : fs[f]? = none) : answer R N n (.signature f) (st, fs) =
      (.error nilDereference, st, fs) := by
  cases n <;> simp only [answer, h]

/-- Run statements in a scope. -/
def runStatements (n : ℕ) (stmts : List (Statement Ann)) (s : ℕ)
    (state : Store H × List Closure) : Prog.Outcome Bytes (Option Obj) × Store H × List Closure :=
  (interpretStatements R N stmts s).run (answer R N n) state

end Please.Asp.Interp
