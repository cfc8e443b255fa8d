import Please.Asp.Interpreter
import Please.Asp.Parser

/-!
# The optimiser of the parser

Model of `Parser.optimise` (`src/parse/asp/parser.go`, lines 196–255). A first pass over statements
leaves out those that are held to have no effect, and turns `x.append(e)` and `x.extend(e)` into
augmented assignments; a second pass (`WalkAST`, `src/parse/asp/util.go`, lines 68–89) marks joins
of list literals.

The interpreter has a pass of its own (`src/parse/asp/interpreter.go`, lines 291–311), which makes
constants before a file is run. Which passes are made depends on the kind of the file.

The second pass is made for the statements of each block after the first one, and goes into blocks
in blocks again. What it has marked it does not look at any more, so one walk over all statements
does the same.
-/

namespace Please.Asp.Interp

open Please.Fs (Bytes)
open Please.Build (utf8)
open Please.Lib Syntax
open Please.Asp.Syntax

/-- The statements of a file, with nothing optimised. -/
def parseText [Utf8.Unicode] (n : ℕ) (b : Bytes) : Except Error (List (Statement Ann)) :=
  parseFileInput (fun pos => ⟨pos, none⟩) n b

/-! ## Walking over syntax trees -/

section walk

variable {m : Type → Type} [Monad m]

/-- Whether `Expression.Val` is nil: it is hidden in what the optimiser made of the expression. -/
def Ann.hidden (ann : Ann) : Bool :=
  match ann.optimised with
  | none | some (.localVar _) => false
  | some _ => true

/-- `WalkAST`: the callback is shown every expression, and may change it; then what is in it is
skipped. -/
def walk (callback : Syntax.Expression Ann → m (Option (Syntax.Expression Ann))) :
    {k : Kind} → Node Ann k → m (Node Ann k)
  | _, .nil => pure .nil
  | _, .cons head tail => return .cons (← walk callback head) (← walk callback tail)
  | _, .absent => pure .absent
  | _, .present node => return .present (← walk callback node)
  | _, .expression ann endPos val op inlineIf => do
    let changed ← callback (.expression ann endPos val op inlineIf)
    match changed with
    | some e => pure e
    | none =>
      if ann.hidden then pure (.expression ann endPos val op inlineIf)
      else do
        let val ← walk callback val
        let op ← walk callback op
        let inlineIf ← walk callback inlineIf
        pure (.expression ann endPos val op inlineIf)
  | _, .opExpression op expr => return .opExpression op (← walk callback expr)
  | _, .inlineIf condition otherwise =>
    return .inlineIf (← walk callback condition) (← walk callback otherwise)
  | _, .valueExpression literal slices property call =>
    return .valueExpression (← walk callback literal) (← walk callback slices)
      (← walk callback property) (← walk callback call)
  | _, .string s => pure (.string s)
  | _, .fString f => pure (.fString f)
  | _, .true_ => pure .true_
  | _, .false_ => pure .false_
  | _, .none_ => pure .none_
  | _, .int i => pure (.int i)
  | _, .listLiteral l => return .listLiteral (← walk callback l)
  | _, .dictLiteral d => return .dictLiteral (← walk callback d)
  | _, .tupleLiteral l => return .tupleLiteral (← walk callback l)
  | _, .lambdaLiteral l => return .lambdaLiteral (← walk callback l)
  | _, .ident i => return .ident (← walk callback i)
  | _, .identExpr pos endPos name action =>
    return .identExpr pos endPos name (← walk callback action)
  | _, .propertyAction property => return .propertyAction (← walk callback property)
  | _, .callAction call => return .callAction (← walk callback call)
  | _, .call arguments => return .call (← walk callback arguments)
  | _, .callArgument pos name value => return .callArgument pos name (← walk callback value)
  | _, .list values comprehension =>
    return .list (← walk callback values) (← walk callback comprehension)
  | _, .dict items comprehension =>
    return .dict (← walk callback items) (← walk callback comprehension)
  | _, .dictItem key value => return .dictItem (← walk callback key) (← walk callback value)
  | _, .slice start colon stop => return .slice (← walk callback start) colon (← walk callback stop)
  | _, .comprehension names expr second cond =>
    return .comprehension names (← walk callback expr) (← walk callback second)
      (← walk callback cond)
  | _, .secondComprehension names expr => return .secondComprehension names (← walk callback expr)
  | _, .lambda arguments expr => return .lambda (← walk callback arguments) (← walk callback expr)
  | _, .argument name type aliases value isPrivate =>
    return .argument name type aliases (← walk callback value) isPrivate

variable {P Q : Type} (f : (k : Kind) → Node P k → m (Node Q k))

/-- Change the expressions of a statement that begins with a name. -/
def walkIdent : IdentStatement P → m (IdentStatement Q)
  | .bare name => pure (.bare name)
  | .unpack name names expr => return .unpack name names (← f _ expr)
  | .index name expr assign => return .index name (← f _ expr) (← f _ assign)
  | .indexAug name expr augAssign => return .indexAug name (← f _ expr) (← f _ augAssign)
  | .property name property => return .property name (← f _ property)
  | .call name call => return .call name (← f _ call)
  | .assign name assign => return .assign name (← f _ assign)
  | .augAssign name augAssign => return .augAssign name (← f _ augAssign)

mutual

/-- Change the expressions of statements. -/
def walkStatements : List (Statement P) → m (List (Statement Q))
  | [] => pure []
  | stmt :: stmts => return (← walkStatement stmt) :: (← walkStatements stmts)

def walkStatement : Statement P → m (Statement Q)
  | .mk pos endPos body => return .mk pos endPos (← walkBody body)

def walkBody : Body P → m (Body Q)
  | .funcDef name arguments docstring statements eoDef ret isPrivate =>
    return .funcDef name (← arguments.mapM (f _)) docstring (← walkStatements statements) eoDef ret
      isPrivate
  | .for_ names expr statements => return .for_ names (← f _ expr) (← walkStatements statements)
  | .if_ first elif elseHeaderPos elseHeaderEndPos elseStatements =>
    return .if_ (← walkClause first) (← walkClauses elif) elseHeaderPos elseHeaderEndPos
      (← walkStatements elseStatements)
  | .return_ values => return .return_ (← values.mapM (f _))
  | .raise expr => return .raise (← f _ expr)
  | .assert expr message => return .assert (← f _ expr) (← message.mapM (f _))
  | .ident i => return .ident (← walkIdent f i)
  | .literal expr => return .literal (← f _ expr)
  | .pass => pure .pass
  | .continue_ => pure .continue_
  | .break_ => pure .break_

def walkClause : Clause P → m (Clause Q)
  | .mk headerPos headerEndPos condition statements =>
    return .mk headerPos headerEndPos (← f _ condition) (← walkStatements statements)

def walkClauses : List (Clause P) → m (List (Clause Q))
  | [] => pure []
  | clause :: clauses => return (← walkClause clause) :: (← walkClauses clauses)

end

end walk

/-- Change the expressions of statements, with no effect beside. -/
def mapStatements {P Q : Type} (f : (k : Kind) → Node P k → Node Q k)
    (stmts : List (Statement P)) : List (Statement Q) :=
  walkStatements (m := Id) f stmts

section unchanged

variable {P : Type}

theorem walkIdent_unchanged (i : IdentStatement P) : walkIdent (m := Id) (fun _ x => x) i = i := by
  cases i <;> rfl

theorem mapM_unchanged {α : Type} (l : List α) : l.mapM (m := Id) (fun x => x) = l := by
  induction l with
  | nil => rfl
  | cons x l ih => rw [List.mapM_cons, ih]; rfl

mutual

theorem mapStatements_unchanged (stmts : List (Statement P)) :
    mapStatements (fun _ x => x) stmts = stmts := by
  cases stmts with
  | nil => rfl
  | cons stmt stmts =>
    exact congrArg₂ List.cons (walkStatement_unchanged stmt) (mapStatements_unchanged stmts)

theorem walkStatement_unchanged (stmt : Statement P) :
    walkStatement (m := Id) (fun _ x => x) stmt = stmt := by
  obtain ⟨pos, endPos, body⟩ := stmt
  exact congrArg (Statement.mk pos endPos) (walkBody_unchanged body)

theorem walkBody_unchanged (body : Body P) : walkBody (m := Id) (fun _ x => x) body = body := by
  cases body with
  | funcDef name arguments docstring statements eoDef ret isPrivate =>
    exact congrArg₂ (fun arguments statements =>
      Body.funcDef name arguments docstring statements eoDef ret isPrivate)
        (mapM_unchanged arguments)
      (mapStatements_unchanged statements)
  | for_ names expr statements =>
    exact congrArg (Body.for_ names expr) (mapStatements_unchanged statements)
  | if_ first elif elseHeaderPos elseHeaderEndPos elseStatements =>
    have hfirst := walkClause_unchanged first
    have helif := walkClauses_unchanged elif
    have helse := mapStatements_unchanged elseStatements
    show Body.if_ (walkClause (m := Id) (fun _ x => x) first)
      (walkClauses (m := Id) (fun _ x => x) elif) elseHeaderPos elseHeaderEndPos
      (mapStatements (fun _ x => x) elseStatements) = _
    rw [hfirst, helif, helse]
  | return_ values => exact congrArg Body.return_ (mapM_unchanged values)
  | assert _ message => cases message <;> rfl
  | ident i => exact congrArg Body.ident (walkIdent_unchanged i)
  | raise expr | literal expr | pass | continue_ | break_ => rfl

theorem walkClause_unchanged (clause : Clause P) :
    walkClause (m := Id) (fun _ x => x) clause = clause := by
  obtain ⟨headerPos, headerEndPos, condition, statements⟩ := clause
  exact congrArg (Clause.mk headerPos headerEndPos condition) (mapStatements_unchanged statements)

theorem walkClauses_unchanged (clauses : List (Clause P)) :
    walkClauses (m := Id) (fun _ x => x) clauses = clauses := by
  cases clauses with
  | nil => rfl
  | cons clause clauses =>
    exact congrArg₂ List.cons (walkClause_unchanged clause) (walkClauses_unchanged clauses)

end

end unchanged

/-! ## The pass over statements -/

/-- The only argument of a call. -/
def soleArgument : Node Ann .call → Option (Node Ann .callArgument)
  | .call arguments =>
    match arguments.toList with
    | [arg] => some arg
    | _ => none

/-- `CallArgument.Value`. -/
def argumentValue : Node Ann .callArgument → Syntax.Expression Ann
  | .callArgument _ _ value => value

/-- The name of a property, and its only action, if that is a call. -/
def soleCall : Node Ann .identExpr → Option (Bytes × Node Ann .call)
  | .identExpr _ _ name action =>
    match action.toList with
    | [.callAction call] => some (name, call)
    | _ => none

theorem exists_of_soleCall {property : Node Ann .identExpr} {name : Bytes} {call : Node Ann .call}
    (h : soleCall property = some (name, call)) :
    ∃ pos endPos, property = .identExpr pos endPos name (.cons (.callAction call) .nil) := by
  cases property with
  | identExpr pos endPos =>
    rw [soleCall] at h
    split at h
    next call' haction =>
      cases h
      exact ⟨pos, endPos, by rw [Node.eq_singleton_of_toList haction]⟩
    next => cases h

theorem eq_of_soleArgument {call : Node Ann .call} {arg : Node Ann .callArgument}
    (h : soleArgument call = some arg) : call = .call (.cons arg .nil) := by
  cases call with
  | call =>
    rw [soleArgument] at h
    split at h
    next arg' harguments =>
      cases h
      rw [Node.eq_singleton_of_toList harguments]
    next => cases h

/-- The expression `[e]`, without a position. -/
def singleton (e : Syntax.Expression Ann) : Syntax.Expression Ann :=
  .expression ⟨0, none⟩ none
    (.valueExpression (.listLiteral (.list (.cons e .nil) .absent)) .nil .absent .absent)
      .nil .absent

/-- The augmented assignment for `append` or `extend` with one argument (lines 216–233). -/
def rewriteAppend (i : IdentStatement Ann) : Option (IdentStatement Ann) :=
  match i with
  | .property name property => do
    let (action, call) ← soleCall property
    let arg ← soleArgument call
    if action = utf8 "append" then some (.augAssign name (singleton (argumentValue arg)))
    else if action = utf8 "extend" then some (.augAssign name (argumentValue arg))
    else none
  | _ => none

/-- "Neither statement has any effect" (line 203). -/
def hasNoEffect : Body Ann → Bool
  | .literal _ | .pass => true
  | _ => false

section pass

-- which statements are left out
variable (drop : Body Ann → Bool)

mutual

/-- The loop of `optimise` over statements, in every block. -/
def rewriteStatements : List (Statement Ann) → List (Statement Ann)
  | [] => []
  | stmt :: stmts => rewriteStatement stmt ++ rewriteStatements stmts

def rewriteStatement : Statement Ann → List (Statement Ann)
  | .mk pos endPos body => if drop body then [] else rewriteBody pos endPos body

def rewriteBody (pos endPos : ℕ) : Body Ann → List (Statement Ann)
  | .funcDef name arguments docstring statements eoDef ret isPrivate =>
    [.mk pos endPos
      (.funcDef name arguments docstring (rewriteStatements statements) eoDef ret isPrivate)]
  | .for_ names expr statements =>
      [.mk pos endPos (.for_ names expr (rewriteStatements statements))]
  | .if_ first elif elseHeaderPos elseHeaderEndPos elseStatements =>
    [.mk pos endPos (.if_ (rewriteClause first) (rewriteClauses elif) elseHeaderPos elseHeaderEndPos
      (rewriteStatements elseStatements))]
  | .ident i =>
    match rewriteAppend i with
    | some i => [.mk pos 0 (.ident i)]
    | none => [.mk pos endPos (.ident i)]
  | body => [.mk pos endPos body]

def rewriteClause : Clause Ann → Clause Ann
  | .mk headerPos headerEndPos condition statements =>
    .mk headerPos headerEndPos condition (rewriteStatements statements)

def rewriteClauses : List (Clause Ann) → List (Clause Ann)
  | [] => []
  | clause :: clauses => rewriteClause clause :: rewriteClauses clauses

end

end pass

/-- The documented rewriting alone: every statement stays. -/
def rewriteAppends (stmts : List (Statement Ann)) : List (Statement Ann) :=
  rewriteStatements (fun _ => false) stmts

/-! ## Joins -/

/-- The value of an expression that is nothing else, if the optimiser has not taken it. -/
def bareValue : Syntax.Expression Ann → Option (Node Ann .valueExpression)
  | .expression ann _ val op inlineIf =>
    if ann.optimised.isNone ∧ op.isNil ∧ inlineIf.isAbsent then some val else none

theorem exists_of_bareValue {e : Syntax.Expression Ann} {val : Node Ann .valueExpression}
    (h : bareValue e = some val) :
    ∃ ann endPos, ann.optimised = none ∧ e = .expression ann endPos val .nil .absent := by
  cases e with
  | expression ann endPos =>
    obtain ⟨⟨hann, hop, hif⟩, hval⟩ := Option.ite_none_right_eq_some.mp h
    cases hval
    refine ⟨ann, endPos, Option.isNone_iff_eq_none.mp hann, ?_⟩
    rw [Node.eq_nil_of_isNil hop, Node.eq_absent_of_isAbsent hif]

/-- `ValueExpression.List`. -/
def listOfValue : Node Ann .valueExpression → Option (Node Ann .list)
  | .valueExpression (.listLiteral l) _ _ _ => some l
  | _ => none

/-- The list literal of an argument without a name. -/
def joinArgument : Node Ann .callArgument → Option (Node Ann .list)
  | .callArgument _ name value => if name = [] then (bareValue value).bind listOfValue else none

/-- The list literal of the property `join(..)`. -/
def joinProperty (property : Node Ann .identExpr) : Option (Node Ann .list) := do
  let (name, call) ← soleCall property
  let arg ← soleArgument call
  if name = utf8 "join" then joinArgument arg else none

/-- The string literal and the list literal of a join. -/
def joinOfValue : Node Ann .valueExpression → Option (Bytes × Node Ann .list)
  | .valueExpression (.string base) _ (.present property) _ =>
    if base = [] then none else (joinProperty property).map fun l => (base, l)
  | _ => none

/-- The test for a join (lines 241–243). -/
def spotJoin (e : Syntax.Expression Ann) : Option (Bytes × Node Ann .list) :=
  (bareValue e).bind joinOfValue

/-- `optimisedJoin`: the list stands for the value. -/
def joinNode (ann : Ann) (endPos : Option Ann) (base : Bytes) (l : Node Ann .list) :
    Syntax.Expression Ann :=
  .expression { ann with optimised := some (.join base) } endPos
    (.valueExpression (.listLiteral l) .nil .absent .absent) .nil .absent

/-- The callback of the second pass (lines 240–254). -/
def markJoin (e : Syntax.Expression Ann) : Option (Syntax.Expression Ann) :=
  match e with
  | .expression ann endPos _ _ _ => (spotJoin e).map fun (base, l) => joinNode ann endPos base l

/-- The second pass. -/
def markJoins (stmts : List (Statement Ann)) : List (Statement Ann) :=
  mapStatements (fun _ => walk (m := Id) markJoin) stmts

/-- `Parser.optimise`. -/
def optimise (stmts : List (Statement Ann)) : List (Statement Ann) :=
  markJoins (rewriteStatements hasNoEffect stmts)

/-! ## The passes of the interpreter -/

/-- The name of a property without actions that is the only action. -/
def soleProperty (action : Node Ann (.listOf .identExprAction)) : Option Bytes :=
  match action.toList with
  | [.propertyAction (.identExpr _ _ name actions)] => if actions.isNil then some name else none
  | _ => none

/-- The lookups that the interpreter has a short cut for (lines 299–308): a variable, or a value of
`CONFIG`. -/
def spotLookup : Syntax.Expression Ann → Option Optimised
  | .expression ann _
      (.valueExpression (.ident (.identExpr _ _ name action)) slices property call) op inlineIf =>
    if !ann.hidden && call.isAbsent && op.isNil && inlineIf.isAbsent && slices.isNil then
      if property.isAbsent && action.isNil then some (.localVar name)
      else if name = utf8 "CONFIG" then (soleProperty action).map .config
      else none
    else none
  | _ => none

/-- The expression with what the optimiser found. -/
def withOptimised (o : Optimised) : Syntax.Expression Ann → Syntax.Expression Ann
  | .expression ann endPos val op inlineIf =>
    .expression { ann with optimised := some o } endPos val op inlineIf

section interpreter

variable {H : Type} (R : Runtime H) (N : Natives H) (root : ℕ)

/-- The callback of `optimiseExpressions`. Constants are made in the root scope. -/
def optimiseExpression (e : Syntax.Expression Ann) : P H (Option (Syntax.Expression Ann)) :=
  if isConstant e then do
    let obj ← (denote R N e : Exp H) root
    pure (some (withOptimised (.constant obj) e))
  else pure ((spotLookup e).map fun o => withOptimised o e)

/-- `interpreter.optimiseExpressions` (lines 293–311). -/
def optimiseExpressions (stmts : List (Syntax.Statement Ann)) : P H (List (Syntax.Statement Ann)) :=
  walkStatements (fun _ => walk (optimiseExpression R N root)) stmts

/-- Whether the value of an expression is `{}`, whatever stands after it. -/
def isEmptyDict : Syntax.Expression Ann → Bool
  | .expression _ _ (.valueExpression (.dictLiteral (.dict items comprehension)) _ _ _) _ _ =>
    items.isNil && comprehension.isAbsent
  | _ => false

/-- A default `{}` of an argument is one frozen dict for all calls. -/
def optimiseBuiltinArgument : Node Ann .argument → P H (Node Ann .argument)
  | .argument name type aliases (.present value) isPrivate =>
    if isEmptyDict value then do
      let d ← allocDict
      pure (.argument name type aliases (.present (withOptimised (.constant (.frozenDict d)) value))
        isPrivate)
    else pure (.argument name type aliases (.present value) isPrivate)
  | arg => pure arg

/-- `Parser.optimiseBuiltinCalls` (`parser.go`, lines 260–272), for one statement. -/
def optimiseBuiltinCall : Statement Ann → P H (Statement Ann)
  | .mk pos endPos (.funcDef name arguments docstring statements eoDef ret isPrivate) => do
    let arguments ← arguments.mapM optimiseBuiltinArgument
    pure (.mk pos endPos (.funcDef name arguments docstring statements eoDef ret isPrivate))
  | stmt => pure stmt

/-- The files that the interpreter runs. Builtins that come with the program are `embedded`. -/
inductive FileKind where
  | package
  | subinclude
  | builtins (embedded : Bool)

/-- The passes over a file before it is run: none for a package (`interpretAll`), those of
`parseSubinclude` and of `LoadBuiltins`. -/
def prepare (stmts : List (Syntax.Statement Ann)) : FileKind → P H (List (Syntax.Statement Ann))
  | .package => pure stmts
  | .subinclude => optimiseExpressions R N root (optimise stmts)
  | .builtins embedded => do
    let stmts ← if embedded then stmts.mapM optimiseBuiltinCall else pure stmts
    let stmts ← optimiseExpressions R N root stmts
    pure (optimise stmts)

/-- Run a file in a scope. -/
def interpretFile (kind : FileKind) (stmts : List (Syntax.Statement Ann)) (s : ℕ) :
    P H (Option Obj) := do
  let stmts ← prepare R N root stmts kind
  interpretStatements R N stmts s

end interpreter

end Please.Asp.Interp
