import Please.Asp.Optimise
import Please.Asp.ParserTotality
import Please.Asp.Sentinels

/-!
# Loop control stays in its loop

`break` and `continue` are objects that the statements of a block return, as they return the value
of `return`. A loop takes them; a function or a file would hand them on. The parser accepts `break`
and `continue` only in a loop of the same function body (`Placed`), and the passes before a file is
run keep it so. Statements that are placed so return sentinels only in loops, so every run of them
meets `contract`, and so does every function that they define.
-/

namespace Please.Asp.Interp

open Please.Fs (Bytes)
open Please.Build (utf8)
open Please.Lib Syntax Utf8.Unicode
open Please.Asp.Syntax List Option

-- it does not see what the theorems of a `mutual` block use through one another
set_option linter.unusedSectionVars false

variable {H : Type}

/-! ## Statements -/

/-- What a block may return: a sentinel only in a loop. -/
def MayReturn (inLoop : Bool) (ret : Option Obj) : Prop :=
  ∀ obj ∈ ret, obj.Clean ∨ inLoop = true ∧ (obj = .continueIteration ∨ obj = .stopIteration)

theorem mayReturn_none (inLoop : Bool) : MayReturn inLoop none := fun _ h => by cases h

theorem mayReturn_some {inLoop : Bool} {obj : Obj} (h : obj.Clean) :
    MayReturn inLoop (some obj) := by
  rintro _ ⟨⟩
  exact .inl h

theorem MayReturn.clean {ret : Option Obj} (h : MayReturn false ret) : ∀ obj ∈ ret, obj.Clean := by
  intro obj hobj
  rcases h obj hobj with hclean | ⟨⟨⟩, -⟩
  exact hclean

theorem keeps_raiseObj (R : Runtime H) {α : Type} {Q : α → Prop} (obj : Obj) :
    Keeps Q (raiseObj R obj : P H α) := by
  have hread : Keeps (fun _ => True) (readOr fun st => R.toStr st obj : P H Bytes) :=
    keeps_readOr fun _ _ _ _ => trivial
  exact hread.bind fun msg _ => keeps_raise msg

section blocks

variable {inLoop : Bool} {expr : Exp H} (hexpr : CleanExp expr)
include hexpr

/-- A loop takes the sentinels that its body returns. -/
theorem keeps_interpretFor (names : List Bytes) {body : Stm H}
    (hbody : ∀ s, Keeps (MayReturn true) (body s)) (s : ℕ) :
    Keeps (MayReturn inLoop) (interpretFor names expr body s) := by
  have hnone : ∀ obj ∈ (none : Option Obj), obj.Clean := fun _ h => by cases h
  refine (hexpr s).bind fun it _ => (keeps_assertOr _ _).bind fun _ _ => ?_
  refine (keeps_iterate (Q := fun ret => ∀ obj ∈ ret, Obj.Clean obj) ?_ it hnone).mono
    fun ret hret obj hobj => .inl (hret obj hobj)
  intro ret li _ hli
  refine (keeps_unpackNames s names hli).bind fun _ _ => (hbody s).bind fun ret hret => ?_
  split
  case h_1 | h_2 | h_3 => exact .pure hnone
  case h_4 obj hcontinue hstop =>
    refine .pure ?_
    rintro _ ⟨⟩
    rcases hret obj rfl with hobj | ⟨-, rfl | rfl⟩
    · exact hobj
    · exact absurd rfl hcontinue
    · exact absurd rfl hstop

theorem keeps_interpretClause {body otherwise : Stm H}
    (hbody : ∀ s, Keeps (MayReturn inLoop) (body s))
    (hotherwise : ∀ s, Keeps (MayReturn inLoop) (otherwise s)) (s : ℕ) :
    Keeps (MayReturn inLoop) (interpretClause expr body otherwise s) := by
  refine (hexpr s).bind fun obj _ => (keeps_truthy obj).bind fun b _ => ?_
  cases b with
  | true => exact hbody s
  | false => exact hotherwise s

end blocks

theorem keeps_andThenStm {inLoop : Bool} {x y : Stm H} (hx : ∀ s, Keeps (MayReturn inLoop) (x s))
    (hy : ∀ s, Keeps (MayReturn inLoop) (y s)) (s : ℕ) :
    Keeps (MayReturn inLoop) (andThenStm x y s) := by
  refine (hx s).bind fun ret hret => ?_
  cases ret with
  | none => exact hy s
  | some => exact .pure hret

section statements

variable {R : Runtime H} {N : Natives H} (hR : R.Clean) (hN : N.Clean)
include hR hN

theorem cleanExp_denote {e : Syntax.Expression Ann} (h : Annotated Ann.Clean e) :
    CleanExp (denote R N e : Exp H) := cleanDen_denote hR hN h

theorem keeps_interpretIdentStatement {i : IdentStatement Ann} (h : AnnotatedIdent Ann.Clean i)
    (s : ℕ) : Keeps (fun _ => True) (interpretIdentStatement R N i s) := by
  cases i with
  | bare name => exact (keeps_lookup s name).bind fun _ _ => .pure trivial
  | unpack =>
    refine (cleanExp_denote hR hN h s).bind fun obj _ => ?_
    cases obj with
    | list l =>
      dsimp only
      split
      · exact (keeps_read fun st hst => hst.contents l).bind fun objs hobjs =>
          keeps_setAll s _ hobjs
      · exact keeps_raise _
    | _ => exact keeps_raise _
  | index name =>
    refine (keeps_lookup s name).bind fun obj _ => ?_
    refine (cleanExp_denote hR hN h.1 s).bind fun idx _ => ?_
    exact (cleanExp_denote hR hN h.2 s).bind fun val hval => keeps_indexAssign obj idx hval
  | indexAug name =>
    refine (keeps_lookup s name).bind fun obj hobj => ?_
    refine (cleanExp_denote hR hN h.1 s).bind fun idx hidx => ?_
    have hread : Keeps Obj.Clean (readOr (operatorIndex R obj idx) : P H Obj) :=
      keeps_readOr fun _ _ hst hx => hst.operatorIndex hR hobj hidx hx
    refine hread.bind fun old hold => (cleanExp_denote hR hN h.2 s).bind fun operand hoperand => ?_
    exact (keeps_operator hR .add hold hoperand).bind fun val hval => keeps_indexAssign obj idx hval
  | property name =>
    refine (keeps_lookup s name).bind fun obj hobj => ?_
    refine (keeps_property R obj _).bind fun obj hobj => ?_
    exact (keeps_interpretIdent (cleanDen_denote hR hN h) s hobj).bind fun _ _ =>
      .pure trivial
  | call name =>
    refine (keeps_lookup s name).bind fun obj hobj => ?_
    exact (keeps_callObject (cleanDen_denote hR hN h) hN name hobj s).bind fun _ _ =>
      .pure trivial
  | assign name => exact (cleanExp_denote hR hN h s).bind fun obj hobj => keeps_set s name hobj
  | augAssign name =>
    refine (keeps_lookup s name).bind fun obj hobj => ?_
    refine (cleanExp_denote hR hN h s).bind fun operand hoperand => ?_
    exact (keeps_operator hR .add hobj hoperand).bind fun val hval => keeps_set s name hval

mutual

theorem keeps_interpretStatements {inLoop : Bool}
    (stmts : List (Syntax.Statement Ann)) (h : Placed Ann.Clean inLoop stmts) (s : ℕ) :
    Keeps (MayReturn inLoop) (interpretStatements R N stmts s) := by
  cases stmts with
  | nil => exact .pure (mayReturn_none inLoop)
  | cons stmt stmts =>
    exact keeps_andThenStm (keeps_interpretStatement stmt h.1)
      (keeps_interpretStatements stmts h.2) s

theorem keeps_interpretStatement {inLoop : Bool}
    (stmt : Syntax.Statement Ann) (h : PlacedStatement Ann.Clean inLoop stmt) (s : ℕ) :
    Keeps (MayReturn inLoop) (interpretStatement R N stmt s) := by
  cases stmt with
  | mk _ _ body => exact keeps_interpretBody body h s

theorem keeps_interpretBody {inLoop : Bool} (body : Body Ann)
    (h : PlacedBody Ann.Clean inLoop body) (s : ℕ) :
    Keeps (MayReturn inLoop) (interpretBody R N body s) := by
  cases body with
  | funcDef name _ _ _ _ ret =>
    refine (keeps_newPyFunc s name h.1 (forall_mem_map.mpr fun arg harg =>
      cleanDen_denote hR hN (h.1 arg harg)) h.2 ret).bind fun f hf => ?_
    exact (keeps_set s name hf).bind fun _ _ => .pure (mayReturn_none inLoop)
  | for_ names _ statements =>
    exact keeps_interpretFor (cleanExp_denote hR hN h.1) names
      (keeps_interpretStatements statements h.2) s
  | if_ first elif _ _ elseStatements =>
    have helse := keeps_interpretStatements elseStatements h.2.2
    exact keeps_interpretIf first h.1 (keeps_interpretElif elif h.2.1 helse) s
  | return_ values =>
    match values, h with
    | [], _ => exact .pure (mayReturn_some trivial)
    | [value], h =>
      exact (cleanExp_denote hR hN (h value mem_cons_self) s).bind fun obj hobj =>
        .pure (mayReturn_some hobj)
    | value :: value' :: values, h =>
      have hes : ∀ e ∈ (value :: value' :: values).map (denote R N), CleanExp e :=
        forall_mem_map.mpr fun e he => cleanExp_denote hR hN (h e he)
      exact (keeps_evaluateList s hes).bind fun obj hobj => .pure (mayReturn_some hobj)
  | raise => exact (cleanExp_denote hR hN h s).bind fun obj _ => keeps_raiseObj R obj
  | assert _ message =>
    refine (cleanExp_denote hR hN h.1 s).bind fun obj _ => (keeps_truthy obj).bind fun b _ => ?_
    cases b with
    | true => exact .pure (mayReturn_none inLoop)
    | false =>
      cases message with
      | none => exact keeps_raise _
      | some message =>
        exact (cleanExp_denote hR hN (h.2 message rfl) s).bind fun obj _ => keeps_raiseObj R obj
  | ident =>
    exact (keeps_interpretIdentStatement hR hN h s).bind fun _ _ =>
      .pure (mayReturn_none inLoop)
  | literal => exact (cleanExp_denote hR hN h s).bind fun _ _ => .pure (mayReturn_none inLoop)
  | pass => exact .pure (mayReturn_none inLoop)
  | continue_ =>
    refine .pure ?_
    rintro _ ⟨⟩
    exact .inr ⟨h, .inl rfl⟩
  | break_ =>
    refine .pure ?_
    rintro _ ⟨⟩
    exact .inr ⟨h, .inr rfl⟩

theorem keeps_interpretIf {inLoop : Bool} (clause : Clause Ann)
    (h : PlacedClause Ann.Clean inLoop clause) {otherwise : Stm H}
    (hotherwise : ∀ s, Keeps (MayReturn inLoop) (otherwise s)) (s : ℕ) :
    Keeps (MayReturn inLoop) (interpretIf R N clause otherwise s) := by
  cases clause with
  | mk _ _ _ statements =>
    exact keeps_interpretClause (cleanExp_denote hR hN h.1)
      (keeps_interpretStatements statements h.2) hotherwise s

theorem keeps_interpretElif {inLoop : Bool}
    (clauses : List (Clause Ann)) (h : PlacedClauses Ann.Clean inLoop clauses) {otherwise : Stm H}
    (hotherwise : ∀ s, Keeps (MayReturn inLoop) (otherwise s)) (s : ℕ) :
    Keeps (MayReturn inLoop) (interpretElif R N clauses otherwise s) := by
  cases clauses with
  | nil => exact hotherwise s
  | cons clause clauses =>
    exact keeps_interpretIf clause h.1 (keeps_interpretElif clauses h.2 hotherwise) s

end

end statements

/-! ## Functions with code -/

/-- The object is not one of the two that stand for `continue` and `break`. -/
def Obj.NoSentinel (obj : Obj) : Prop := obj ≠ .continueIteration ∧ obj ≠ .stopIteration

/-- No variable of any scope is bound to a sentinel. -/
def NoneBound (state : Store H × List Closure) : Prop :=
  ∀ sc ∈ state.1.scopes, ∀ e ∈ sc.locals, e.2.NoSentinel

/-- The body of a function returned no sentinel. -/
def NoneReturned : (q : Request) → Answer q → Prop
  | .body _ _, ret => (fun (ret : Option Obj) => ∀ obj ∈ ret, obj.NoSentinel) ret
  | _, _ => True

theorem Obj.Clean.noSentinel {obj : Obj} (h : obj.Clean) : obj.NoSentinel := by
  constructor <;> rintro rfl <;> exact h

section functions

variable (R : Runtime H) (N : Natives H)

/-- While a function or a default is run with at most `n` calls in one another, no variable is bound
to a sentinel, and no function returns one. -/
def Inside : ℕ → Request → Store H × List Closure → Prop
  | n + 1, .default f i s, state =>
    ∀ e, (state.2[f]?.bind fun c => c.defaults.getD i none) = some e →
      (denote R N e s : P H Obj).Always NoneBound NoneReturned (answer R N n) (Inside n) state
  | n + 1, .body f s, state =>
    ∀ c, state.2[f]? = some c →
      (interpretStatements R N c.code s).Always NoneBound NoneReturned (answer R N n) (Inside n)
        state
  | _, _, _ => True

variable {R N}

/-- No closure holds a sentinel, nor makes one. -/
def CleanClosures (fs : List Closure) : Prop := ∀ c ∈ fs, c.Clean

theorem CleanClosures.default {fs : List Closure} (h : CleanClosures fs) {f i : ℕ}
    {e : Syntax.Expression Ann} (he : (fs[f]?.bind fun c => c.defaults.getD i none) = some e) :
    Annotated Ann.Clean e := by
  obtain ⟨c, hc, he⟩ := bind_eq_some_iff.mp he
  have hdefaults := (h c (mem_of_getElem? hc)).defaults
  exact Slice.forall_mem_getD hdefaults (fun _ h => by cases h) i e he

omit R N in
theorem noneBound_of_clean (state : Store H × List Closure) (h : state.1.Clean)
    (_ : CleanClosures state.2) : NoneBound state :=
  fun sc hsc e he => (h.locals sc hsc e he).noSentinel

omit R N in
theorem noneReturned_of_answers (q : Request) (a : Answer q) (h : (contract H).answers q a) :
    NoneReturned q a := by
  cases q with
  | body => exact fun obj hobj => (h obj hobj).noSentinel
  | _ => trivial

/-- What answers a request keeps to the contract. By recursion on the depth of calls: a function is
run by what answers at one depth less. -/
theorem fulfils_answer (hR : R.Clean) (hN : N.Clean) (n : ℕ) :
    Prog.Fulfils (contract H) CleanClosures (answer R N n) (Inside R N n) := by
  rintro q ⟨st, fs⟩ hask hst hfs
  cases q with
  | define c =>
    have hin : Inside R N n (.define c) (st, fs) := by cases n <;> trivial
    rw [answer_define]
    exact ⟨hin, hst, forall_mem_append.mpr ⟨hfs, forall_mem_singleton.mpr hask⟩, fun _ _ => trivial⟩
  | signature f =>
    have hin : Inside R N n (.signature f) (st, fs) := by cases n <;> trivial
    cases hf : fs[f]? with
    | none =>
      rw [answer_signature_none R N n st hf]
      exact ⟨hin, hst, hfs, fun _ h => by cases h⟩
    | some c =>
      rw [answer_signature_some R N n st hf]
      refine ⟨hin, hst, hfs, ?_⟩
      rintro _ ⟨⟩
      exact (hfs c (mem_of_getElem? hf)).sig
  | fuel | stuck => cases n <;> exact ⟨trivial, hst, hfs, fun _ _ => trivial⟩
  | default f i s =>
    cases n with
    | zero => exact ⟨trivial, hst, hfs, fun _ h => by cases h⟩
    | succ n =>
      have ih := fulfils_answer hR hN n
      cases hf : fs[f]?.bind fun c => c.defaults.getD i none with
      | none =>
        simp only [answer, hf]
        refine ⟨fun e he => ?_, hst, hfs, fun _ h => by cases h⟩
        cases hf.symm.trans he
      | some =>
        have he := cleanExp_denote hR hN (hfs.default hf) s
        simp only [answer, hf]
        refine ⟨?_, he.run ih hst hfs⟩
        intro e' he'
        obtain rfl := some.inj (hf.symm.trans he')
        exact he.always ih noneBound_of_clean noneReturned_of_answers hst hfs
  | body f s =>
    cases n with
    | zero => exact ⟨trivial, hst, hfs, fun _ h => by cases h⟩
    | succ n =>
      have ih := fulfils_answer hR hN n
      cases hf : fs[f]? with
      | none =>
        simp only [answer, hf]
        refine ⟨fun c hc => ?_, hst, hfs, fun _ h => by cases h⟩
        cases hf.symm.trans hc
      | some c =>
        have hcode := (keeps_interpretStatements hR hN c.code
          (hfs c (mem_of_getElem? hf)).code s).mono fun _ => MayReturn.clean
        simp only [answer, hf]
        refine ⟨?_, hcode.run ih hst hfs⟩
        intro c' hc'
        obtain rfl := some.inj (hf.symm.trans hc')
        exact hcode.always ih noneBound_of_clean noneReturned_of_answers hst hfs

end functions

/-! ## Walking over statements -/

section walk

variable {m : Type → Type} [Monad m] [LawfulMonad m] (L : Post m) {A : Ann → Prop}

theorem holds_walk {callback : Syntax.Expression Ann → m (Option (Syntax.Expression Ann))}
    (hcallback : ∀ e, Annotated A e → L.holds (fun o => ∀ e' ∈ o, Annotated A e') (callback e))
    {k : Kind} {node : Node Ann k} (h : Annotated A node) :
    L.holds (Annotated A) (walk callback node) := by
  induction node with
  | nil | absent | string s | fString f | true_ | false_ | none_ | int i => exact L.pure trivial
  | expression _ _ _ op _ ihv iho ihi =>
    refine L.bind (hcallback _ h) fun changed hchanged => ?_
    cases changed with
    | some e => exact L.pure (hchanged e rfl)
    | none =>
      dsimp only
      split
      · exact L.pure h
      · refine L.bind (ihv h.2.1) fun _ hv => L.bind (iho h.2.2.1) fun _ ho => ?_
        exact L.bind (ihi h.2.2.2) fun _ hi => L.pure ⟨h.1, hv, ho, hi⟩
  | valueExpression _ _ _ _ ihl ihs ihp ihc =>
    refine L.bind (ihl h.1) fun _ hl => L.bind (ihs h.2.1) fun _ hs => ?_
    exact L.bind (ihp h.2.2.1) fun _ hp => L.bind (ihc h.2.2.2) fun _ hc => L.pure ⟨hl, hs, hp, hc⟩
  | comprehension _ _ _ _ ihe ihs ihc =>
    refine L.bind (ihe h.1) fun _ he => L.bind (ihs h.2.1) fun _ hs => ?_
    exact L.bind (ihc h.2.2) fun _ hc => L.pure ⟨he, hs, hc⟩
  | cons _ _ ih₁ ih₂ | inlineIf _ _ ih₁ ih₂ | list _ _ ih₁ ih₂ | dict _ _ ih₁ ih₂
  | dictItem _ _ ih₁ ih₂ | slice _ _ _ ih₁ ih₂ | lambda _ _ ih₁ ih₂ =>
    exact L.bind (ih₁ h.1) fun _ h₁ => L.bind (ih₂ h.2) fun _ h₂ => L.pure ⟨h₁, h₂⟩
  | present _ ih | opExpression _ _ ih | listLiteral _ ih | dictLiteral _ ih | tupleLiteral _ ih
  | lambdaLiteral _ ih | ident _ ih | identExpr _ _ _ _ ih | propertyAction _ ih | callAction _ ih
  | call _ ih | callArgument _ _ _ ih | secondComprehension _ _ ih | argument _ _ _ _ _ ih =>
    exact L.bind (ih h) fun _ h => L.pure h

/-- A change of nodes after which the annotations still satisfy `A`. -/
def Retains (A : Ann → Prop) (f : (k : Kind) → Node Ann k → m (Node Ann k)) : Prop :=
  ∀ ⦃k⦄ ⦃node : Node Ann k⦄, Annotated A node → L.holds (Annotated A) (f k node)

variable {L} {f : (k : Kind) → Node Ann k → m (Node Ann k)} (hf : Retains L A f)
include hf

theorem holds_walkIdent {i : IdentStatement Ann} (h : AnnotatedIdent A i) :
    L.holds (AnnotatedIdent A) (walkIdent f i) := by
  cases i with
  | bare => exact L.pure trivial
  | index _ _ _ | indexAug _ _ _ =>
    exact L.bind (hf h.1) fun _ h₁ => L.bind (hf h.2) fun _ h₂ => L.pure ⟨h₁, h₂⟩
  | unpack _ _ _ | property _ _ | call _ _ | assign _ _ | augAssign _ _ =>
    exact L.bind (hf h) fun _ h => L.pure h

mutual

/-- A walk keeps statements where they are. -/
theorem holds_walkStatements {inLoop : Bool}
    (stmts : List (Statement Ann)) (h : Placed A inLoop stmts) :
    L.holds (Placed A inLoop) (walkStatements f stmts) := by
  cases stmts with
  | nil => exact L.pure trivial
  | cons stmt stmts =>
    exact L.bind (holds_walkStatement stmt h.1) fun _ h₁ =>
      L.bind (holds_walkStatements stmts h.2) fun _ h₂ => L.pure ⟨h₁, h₂⟩

theorem holds_walkStatement {inLoop : Bool} (stmt : Statement Ann)
    (h : PlacedStatement A inLoop stmt) :
    L.holds (PlacedStatement A inLoop) (walkStatement f stmt) := by
  cases stmt with
  | mk _ _ body => exact L.bind (holds_walkBody body h) fun _ h => L.pure h

theorem holds_walkBody {inLoop : Bool} (body : Body Ann)
    (h : PlacedBody A inLoop body) :
    L.holds (PlacedBody A inLoop) (walkBody f body) := by
  cases body with
  | funcDef _ _ _ statements =>
    exact L.bind (L.mapM fun arg harg => hf (h.1 arg harg)) fun _ h₁ =>
      L.bind (holds_walkStatements statements h.2) fun _ h₂ => L.pure ⟨h₁, h₂⟩
  | for_ _ _ statements =>
    exact L.bind (hf h.1) fun _ h₁ =>
      L.bind (holds_walkStatements statements h.2) fun _ h₂ => L.pure ⟨h₁, h₂⟩
  | if_ first elif _ _ elseStatements =>
    refine L.bind (holds_walkClause first h.1) fun _ h₁ => ?_
    refine L.bind (holds_walkClauses elif h.2.1) fun _ h₂ => ?_
    exact L.bind (holds_walkStatements elseStatements h.2.2) fun _ h₃ => L.pure ⟨h₁, h₂, h₃⟩
  | return_ => exact L.bind (L.mapM fun value hvalue => hf (h value hvalue)) fun _ h => L.pure h
  | raise expr | literal expr => exact L.bind (hf h) fun _ h => L.pure h
  | assert =>
    exact L.bind (hf h.1) fun _ h₁ =>
      L.bind (L.optionMapM fun e he => hf (h.2 e he)) fun _ h₂ => L.pure ⟨h₁, h₂⟩
  | ident => exact L.bind (holds_walkIdent hf h) fun _ h => L.pure h
  | pass => exact L.pure trivial
  | continue_ | break_ => exact L.pure h

theorem holds_walkClause {inLoop : Bool} (clause : Clause Ann)
    (h : PlacedClause A inLoop clause) :
    L.holds (PlacedClause A inLoop) (walkClause f clause) := by
  cases clause with
  | mk _ _ _ statements =>
    exact L.bind (hf h.1) fun _ h₁ =>
      L.bind (holds_walkStatements statements h.2) fun _ h₂ => L.pure ⟨h₁, h₂⟩

theorem holds_walkClauses {inLoop : Bool} (clauses : List (Clause Ann))
    (h : PlacedClauses A inLoop clauses) :
    L.holds (PlacedClauses A inLoop) (walkClauses f clauses) := by
  cases clauses with
  | nil => exact L.pure trivial
  | cons clause clauses =>
    exact L.bind (holds_walkClause clause h.1) fun _ h₁ =>
      L.bind (holds_walkClauses clauses h.2) fun _ h₂ => L.pure ⟨h₁, h₂⟩

end

end walk

/-! ## The first pass of the parser's optimiser -/

variable {A : Ann → Prop} {e : Syntax.Expression Ann}

theorem annotated_of_soleCall {property : Node Ann .identExpr} {name : Bytes}
    {call : Node Ann .call} (h : Annotated A property)
    (hcall : soleCall property = some (name, call)) {arg : Node Ann .callArgument}
    (harg : soleArgument call = some arg) :
    Annotated A (argumentValue arg) := by
  obtain ⟨pos, endPos, rfl⟩ := exists_of_soleCall hcall
  obtain rfl := eq_of_soleArgument harg
  cases arg with
  | callArgument => exact h.1.1

theorem annotatedIdent_rewriteAppend {i i' : IdentStatement Ann} (h : AnnotatedIdent Ann.Clean i)
    (hi : rewriteAppend i = some i') : AnnotatedIdent Ann.Clean i' := by
  cases i with
  | property =>
    obtain ⟨⟨action, call⟩, hcall, hi⟩ := bind_eq_some_iff.mp hi
    obtain ⟨arg, harg, hi⟩ := bind_eq_some_iff.mp hi
    have hvalue := annotated_of_soleCall h hcall harg
    split at hi
    · obtain rfl := some.inj hi
      have hann : Ann.Clean ⟨0, none⟩ := fun _ h => by cases h
      exact ⟨hann, ⟨⟨⟨hvalue, trivial⟩, trivial⟩, trivial, trivial, trivial⟩, trivial, trivial⟩
    · obtain ⟨-, hi⟩ := ite_none_right_eq_some.mp hi
      obtain rfl := some.inj hi
      exact hvalue
  | _ => cases hi

section rewrite

variable (drop : Body Ann → Bool)

mutual

theorem placed_rewriteStatements {inLoop : Bool}
    (stmts : List (Statement Ann)) (h : Placed Ann.Clean inLoop stmts) :
    Placed Ann.Clean inLoop (rewriteStatements drop stmts) := by
  cases stmts with
  | nil => trivial
  | cons stmt stmts =>
    exact placed_append.mpr ⟨placed_rewriteStatement stmt h.1, placed_rewriteStatements stmts h.2⟩

theorem placed_rewriteStatement {inLoop : Bool}
    (stmt : Statement Ann) (h : PlacedStatement Ann.Clean inLoop stmt) :
    Placed Ann.Clean inLoop (rewriteStatement drop stmt) := by
  cases stmt with
  | mk pos endPos body =>
    rw [rewriteStatement]
    split
    · trivial
    · exact placed_rewriteBody pos endPos body h

theorem placed_rewriteBody (pos endPos : ℕ) {inLoop : Bool}
    (body : Body Ann) (h : PlacedBody Ann.Clean inLoop body) :
    Placed Ann.Clean inLoop (rewriteBody drop pos endPos body) := by
  cases body with
  | funcDef name arguments docstring statements eoDef ret isPrivate | for_ names expr statements =>
    exact ⟨⟨h.1, placed_rewriteStatements statements h.2⟩, trivial⟩
  | if_ first elif _ _ elseStatements =>
    exact ⟨⟨placed_rewriteClause first h.1, placed_rewriteClauses elif h.2.1,
      placed_rewriteStatements elseStatements h.2.2⟩, trivial⟩
  | ident =>
    rw [rewriteBody]
    split
    case h_1 i' hi => exact ⟨annotatedIdent_rewriteAppend h hi, trivial⟩
    case h_2 => exact ⟨h, trivial⟩
  | _ => exact ⟨h, trivial⟩

theorem placed_rewriteClause {inLoop : Bool} (clause : Clause Ann)
    (h : PlacedClause Ann.Clean inLoop clause) :
    PlacedClause Ann.Clean inLoop (rewriteClause drop clause) := by
  cases clause with
  | mk _ _ _ statements =>
    exact ⟨h.1, placed_rewriteStatements statements h.2⟩

theorem placed_rewriteClauses {inLoop : Bool}
    (clauses : List (Clause Ann)) (h : PlacedClauses Ann.Clean inLoop clauses) :
    PlacedClauses Ann.Clean inLoop (rewriteClauses drop clauses) := by
  cases clauses with
  | nil => trivial
  | cons clause clauses =>
    exact ⟨placed_rewriteClause clause h.1, placed_rewriteClauses clauses h.2⟩

end

end rewrite

/-! ## The passes before a file is run -/

variable {val : Node Ann .valueExpression}

theorem annotated_of_bareValue (h : Annotated A e)
    (hval : bareValue e = some val) :
    Annotated A val := by
  obtain ⟨ann, endPos, -, rfl⟩ := exists_of_bareValue hval
  exact h.2.1

theorem annotated_of_listOfValue {l : Node Ann .list}
    (h : Annotated A val) (hl : listOfValue val = some l) : Annotated A l := by
  cases val with
  | valueExpression literal =>
    cases literal <;> cases hl
    exact h.1

theorem annotated_of_spotJoin {base : Bytes} {l : Node Ann .list} (h : Annotated A e)
    (hjoin : spotJoin e = some (base, l)) :
    Annotated A l := by
  obtain ⟨val, hval, hjoin⟩ := bind_eq_some_iff.mp hjoin
  have hann := annotated_of_bareValue h hval
  cases val with
  | valueExpression literal _ property call =>
    cases literal with
    | string =>
      cases property with
      | absent => cases hjoin
      | present =>
        obtain ⟨-, hjoin⟩ := ite_none_left_eq_some.mp hjoin
        obtain ⟨l', hl, hpair⟩ := map_eq_some_iff.mp hjoin
        cases hpair
        obtain ⟨⟨name, call⟩, hcall, hl⟩ := bind_eq_some_iff.mp hl
        obtain ⟨arg, harg, hl⟩ := bind_eq_some_iff.mp hl
        obtain ⟨-, hl⟩ := ite_none_right_eq_some.mp hl
        have hvalue := annotated_of_soleCall hann.2.2.1 hcall harg
        cases arg with
        | callArgument =>
          obtain ⟨-, hl⟩ := ite_none_right_eq_some.mp hl
          obtain ⟨val, hval, hlist⟩ := bind_eq_some_iff.mp hl
          exact annotated_of_listOfValue (annotated_of_bareValue hvalue hval) hlist
    | _ => cases hjoin

theorem annotated_markJoin (e : Syntax.Expression Ann) (h : Annotated Ann.Clean e) :
    ∀ e' ∈ markJoin e, Annotated Ann.Clean e' := by
  intro e' he'
  cases e with
  | expression ann =>
    obtain ⟨⟨base, l⟩, hjoin, rfl⟩ := map_eq_some_iff.mp he'
    have hann : Ann.Clean { ann with optimised := some (.join base) } := fun _ h => by cases h
    exact ⟨hann, ⟨annotated_of_spotJoin h hjoin, trivial, trivial, trivial⟩, trivial, trivial⟩

theorem placed_optimise {inLoop : Bool} {stmts : List (Syntax.Statement Ann)}
    (h : Placed Ann.Clean inLoop stmts) : Placed Ann.Clean inLoop (optimise stmts) := by
  have hwalk : Retains Post.id Ann.Clean (fun _ => walk (m := Id) markJoin) :=
    fun _ _ hnode => holds_walk Post.id annotated_markJoin hnode
  exact holds_walkStatements hwalk _ (placed_rewriteStatements hasNoEffect stmts h)

theorem annotated_withOptimised {o : Optimised} (ho : ∀ obj, o = .constant obj → obj.Clean)
    (h : Annotated Ann.Clean e) :
    Annotated Ann.Clean (withOptimised o e) := by
  cases e with
  | expression => exact ⟨fun obj hobj => ho obj (some.inj hobj), h.2⟩

theorem ne_constant_of_spotLookup {o : Optimised} (h : spotLookup e = some o) (obj : Obj) :
    o ≠ .constant obj := by
  rintro rfl
  rw [spotLookup.eq_def] at h
  split at h
  · obtain ⟨-, h⟩ := ite_none_right_eq_some.mp h
    split at h
    · cases h
    · obtain ⟨-, h⟩ := ite_none_right_eq_some.mp h
      obtain ⟨name, -, hname⟩ := map_eq_some_iff.mp h
      cases hname
  · cases h

section passes

variable {R : Runtime H} {N : Natives H} (hR : R.Clean) (hN : N.Clean) (root : ℕ)
include hR hN

theorem keeps_optimiseExpression (e : Syntax.Expression Ann) (h : Annotated Ann.Clean e) :
    Keeps (fun o => ∀ e' ∈ o, Annotated Ann.Clean e') (optimiseExpression R N root e) := by
  rw [optimiseExpression]
  split
  · refine (cleanExp_denote hR hN h root).bind fun obj hobj => .pure ?_
    rintro _ ⟨⟩
    exact annotated_withOptimised (by rintro _ ⟨⟩; exact hobj) h
  · refine .pure fun e' he' => ?_
    obtain ⟨o, ho, rfl⟩ := map_eq_some_iff.mp he'
    exact annotated_withOptimised (fun obj hobj => absurd hobj (ne_constant_of_spotLookup ho obj)) h

variable {stmts : List (Syntax.Statement Ann)}

theorem keeps_optimiseExpressions (h : Placed Ann.Clean false stmts) :
    Keeps (Placed Ann.Clean false) (optimiseExpressions R N root stmts) := by
  have hwalk : Retains (Prog.post (contract H)) Ann.Clean
      (fun _ => walk (optimiseExpression R N root)) :=
    fun _ _ hnode => holds_walk _ (keeps_optimiseExpression hR hN root) hnode
  exact holds_walkStatements hwalk stmts h

omit hR hN in
theorem keeps_optimiseBuiltinArgument {arg : Node Ann .argument} (h : Annotated Ann.Clean arg) :
    Keeps (Annotated Ann.Clean) (optimiseBuiltinArgument arg : P H (Node Ann .argument)) := by
  cases arg with
  | argument _ _ _ value =>
    cases value with
    | absent => exact .pure h
    | present =>
      rw [optimiseBuiltinArgument]
      split
      · refine keeps_allocDict.bind fun d _ => .pure ?_
        exact annotated_withOptimised (by rintro _ ⟨⟩; trivial) h
      · exact .pure h

omit hR hN in
theorem keeps_optimiseBuiltinCall {stmt : Statement Ann}
    (h : PlacedStatement Ann.Clean false stmt) :
    Keeps (PlacedStatement Ann.Clean false)
      (optimiseBuiltinCall stmt : P H (Statement Ann)) := by
  cases stmt with
  | mk _ _ body =>
    cases body with
    | funcDef =>
      have hargs := (Prog.post (contract H)).mapM fun arg harg =>
        keeps_optimiseBuiltinArgument (h.1 arg harg)
      exact hargs.bind fun _ hargs => .pure ⟨hargs, h.2⟩
    | _ => exact .pure h

/-- The passes keep `break` and `continue` in their loops. -/
theorem keeps_prepare (h : Placed Ann.Clean false stmts) (kind : FileKind) :
    Keeps (Placed Ann.Clean false) (prepare R N root stmts kind) := by
  cases kind with
  | package => exact .pure h
  | subinclude => exact keeps_optimiseExpressions hR hN root (placed_optimise h)
  | builtins embedded =>
    have hrest {stmts : List (Statement Ann)} (h : Placed Ann.Clean false stmts) :
        Keeps (Placed Ann.Clean false)
          (optimiseExpressions R N root stmts >>= fun stmts => pure (optimise stmts)) :=
      (keeps_optimiseExpressions hR hN root h).bind fun _ h => .pure (placed_optimise h)
    cases embedded with
    | false => exact hrest h
    | true =>
      have hcalls := (Prog.post (contract H)).mapM fun stmt hstmt =>
        keeps_optimiseBuiltinCall (placed_iff.mp h stmt hstmt)
      exact hcalls.bind fun stmts hstmts => hrest (placed_iff.mpr hstmts)

theorem keeps_interpretFile (h : Placed Ann.Clean false stmts) (kind : FileKind) (s : ℕ) :
    Keeps (fun ret => ∀ obj ∈ ret, Obj.Clean obj) (interpretFile R N root kind stmts s) :=
  (keeps_prepare hR hN root h kind).bind fun stmts hstmts =>
    (keeps_interpretStatements hR hN stmts hstmts s).mono fun _ => MayReturn.clean

end passes

/-! ## Files -/

/-- A loop takes the sentinels, whatever its body does and whoever answers. -/
theorem noSentinel_of_interpretFor {names : List Bytes} {expr : Exp H} {body : Stm H} {s : ℕ}
    {answer : Prog.Handler Answer (Store H) (List Closure) Bytes} {state : Store H × List Closure}
    {ret : Option Obj} (h : ((interpretFor names expr body s).run answer state).1 = .ok ret) :
    ∀ obj ∈ ret, obj.NoSentinel := by
  have hC : LoopElems (Prog.free Answer (Store H)) fun _ => True :=
    { element := fun _ _ _ => trivial, int := fun _ => trivial, fuel := trivial, stuck := trivial }
  have hnone : ∀ obj ∈ (none : Option Obj), obj.NoSentinel := fun _ h => by cases h
  have hfor : (interpretFor names expr body s).Meets (Prog.free Answer (Store H))
      fun ret => ∀ obj ∈ ret, obj.NoSentinel := by
    refine (Prog.meets_free _).bind fun it _ => (Prog.meets_free _).bind fun _ _ => ?_
    refine meets_iterate hC (fun ret li _ _ => ?_) it hnone
    refine (Prog.meets_free _).bind fun _ _ => (Prog.meets_free _).bind fun ret _ => ?_
    split
    case h_1 | h_2 | h_3 => exact .pure hnone
    case h_4 obj hcontinue hstop =>
      refine .pure ?_
      rintro _ ⟨⟩
      exact ⟨hcontinue, hstop⟩
  exact hfor.result answer state h

/-- What holds of a file that is run: no variable is ever bound to a sentinel and no function
returns one, nor does the file. It leaves a state in which the next file can be run. -/
structure NeverLeaks (R : Runtime H) (N : Natives H) (p : P H (Option Obj)) (n : ℕ)
    (state : Store H × List Closure) : Prop where
  always : p.Always NoneBound NoneReturned (answer R N n) (Inside R N n) state
  result : ∀ ret, (p.run (answer R N n) state).1 = .ok ret → ∀ obj ∈ ret, obj.NoSentinel
  store : (p.run (answer R N n) state).2.1.Clean
  closures : CleanClosures (p.run (answer R N n) state).2.2

/-- Loop control never leaks from what the parser accepts. `break` and `continue` stand in a loop of
the same function body, a loop hands neither on, and files of every kind are run without a sentinel
in a variable or in what a function returns. -/
theorem loop_control_never_leaks [Utf8.Unicode] {R : Runtime H} {N : Natives H} (hR : R.Clean)
    (hN : N.Clean) {fuel : ℕ} {b : Bytes} {stmts : List (Statement Ann)}
    (hparse : parseText fuel b = .ok stmts) :
    Placed (fun _ => True) false stmts ∧
    (∀ kind root s n (state : Store H × List Closure), state.1.Clean → CleanClosures state.2 →
      NeverLeaks R N (interpretFile R N root kind stmts s) n state) ∧
    ∀ names expr (body : Stm H) s (answer : Prog.Handler Answer (Store H) (List Closure) Bytes)
      state ret, ((interpretFor names expr body s).run answer state).1 = .ok ret →
        ∀ obj ∈ ret, obj.NoSentinel := by
  have hmark : ∀ pos, Ann.Clean ⟨pos, none⟩ := fun _ _ h => by cases h
  have hplaced : Placed Ann.Clean false stmts := placed_of_parseFileInput hmark hparse
  refine ⟨placed_of_parseFileInput (fun _ => trivial) hparse, ?_,
    fun _ _ _ _ _ _ _ h => noSentinel_of_interpretFor h⟩
  intro kind root s n state hst hfs
  have hfile := keeps_interpretFile hR hN root hplaced kind s
  obtain ⟨hst', hfs', hret⟩ := hfile.run (fulfils_answer hR hN n) hst hfs
  exact {
    always := hfile.always (fulfils_answer hR hN n) noneBound_of_clean noneReturned_of_answers
      hst hfs
    result := fun ret h obj hobj => (hret ret h obj hobj).noSentinel
    store := hst'
    closures := hfs' }

/-- The store before anything is run: one scope, and nothing in it. -/
def startStore : Store Unit := ⟨[[]], [], [], [⟨none, [], .none, [], [], false⟩], ()⟩

/-- A function with a loop that is left, and a call of it. -/
def breakText : Bytes :=
  utf8 "def f(x):\n    for y in x:\n        if y:\n            break\nz = f([1])\n"

theorem loop_control_never_leaks_breakText :
    ∃ stmts, @parseText ascii 60 breakText = .ok stmts ∧
      Placed (fun _ => True) false stmts ∧
      NeverLeaks (Runtime.bare Unit) (fun _ => none)
        (interpretFile (Runtime.bare Unit) (fun _ => none) 0 .package stmts 0) 3
        (startStore, []) := by
  have hR : (Runtime.bare Unit).Clean :=
    { operator := fun _ _ _ h => by cases h
      index := fun _ _ _ h => by cases h }
  have hN : Natives.Clean (fun _ => none : Natives Unit) := fun _ _ h => by cases h
  have hst : startStore.Clean := by constructor <;> simp [startStore, Obj.Clean]
  obtain ⟨stmts, hstmts⟩ := Except.exists_ok_of_isSome
    (x := @parseText ascii 60 breakText) (by decide +kernel)
  obtain ⟨hplaced, hruns, -⟩ :=
    @loop_control_never_leaks Unit ascii _ _ hR hN _ _ _ hstmts
  exact ⟨stmts, hstmts, hplaced, hruns .package 0 0 3 (startStore, []) hst fun _ h => by cases h⟩

end Please.Asp.Interp
