import Please.Asp.Optimise

/-!
# What the pass over statements changes

The optimiser leaves out every expression that stands as a statement, as one that has no effect.
Such an expression may call functions and fail.

* `optimise_alike`: a program in which such expressions are inert does after the optimiser what it
  does with all its statements.
* `parenthesised_call_lost`: a call in parentheses is not made.
-/

namespace Please.Asp.Interp

open Please.Fs (Bytes)
open Please.Build (utf8)
open Please.Lib Syntax Prog.Like
open Please.Asp.Syntax List

/-! ## Statements in sequence -/

section sequence

variable {H : Type} (R : Runtime H) (N : Natives H)

theorem andThenStm_none (x : Stm H) : andThenStm x (fun _ => pure none) = x := by
  funext s
  calc andThenStm x (fun _ => pure none) s = x s >>= pure :=
        congrArg (x s >>= ·) (funext fun ret => by cases ret <;> rfl)
    _ = x s := bind_pure _

theorem andThenStm_assoc (x y z : Stm H) :
    andThenStm (andThenStm x y) z = andThenStm x (andThenStm y z) := by
  funext s
  simp only [andThenStm, bind_assoc]
  refine congrArg (x s >>= ·) (funext fun ret => ?_)
  cases ret with
  | none => rfl
  | some => rw [pure_bind]

theorem interpretStatements_append (xs ys : List (Statement Ann)) :
    interpretStatements R N (xs ++ ys) =
      andThenStm (interpretStatements R N xs) (interpretStatements R N ys) := by
  induction xs with
  | nil => rfl
  | cons x xs ih => rw [cons_append, interpretStatements, interpretStatements, ih, andThenStm_assoc]

theorem interpretStatements_singleton (x : Statement Ann) :
    interpretStatements R N [x] = interpretStatement R N x := by
  rw [interpretStatements, interpretStatements, andThenStm_none]

end sequence

/-! ## Literals -/

mutual

/-- The expressions that stand as statements, in any block. -/
def literals : List (Syntax.Statement Ann) → List (Syntax.Expression Ann)
  | [] => []
  | stmt :: stmts => literalsOf stmt ++ literals stmts

def literalsOf : Syntax.Statement Ann → List (Syntax.Expression Ann)
  | .mk _ _ body => bodyLiterals body

def bodyLiterals : Body Ann → List (Syntax.Expression Ann)
  | .funcDef _ _ _ statements _ _ _ => literals statements
  | .for_ _ _ statements => literals statements
  | .if_ first elif _ _ elseStatements =>
    clauseLiterals first ++ clausesLiterals elif ++ literals elseStatements
  | .literal expr => [expr]
  | _ => []

def clauseLiterals : Clause Ann → List (Syntax.Expression Ann)
  | .mk _ _ _ statements => literals statements

def clausesLiterals : List (Clause Ann) → List (Syntax.Expression Ann)
  | [] => []
  | clause :: clauses => clauseLiterals clause ++ clausesLiterals clauses

end

section pass

variable {H : Type} (R : Runtime H) (N : Natives H)

/-- Evaluating an expression gives an object, and nothing else. -/
def Inert (e : Syntax.Expression Ann) : Prop :=
  ∀ n s st fs, ∃ obj, (denote R N e s : P H Obj).run (answer R N n) (st, fs) = (.ok obj, st, fs)

-- the second pass, whatever it does
variable (f : (k : Kind) → Node Ann k → Node Ann k)

/-- The statements that both passes leave. -/
def optimised (p : List (Statement Ann)) : List (Statement Ann) :=
  mapStatements f (rewriteStatements hasNoEffect p)

/-- The same with no statement left out. -/
def unoptimised (p : List (Syntax.Statement Ann)) : List (Syntax.Statement Ann) :=
  mapStatements f (rewriteAppends p)

/-- Two functions that differ in the statements that one pass has left out. -/
structure SameClosure (c c' : Closure) : Prop where
  sig_eq : c.sig = c'.sig
  scope_eq : c.scope = c'.scope
  defaults_eq : c.defaults = c'.defaults
  returnType_eq : c.returnType = c'.returnType
  code : c.code = c'.code ∨ ∃ p, (∀ e ∈ literals p, Inert R N (f _ e)) ∧
    c.code = optimised f p ∧ c'.code = unoptimised f p

abbrev SameFunctions : List Closure → List Closure → Prop := List.Forall₂ (SameClosure R N f)

/-- Requests are answered alike. -/
abbrev AnswersAlike (n : ℕ) : Prop :=
  Prog.AnswersAlike (SameFunctions R N f) (answer R N n) (answer R N n)

abbrev Like (n : ℕ) {α : Type} (p q : P H α) : Prop :=
  Prog.Like (SameFunctions R N f) (answer R N n) (answer R N n) Eq p q

variable {R N f} {n : ℕ}

/-- What a loop, a clause and a function do with what their statements do. -/
theorem interpretFor_like (hn : AnswersAlike R N f n) {names : List Bytes} {expr : Exp H}
    {x y : Stm H} (h : ∀ s, Like R N f n (x s) (y s)) (s : ℕ) :
    Like R N f n (interpretFor names expr x s) (interpretFor names expr y s) := by
  refine .bind_refl hn _ fun it => .bind_refl hn _ fun _ => ?_
  refine iterate_like hn (fun _ _ li _ => ?_) it rfl
  refine .bind_refl hn _ fun _ => (h s).bind fun ret _ hret => ?_
  rw [← hret]
  exact (refl hn _).mono fun _ _ h => ⟨congrArg Prod.fst h, congrArg Prod.snd h⟩

section

variable (hn : AnswersAlike R N f n) {x x' y y' : Stm H} (hx : ∀ s, Like R N f n (x s) (x' s))
  (hy : ∀ s, Like R N f n (y s) (y' s)) (s : ℕ)
include hn hx hy

theorem interpretClause_like {condition : Exp H} :
    Like R N f n (interpretClause condition x y s) (interpretClause condition x' y' s) := by
  refine .bind_refl hn _ fun obj => .bind_refl hn _ fun b => ?_
  cases b with
  | true => exact hx s
  | false => exact hy s

theorem andThenStm_like : Like R N f n (andThenStm x y s) (andThenStm x' y' s) := by
  refine (hx s).bind fun ret _ hret => ?_
  rw [← hret]
  cases ret with
  | none => exact hy s
  | some => exact .refl hn _

end

variable {fs' fs : List Closure}

/-- Two functions that are the same, or differ in what was left out, are defined in the same
place. -/
theorem define_alike {c c' : Closure} (hc : SameClosure R N f c c') (st : Store H)
    (h : SameFunctions R N f fs fs') :
    Prog.Alike (SameFunctions R N f) Eq (answer R N n (.define c) (st, fs))
      (answer R N n (.define c') (st, fs')) := by
  rw [answer_define, answer_define]
  exact ⟨.ok h.length_eq, rfl, rel_append h (.cons hc .nil)⟩

theorem define_like {c c' : Closure} (hc : SameClosure R N f c c') :
    Like R N f n (ask (.define c) : P H ℕ) (ask (.define c') : P H ℕ) := by
  intro st fs fs' h
  exact (define_alike hc st h).andThen fun _ _ _ _ _ hab h => ⟨.ok hab, rfl, h⟩

theorem newPyFunc_like (hn : AnswersAlike R N f n) {p : List (Syntax.Statement Ann)}
    (hp : ∀ e ∈ literals p, Inert R N (f _ e)) (s : ℕ) (name : Bytes)
    (arguments : List (Node Ann .argument)) (vals : List (Option (Exp H))) (ret : Bytes) :
    Like R N f n (newPyFunc s name arguments vals (optimised f p) ret)
      (newPyFunc s name arguments vals (unoptimised f p) ret) := by
  refine .bind_refl hn _ fun constants => ?_
  have hc : SameClosure R N f (newClosure s name arguments constants (optimised f p) ret)
      (newClosure s name arguments constants (unoptimised f p) ret) :=
    ⟨rfl, rfl, rfl, rfl, .inr ⟨p, hp, rfl, rfl⟩⟩
  exact (define_like hc).bind_same fun _ => .refl hn _

theorem literal_like {e : Syntax.Expression Ann} (he : Inert R N e) (s : ℕ) :
    Like R N f n (pure none) (interpretBody R N (.literal e) s) := by
  intro st fs fs' hfs
  obtain ⟨obj, hobj⟩ := he n s st fs'
  have hrun : (interpretBody R N (.literal e) s).run (answer R N n) (st, fs') =
      (.ok none, st, fs') := by
    rw [interpretBody, Prog.run_bind, hobj]
    rfl
  rw [hrun]
  exact ⟨.ok rfl, rfl, hfs⟩

theorem mapStatements_append (xs ys : List (Syntax.Statement Ann)) :
    mapStatements f (xs ++ ys) = mapStatements f xs ++ mapStatements f ys := by
  induction xs with
  | nil => rfl
  | cons x xs ih => exact congrArg (walkStatement (m := Id) f x :: ·) ih

theorem mapStatements_singleton (pos endPos : ℕ) (body : Body Ann) :
    mapStatements f [.mk pos endPos body] = [.mk pos endPos (walkBody (m := Id) f body)] := rfl

/-- One statement is changed at most. -/
theorem singleton_like {body body' : Body Ann} {pos endPos : ℕ} {s : ℕ}
    (h : Like R N f n (interpretBody R N (walkBody (m := Id) f body) s)
      (interpretBody R N (walkBody (m := Id) f body') s)) :
    Like R N f n (interpretStatements R N (mapStatements f [.mk pos endPos body]) s)
      (interpretStatements R N (mapStatements f [.mk pos endPos body']) s) := by
  rw [mapStatements_singleton, mapStatements_singleton, interpretStatements_singleton,
    interpretStatements_singleton]
  exact h

mutual

/-- The statements that are left run as all of them do. -/
theorem optimised_like (hn : AnswersAlike R N f n) (p : List (Syntax.Statement Ann))
    (hp : ∀ e ∈ literals p, Inert R N (f _ e)) (s : ℕ) :
    Like R N f n (interpretStatements R N (optimised f p) s)
      (interpretStatements R N (unoptimised f p) s) := by
  cases p with
  | nil => exact .refl hn _
  | cons stmt stmts =>
    rw [literals, forall_mem_append] at hp
    unfold optimised unoptimised rewriteAppends
    rw [rewriteStatements, rewriteStatements, mapStatements_append, mapStatements_append,
      interpretStatements_append, interpretStatements_append]
    exact andThenStm_like hn (rewriteStatement_like hn stmt hp.1) (optimised_like hn stmts hp.2) s

theorem rewriteStatement_like (hn : AnswersAlike R N f n) (stmt : Syntax.Statement Ann)
    (hp : ∀ e ∈ literalsOf stmt, Inert R N (f _ e)) (s : ℕ) :
    Like R N f n
      (interpretStatements R N (mapStatements f (rewriteStatement hasNoEffect stmt)) s)
      (interpretStatements R N (mapStatements f (rewriteStatement (fun _ => false) stmt)) s) := by
  obtain ⟨pos, endPos, body⟩ := stmt
  cases body with
  | funcDef name _ _ _ _ ret =>
    refine singleton_like ?_
    exact (newPyFunc_like hn hp s name _ _ ret).bind_same fun _ => .refl hn _
  | for_ _ _ statements =>
    exact singleton_like (interpretFor_like hn (optimised_like hn statements hp) s)
  | if_ first elif _ _ elseStatements =>
    obtain ⟨hp, helse⟩ := forall_mem_append.mp hp
    obtain ⟨hfirst, helif⟩ := forall_mem_append.mp hp
    refine singleton_like (interpretIf_like hn first hfirst ?_ s)
    exact interpretElif_like hn elif helif (optimised_like hn elseStatements helse)
  | literal expr =>
    have he : Inert R N (f _ expr) := hp expr (mem_singleton.mpr rfl)
    show Like R N f n (pure none)
      (interpretStatements R N (mapStatements f [.mk pos endPos (.literal expr)]) s)
    rw [mapStatements_singleton, interpretStatements_singleton]
    exact literal_like he s
  | pass | return_ values | raise expr | assert expr message | ident i | continue_ | break_ =>
    exact .refl hn _

theorem interpretIf_like (hn : AnswersAlike R N f n) (clause : Clause Ann)
    (hp : ∀ e ∈ clauseLiterals clause, Inert R N (f _ e)) {y y' : Stm H}
    (hy : ∀ s, Like R N f n (y s) (y' s)) (s : ℕ) :
    Like R N f n
      (interpretIf R N (walkClause (m := Id) f (rewriteClause hasNoEffect clause)) y s)
      (interpretIf R N (walkClause (m := Id) f (rewriteClause (fun _ => false) clause)) y' s) := by
  obtain ⟨headerPos, headerEndPos, condition, statements⟩ := clause
  exact interpretClause_like hn (optimised_like hn statements hp) hy s

theorem interpretElif_like (hn : AnswersAlike R N f n) (clauses : List (Clause Ann))
    (hp : ∀ e ∈ clausesLiterals clauses, Inert R N (f _ e)) {y y' : Stm H}
    (hy : ∀ s, Like R N f n (y s) (y' s)) (s : ℕ) :
    Like R N f n
      (interpretElif R N (walkClauses (m := Id) f (rewriteClauses hasNoEffect clauses)) y s)
      (interpretElif R N (walkClauses (m := Id) f
        (rewriteClauses (fun _ => false) clauses)) y' s) := by
  cases clauses with
  | nil => exact hy s
  | cons clause clauses =>
    obtain ⟨hclause, hclauses⟩ := forall_mem_append.mp hp
    exact interpretIf_like hn clause hclause (interpretElif_like hn clauses hclauses hy) s

end

/-! ## Running -/

theorem SameFunctions.getElem? (h : SameFunctions R N f fs fs') (g : ℕ) :
    (fs[g]? = none ∧ fs'[g]? = none) ∨
      ∃ c c', fs[g]? = some c ∧ fs'[g]? = some c' ∧ SameClosure R N f c c' := by
  induction h generalizing g with
  | nil => exact .inl ⟨rfl, rfl⟩
  | cons hc h ih =>
    cases g with
    | zero => exact .inr ⟨_, _, rfl, rfl, hc⟩
    | succ g => exact ih g

section answers

variable (st : Store H) (h : SameFunctions R N f fs fs')

include h

theorem signature_alike (n g : ℕ) :
    Prog.Alike (SameFunctions R N f) Eq (answer R N n (.signature g) (st, fs))
      (answer R N n (.signature g) (st, fs')) := by
  obtain ⟨hg, hg'⟩ | ⟨c, c', hg, hg', hc⟩ := SameFunctions.getElem? h g
  · rw [answer_signature_none R N n st hg, answer_signature_none R N n st hg']
    exact ⟨.error _, rfl, h⟩
  · rw [answer_signature_some R N n st hg, answer_signature_some R N n st hg', hc.sig_eq,
      hc.scope_eq,
      hc.returnType_eq]
    exact ⟨.ok rfl, rfl, h⟩

/-- A default is evaluated, and the statements of a function run, one call deeper. -/
theorem default_alike (hn : AnswersAlike R N f n) (g i s : ℕ) :
    Prog.Alike (SameFunctions R N f) Eq (answer R N (n + 1) (.default g i s) (st, fs))
      (answer R N (n + 1) (.default g i s) (st, fs')) := by
  rw [answer, answer]
  obtain ⟨hg, hg'⟩ | ⟨c, c', hg, hg', hc⟩ := SameFunctions.getElem? h g
  · rw [hg, hg']
    exact ⟨.error _, rfl, h⟩
  · rw [hg, hg', Option.bind_some, Option.bind_some, hc.defaults_eq]
    split
    · exact refl hn _ st fs fs' h
    · exact ⟨.error _, rfl, h⟩

theorem body_alike (hn : AnswersAlike R N f n) (g s : ℕ) :
    Prog.Alike (SameFunctions R N f) Eq (answer R N (n + 1) (.body g s) (st, fs))
      (answer R N (n + 1) (.body g s) (st, fs')) := by
  rw [answer, answer]
  obtain ⟨hg, hg'⟩ | ⟨c, c', hg, hg', hc⟩ := SameFunctions.getElem? h g
  · rw [hg, hg']
    exact ⟨.error _, rfl, h⟩
  · rw [hg, hg']
    obtain hcode | ⟨p, hp, hcode, hcode'⟩ := hc.code
    · simp only [hcode]
      exact refl hn _ st fs fs' h
    · simp only [hcode, hcode']
      exact optimised_like hn p hp s st fs fs' h

end answers

/-- Requests are answered alike, to any depth of calls. -/
theorem answersAlike (n : ℕ) : AnswersAlike R N f n := by
  induction n with
  | zero =>
    intro q st fs fs' h
    cases q with
    | define => exact define_alike ⟨rfl, rfl, rfl, rfl, .inl rfl⟩ st h
    | signature g => exact signature_alike st h 0 g
    | default g i s | body g s | stuck => exact ⟨.diverged, rfl, h⟩
    | fuel => exact ⟨.ok rfl, rfl, h⟩
  | succ n ih =>
    intro q st fs fs' h
    cases q with
    | define => exact define_alike ⟨rfl, rfl, rfl, rfl, .inl rfl⟩ st h
    | signature g => exact signature_alike st h (n + 1) g
    | default g i s => exact default_alike st h ih g i s
    | body g s => exact body_alike st h ih g s
    | fuel => exact ⟨.ok rfl, rfl, h⟩
    | stuck => exact ⟨.diverged, rfl, h⟩

end pass

/-! ## The optimiser -/

section optimise

variable {H : Type} {R : Runtime H} {N : Natives H}

/-- A constant that needs no array is inert. -/
theorem inert_of_plainConstant {e : Syntax.Expression Ann} {obj : Obj}
    (h : plainConstant e = some obj) : Inert R N e := by
  intro n s st fs
  rw [denote_of_plainConstant R N h]
  exact ⟨obj, rfl⟩

/-- The pass that marks joins. -/
abbrev joins (k : Kind) : Node Ann k → Node Ann k := walk (m := Id) markJoin

/-- No second pass. -/
abbrev unchanged (k : Kind) : Node Ann k → Node Ann k := fun x => x

/-- The result of running a program in a scope, and the result of running another there. -/
abbrev RunAlike (R : Runtime H) (N : Natives H) (f : (k : Kind) → Node Ann k → Node Ann k)
    (p q : List (Syntax.Statement Ann)) : Prop :=
  ∀ n s st fs, Prog.Alike (SameFunctions R N f) Eq (runStatements R N n p s (st, fs))
    (runStatements R N n q s (st, fs))

theorem runAlike_of_inert (f : (k : Kind) → Node Ann k → Node Ann k)
    {p : List (Syntax.Statement Ann)}
    (hp : ∀ e ∈ literals p, Inert R N (f _ e)) :
    RunAlike R N f (optimised f p) (unoptimised f p) := by
  intro n s st fs
  have hfs : SameFunctions R N f fs fs := forall₂_same.mpr fun c _ => ⟨rfl, rfl, rfl, rfl, .inl rfl⟩
  exact optimised_like (answersAlike n) p hp s st fs fs hfs

/-- If the expressions that stand as statements are inert, a program does after the pass over
statements what it does with all its statements: it ends the same way, with the same store. Both
have their calls of `append` and `extend` rewritten. The same holds if joins are marked after it, as
the optimiser does. -/
theorem optimise_alike (p : List (Syntax.Statement Ann)) :
    ((∀ e ∈ literals p, Inert R N e) →
      RunAlike R N unchanged (rewriteStatements hasNoEffect p) (rewriteAppends p)) ∧
    ((∀ e ∈ literals p, Inert R N (joins _ e)) →
      RunAlike R N joins (optimise p) (markJoins (rewriteAppends p))) := by
  refine ⟨fun hp => ?_, fun hp => runAlike_of_inert joins hp⟩
  have h := runAlike_of_inert unchanged hp
  have hmap (p : List (Syntax.Statement Ann)) : mapStatements unchanged p = p :=
    mapStatements_unchanged p
  rwa [optimised, unoptimised, hmap, hmap] at h

/-- A function that adds a target to the graph. -/
def addTarget : Native (List Bytes) where
  sig := {
    name := utf8 "target"
    args := [utf8 "name"]
    argIndices := [(utf8 "name", 0)]
    types := [[utf8 "str"]]
    constants := [none]
    hasDefault := [false] }
  defaults := [none]
  code _ objs := do
    match objs with
    | [.str name] => modifyStore fun st => { st with host := st.host ++ [name] }
    | _ => pure ()
    pure .none

/-- A package in which it is all that there is. -/
def emptyPackage : Store (List Bytes) where
  arrays := []
  dicts := []
  configs := []
  scopes := [{
    parent := none
    locals := [(utf8 "target", .func (.native (utf8 "target")))]
    config := .none
    filename := utf8 "BUILD"
    pkg := []
    callback := false }]
  host := []

/-- The targets that a program adds. -/
def targetsOf (p : List (Statement Ann)) : List Bytes :=
  (runStatements (Runtime.bare _) (fun _ => some addTarget) 1 p 0 (emptyPackage, [])).2.1.host

/-- A call in parentheses stands as a literal: the optimiser leaves it out, and its target with
it. -/
theorem parenthesised_call_lost :
    (@parseText Utf8.Unicode.ascii 40 (utf8 "(target('a'))\n")).map
      (fun p => (targetsOf p, targetsOf (optimise p))) = .ok ([utf8 "a"], []) := by
  decide +kernel

/-- A text that describes a file, and a call after it. -/
def documented : List (Syntax.Statement Ann) :=
  [.mk 1 4 (.literal (.expression ⟨1, none⟩ none
      (.valueExpression (.string (utf8 "'A'")) .nil .absent .absent) .nil .absent)),
    .mk 5 16 (.ident (.call (utf8 "target") (.call (.cons (.callArgument none []
      (.expression ⟨12, none⟩ none
        (.valueExpression (.string (utf8 "'a'")) .nil .absent .absent) .nil .absent)) .nil))))]

theorem optimise_alike_documented :
    (∀ e ∈ literals documented, Inert (Runtime.bare _) (fun _ => some addTarget) e) ∧
      targetsOf (rewriteStatements hasNoEffect documented) = targetsOf documented := by
  have hinert : ∀ e ∈ literals documented, Inert (Runtime.bare _) (fun _ => some addTarget) e := by
    intro e he
    obtain rfl := mem_singleton.mp he
    exact inert_of_plainConstant rfl
  refine ⟨hinert, ?_⟩
  exact congrArg Store.host ((optimise_alike documented).1 hinert 1 0 emptyPackage []).2.1

end optimise

end Please.Asp.Interp
