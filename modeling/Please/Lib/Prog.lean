import Mathlib.Data.List.Basic

/-!
# Programs with requests

A program reads and writes a state `σ`, may fail, and may make requests `q : ι`, whose answers have
the type `Answer q`. What a request does is up to who runs the program; it may work on more than the
state that the program sees, and it may run other programs. So a recursive interpreter is written
as a program whose recursive calls are requests, and is run with as many nested ones as allowed.

* `Like`: two programs run alike, with related results.
-/

namespace Please.Lib

/-- A program with a result in `α`. -/
inductive Prog {ι : Type} (Answer : ι → Type) (σ ε : Type) (α : Type) : Type
  | ret (a : α)
  | fail (e : ε)
  | get (k : σ → Prog Answer σ ε α)
  | put (s : σ) (p : Prog Answer σ ε α)
  | request (q : ι) (k : Answer q → Prog Answer σ ε α)

namespace Prog

variable {ι : Type} {Answer : ι → Type} {σ ε α β : Type}

protected def bind : Prog Answer σ ε α → (α → Prog Answer σ ε β) → Prog Answer σ ε β
  | ret a, f => f a
  | fail e, _ => fail e
  | get k, f => get fun s => (k s).bind f
  | put s p, f => put s (p.bind f)
  | request q k, f => request q fun a => (k a).bind f

instance : Monad (Prog Answer σ ε) where
  pure := ret
  bind := Prog.bind

instance : LawfulMonad (Prog Answer σ ε) := by
  refine LawfulMonad.mk' _ (fun x => ?_) (fun _ _ => rfl) fun x f g => ?_
  all_goals
    induction x with
    | ret => rfl
    | fail => rfl
    | get k ih => exact congrArg get (funext ih)
    | put s p ih => exact congrArg (put s) ih
    | request q k ih => exact congrArg (request q) (funext ih)

/-- A computation on the state that may fail. -/
def act (f : σ → Except ε (α × σ)) : Prog Answer σ ε α :=
  get fun s => match f s with
    | .ok (a, s') => put s' (ret a)
    | .error e => fail e

/-- A request for its answer. -/
def ask (q : ι) : Prog Answer σ ε (Answer q) := request q ret

/-! ## Running -/

/-- How a program ends, if it does. -/
inductive Outcome (ε α : Type)
  | ok (a : α)
  | error (e : ε)
  | diverged
  deriving DecidableEq

/-- The end of a computation that makes no requests. -/
def Outcome.ofExcept : Except ε α → Outcome ε α
  | .ok a => .ok a
  | .error e => .error e

/-- How requests are answered. The state has a part `τ` that programs do not see. -/
abbrev Handler {ι : Type} (Answer : ι → Type) (σ τ ε : Type) :=
  (q : ι) → σ × τ → Outcome ε (Answer q) × σ × τ

variable {τ : Type}

/-- Go on with the result, if there is one. -/
def andThen (x : Outcome ε α × σ × τ) (f : α → σ × τ → Outcome ε β × σ × τ) : Outcome ε β × σ × τ :=
  match x with
  | (.ok a, s) => f a s
  | (.error e, s) => (.error e, s)
  | (.diverged, s) => (.diverged, s)

/-- Run a program: how it ends, and the state then. -/
def run (answer : Handler Answer σ τ ε) : Prog Answer σ ε α → σ × τ → Outcome ε α × σ × τ
  | ret a, s => (.ok a, s)
  | fail e, s => (.error e, s)
  | get k, s => (k s.1).run answer s
  | put s' p, s => p.run answer (s', s.2)
  | request q k, s => andThen (answer q s) fun a s' => (k a).run answer s'

variable {γ : Type}

theorem andThen_assoc (x : Outcome ε α × σ × τ) (f : α → σ × τ → Outcome ε β × σ × τ)
    (g : β → σ × τ → Outcome ε γ × σ × τ) :
    andThen (andThen x f) g = andThen x fun a s => andThen (f a s) g := by
  obtain ⟨_ | _ | _, s⟩ := x <;> rfl

theorem run_bind (answer : Handler Answer σ τ ε) (p : Prog Answer σ ε α)
    (f : α → Prog Answer σ ε β) (s : σ × τ) :
    (p >>= f).run answer s = andThen (p.run answer s) fun a => (f a).run answer := by
  induction p generalizing s with
  | ret => rfl
  | fail => rfl
  | get k ih => exact ih s.1 s
  | put s' p ih => exact ih (s', s.2)
  | request q k ih =>
    show andThen (answer q s) (fun a => ((k a) >>= f).run answer) =
      andThen (andThen (answer q s) fun a => (k a).run answer) fun a => (f a).run answer
    rw [andThen_assoc]
    exact congrArg (andThen _) (funext fun a => funext (ih a))

variable {p : Prog Answer σ ε α}

variable {answer : Handler Answer σ τ ε}

section

variable (answer : Handler Answer σ τ ε) {f : σ → Except ε (α × σ)} {s : σ × τ}

theorem run_act_of_ok {a : α} {s' : σ} (h : f s.1 = .ok (a, s')) :
    (act f).run answer s = (.ok a, s', s.2) := by
  simp only [act, run, h]

theorem run_act_of_error {e : ε} (h : f s.1 = .error e) : (act f).run answer s = (.error e, s) := by
  simp only [act, run, h]

end

/-! ## Programs that run alike -/

/-- Two programs end the same way, with results that are related. -/
inductive Outcome.Rel {β : Type} (V : α → β → Prop) : Outcome ε α → Outcome ε β → Prop
  | ok {a : α} {b : β} (h : V a b) : Rel V (.ok a) (.ok b)
  | error (e : ε) : Rel V (.error e) (.error e)
  | diverged : Rel V .diverged .diverged

theorem Outcome.Rel.refl (x : Outcome ε α) : Outcome.Rel Eq x x := by
  cases x with
  | ok => exact .ok rfl
  | error e => exact .error e
  | diverged => exact .diverged

variable {V : α → β → Prop}

theorem Outcome.Rel.mono {W : α → β → Prop} {x : Outcome ε α} {y : Outcome ε β}
    (h : Outcome.Rel V x y) (hVW : ∀ a b, V a b → W a b) : Outcome.Rel W x y := by
  cases h with
  | ok hab => exact .ok (hVW _ _ hab)
  | error e => exact .error e
  | diverged => exact .diverged

/-- Two runs end alike: the same way and in the same visible state, with hidden states that are
related. -/
def Alike (R : τ → τ → Prop) (V : α → β → Prop) (x : Outcome ε α × σ × τ)
    (y : Outcome ε β × σ × τ) :
    Prop :=
  Outcome.Rel V x.1 y.1 ∧ x.2.1 = y.2.1 ∧ R x.2.2 y.2.2

/-- Requests are answered alike. -/
def AnswersAlike (R : τ → τ → Prop) (answer answer' : Handler Answer σ τ ε) : Prop :=
  ∀ q s t t', R t t' → Alike R Eq (answer q (s, t)) (answer' q (s, t'))

/-- Two programs run alike from the same visible state and related hidden states. -/
def Like (R : τ → τ → Prop) (answer answer' : Handler Answer σ τ ε) (V : α → β → Prop)
    (p : Prog Answer σ ε α) (q : Prog Answer σ ε β) : Prop :=
  ∀ s t t', R t t' → Alike R V (p.run answer (s, t)) (q.run answer' (s, t'))

variable {R : τ → τ → Prop} {answer answer' : Handler Answer σ τ ε}

section

variable {δ : Type} {W : γ → δ → Prop} {f : α → σ × τ → Outcome ε γ × σ × τ}

theorem Alike.andThen {x : Outcome ε α × σ × τ} {y : Outcome ε β × σ × τ} (h : Alike R V x y)
    {g : β → σ × τ → Outcome ε δ × σ × τ}
    (hfg : ∀ a b s t t', V a b → R t t' → Alike R W (f a (s, t)) (g b (s, t'))) :
    Alike R W (Prog.andThen x f) (Prog.andThen y g) := by
  obtain ⟨o, s, t⟩ := x
  obtain ⟨o', s', t'⟩ := y
  obtain ⟨ho, rfl, ht⟩ : Outcome.Rel V o o' ∧ s = s' ∧ R t t' := h
  cases ho with
  | ok hab => exact hfg _ _ s t t' hab ht
  | error e => exact ⟨.error e, rfl, ht⟩
  | diverged => exact ⟨.diverged, rfl, ht⟩

theorem Alike.andThen_same (x : Outcome ε α × σ × τ) {g : α → σ × τ → Outcome ε δ × σ × τ}
    (hfg : ∀ a s, x = (.ok a, s) → Alike Eq W (f a s) (g a s)) :
    Alike Eq W (Prog.andThen x f) (Prog.andThen x g) := by
  obtain ⟨o, s⟩ := x
  cases o with
  | ok a => exact hfg a s rfl
  | error e => exact ⟨.error e, rfl, rfl⟩
  | diverged => exact ⟨.diverged, rfl, rfl⟩

end

variable {q : Prog Answer σ ε β}

theorem Like.mono {W : α → β → Prop} (h : Like R answer answer' V p q)
    (hVW : ∀ a b, V a b → W a b) : Like R answer answer' W p q := by
  intro s t t' ht
  obtain ⟨ho, hs⟩ := h s t t' ht
  exact ⟨ho.mono hVW, hs⟩

theorem Like.pure {a : α} {b : β} (h : V a b) : Like R answer answer' V (ret a) (ret b) :=
  fun _ _ _ ht => ⟨.ok h, rfl, ht⟩

theorem answersAlike_refl (answer : Handler Answer σ τ ε) : AnswersAlike Eq answer answer := by
  rintro q s t _ rfl
  exact ⟨.refl _, rfl, rfl⟩

/-- If requests are answered alike, a program runs alike. -/
theorem Like.refl (hanswer : AnswersAlike R answer answer') (p : Prog Answer σ ε α) :
    Like R answer answer' Eq p p := by
  intro s t t' ht
  induction p generalizing s t t' with
  | ret => exact ⟨.ok rfl, rfl, ht⟩
  | fail e => exact ⟨.error e, rfl, ht⟩
  | get k ih => exact ih s s t t' ht
  | put s' p ih => exact ih s' t t' ht
  | request q k ih =>
    refine (hanswer q s t t' ht).andThen fun a b s t t' hab ht => ?_
    rw [← hab]
    exact ih a s t t' ht

variable {f : α → Prog Answer σ ε γ}

theorem Like.bind {δ : Type} {W : γ → δ → Prop}
    (hpq : Like R answer answer' V p q) {g : β → Prog Answer σ ε δ}
    (hfg : ∀ a b, V a b → Like R answer answer' W (f a) (g b)) :
    Like R answer answer' W (p >>= f) (q >>= g) := by
  intro s t t' ht
  rw [run_bind, run_bind]
  exact (hpq s t t' ht).andThen fun a b s t t' hab ht => hfg a b hab s t t' ht

theorem Like.map_left {W : γ → β → Prop} (hpq : Like R answer answer' V p q)
    {f : α → γ} (hf : ∀ a b, V a b → W (f a) b) :
    Like R answer answer' W (p >>= fun a => ret (f a)) q := by
  have h : Like R answer answer' W (p >>= fun a => ret (f a)) (q >>= Pure.pure) :=
    hpq.bind fun a b hab => .pure (hf a b hab)
  rwa [bind_pure] at h

variable {δ : Type} {W : γ → δ → Prop} {g : α → Prog Answer σ ε δ}

theorem Like.bind_same {q : Prog Answer σ ε α} (hpq : Like R answer answer' Eq p q)
    (hfg : ∀ a, Like R answer answer' W (f a) (g a)) :
    Like R answer answer' W (p >>= f) (q >>= g) :=
  hpq.bind fun a _ hab => hab ▸ hfg a

theorem Like.bind_refl (hanswer : AnswersAlike R answer answer') (p : Prog Answer σ ε α)
    (hfg : ∀ a, Like R answer answer' W (f a) (g a)) :
    Like R answer answer' W (p >>= f) (p >>= g) :=
  (Like.refl hanswer p).bind_same hfg

end Prog

end Please.Lib
