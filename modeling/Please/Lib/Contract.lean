import Please.Lib.Prog

/-!
# Contracts of programs with requests

A contract says which states a program may leave, which requests it may make, and what it can rely
on in the answers. Whether a program meets its contract can be seen from the program alone, whoever
runs it; `Meets` is closed under the ways in which programs are put together.

* `Post`: postconditions in any monad. `Meets` is one way to have them; plain values are another.
* `Meets.always`: if requests within the contract are answered within it, it holds all the time.
-/

namespace Please.Lib

open List

/-! ## Postconditions -/

/-- A way to say what holds of the result of a computation. -/
structure Post (m : Type → Type) [Monad m] [LawfulMonad m] where
  holds : {α : Type} → (α → Prop) → m α → Prop
  pure : ∀ {α : Type} {Q : α → Prop} {a : α}, Q a → holds Q (Pure.pure a)
  bind : ∀ {α β : Type} {Q : α → Prop} {R : β → Prop} {x : m α} {f : α → m β},
    holds Q x → (∀ a, Q a → holds R (f a)) → holds R (x >>= f)

namespace Post

variable {m : Type → Type} [Monad m] [LawfulMonad m] (L : Post m) {α β : Type} {R : β → Prop}
  {f : α → m β}

/-- A plain value. -/
def id : Post Id where
  holds Q x := Q x
  pure h := h
  bind h hf := hf _ h

theorem mapM {xs : List α} (h : ∀ x ∈ xs, L.holds R (f x)) :
    L.holds (fun ys => ∀ y ∈ ys, R y) (xs.mapM f) := by
  induction xs with
  | nil => exact L.pure (forall_mem_nil _)
  | cons x xs ih =>
    rw [mapM_cons]
    refine L.bind (h x mem_cons_self) fun y hy => ?_
    refine L.bind (ih (forall_mem_cons.mp h).2) fun ys hys => ?_
    exact L.pure (forall_mem_cons.mpr ⟨hy, hys⟩)

theorem optionMapM {x : Option α} (h : ∀ a ∈ x, L.holds R (f a)) :
    L.holds (fun y => ∀ b ∈ y, R b) (x.mapM f) := by
  cases x with
  | none => exact L.pure fun b hb => by cases hb
  | some a =>
    rw [Option.mapM_some, map_eq_pure_bind]
    refine L.bind (h a rfl) fun b hb => L.pure ?_
    rintro _ ⟨⟩
    exact hb

end Post

/-- What a program keeps to, and what it can rely on. -/
structure Contract {ι : Type} (Answer : ι → Type) (σ : Type) where
  state : σ → Prop
  asks : ι → Prop
  answers : (q : ι) → Answer q → Prop

namespace Prog

variable {ι : Type} {Answer : ι → Type} {σ τ ε α β : Type}

/-! ## Programs that meet a contract -/

/-- The program keeps to the contract, and its result satisfies `Q`. -/
def Meets (C : Contract Answer σ) (Q : α → Prop) : Prog Answer σ ε α → Prop
  | ret a => Q a
  | fail _ => True
  | get k => ∀ s, C.state s → (k s).Meets C Q
  | put s p => C.state s ∧ p.Meets C Q
  | request q k => C.asks q ∧ ∀ a, C.answers q a → (k a).Meets C Q

section meets

variable {C : Contract Answer σ} {Q : α → Prop} {R : β → Prop} {p : Prog Answer σ ε α}

theorem Meets.pure {a : α} (h : Q a) : (Pure.pure a : Prog Answer σ ε α).Meets C Q := h

theorem Meets.bind (h : p.Meets C Q) {f : α → Prog Answer σ ε β}
    (hf : ∀ a, Q a → (f a).Meets C R) : (p >>= f).Meets C R := by
  induction p with
  | ret a => exact hf a h
  | fail => trivial
  | get k ih => exact fun s hs => ih s (h s hs)
  | put s p ih => exact ⟨h.1, ih h.2⟩
  | request q k ih => exact ⟨h.1, fun a ha => ih a (h.2 a ha)⟩

theorem Meets.mono {Q' : α → Prop} (h : p.Meets C Q) (hQ : ∀ a, Q a → Q' a) : p.Meets C Q' := by
  rw [← bind_pure p]
  exact h.bind fun a ha => Meets.pure (hQ a ha)

theorem Meets.act {f : σ → Except ε (α × σ)}
    (h : ∀ s a s', C.state s → f s = .ok (a, s') → C.state s' ∧ Q a) :
    (Prog.act f : Prog Answer σ ε α).Meets C Q := by
  intro s hs
  dsimp only
  cases hf : f s with
  | error => trivial
  | ok x => exact h s x.1 x.2 hs hf

theorem Meets.ask {q : ι} (h : C.asks q) :
    (Prog.ask q : Prog Answer σ ε (Answer q)).Meets C (C.answers q) :=
  ⟨h, fun _ ha => ha⟩

theorem Meets.foldlM {f : β → α → Prog Answer σ ε β} {xs : List α}
    (h : ∀ x ∈ xs, ∀ b, R b → (f b x).Meets C R) {b : β} (hb : R b) :
    (xs.foldlM f b).Meets C R := by
  induction xs generalizing b with
  | nil => exact hb
  | cons x xs ih =>
    exact (h x mem_cons_self b hb).bind fun b hb =>
      ih (forall_mem_cons.mp h).2 hb

theorem Meets.forM {f : α → Prog Answer σ ε PUnit} {xs : List α}
    (h : ∀ x ∈ xs, (f x).Meets C fun _ => True) : (xs.forM f).Meets C fun _ => True := by
  induction xs with
  | nil => trivial
  | cons x xs ih =>
    exact (h x mem_cons_self).bind fun _ _ => ih (forall_mem_cons.mp h).2

/-- The results of programs that meet a contract. -/
def post (C : Contract Answer σ) : Post (Prog Answer σ ε) where
  holds Q p := p.Meets C Q
  pure h := h
  bind h hf := .bind h hf

end meets

/-! ## Runs -/

/-- Every state that the run comes to satisfies `I`, every answer satisfies `G`, and `inside` holds
whenever a request is made. -/
def Always (I : σ × τ → Prop) (G : (q : ι) → Answer q → Prop) (answer : Handler Answer σ τ ε)
    (inside : (q : ι) → σ × τ → Prop) : Prog Answer σ ε α → σ × τ → Prop
  | ret _, s => I s
  | fail _, s => I s
  | get k, s => (k s.1).Always I G answer inside s
  | put s' p, s => I (s', s.2) ∧ p.Always I G answer inside (s', s.2)
  | request q k, s =>
    I s ∧ inside q s ∧ I (answer q s).2 ∧
      ∀ a s', answer q s = (.ok a, s') → G q a ∧ (k a).Always I G answer inside s'

/-- Requests within the contract are answered within it: the hidden state satisfies `J` before and
after, and `inside` holds. -/
def Fulfils (C : Contract Answer σ) (J : τ → Prop) (answer : Handler Answer σ τ ε)
    (inside : (q : ι) → σ × τ → Prop) : Prop :=
  ∀ q s, C.asks q → C.state s.1 → J s.2 → inside q s ∧ C.state (answer q s).2.1 ∧
    J (answer q s).2.2 ∧ ∀ a, (answer q s).1 = .ok a → C.answers q a

section always

variable {C : Contract Answer σ} {J : τ → Prop} {answer : Handler Answer σ τ ε}
  {inside : (q : ι) → σ × τ → Prop} {I : σ × τ → Prop} {G : (q : ι) → Answer q → Prop}
  {Q : α → Prop} {p : Prog Answer σ ε α} {s : σ × τ}

/-- How a run ends. -/
theorem Meets.run (h : p.Meets C Q) (hanswer : Fulfils C J answer inside) (hs : C.state s.1)
    (hJ : J s.2) : C.state (p.run answer s).2.1 ∧ J (p.run answer s).2.2 ∧
      ∀ a, (p.run answer s).1 = .ok a → Q a := by
  induction p generalizing s with
  | ret =>
    refine ⟨hs, hJ, fun b hb => ?_⟩
    rw [← Outcome.ok.inj hb]
    exact h
  | fail => exact ⟨hs, hJ, fun b hb => by cases hb⟩
  | get k ih => exact ih s.1 (h s.1 hs) hs hJ
  | put s' p ih => exact ih h.2 h.1 hJ
  | request q k ih =>
    obtain ⟨-, hs', hJ', hans⟩ := hanswer q s h.1 hs hJ
    rw [Prog.run]
    cases hq : answer q s with
    | mk o =>
      rw [hq] at hs' hJ' hans
      cases o with
      | ok a => exact ih a (h.2 a (hans a rfl)) hs' hJ'
      | error e | diverged => exact ⟨hs', hJ', fun b hb => by cases hb⟩

/-- What the contract says holds at all times of a run. -/
theorem Meets.always (h : p.Meets C Q) (hanswer : Fulfils C J answer inside)
    (hI : ∀ s, C.state s.1 → J s.2 → I s) (hG : ∀ q a, C.answers q a → G q a)
    (hs : C.state s.1) (hJ : J s.2) : p.Always I G answer inside s := by
  induction p generalizing s with
  | ret a | fail e => exact hI s hs hJ
  | get k ih => exact ih s.1 (h s.1 hs) hs hJ
  | put s' p ih => exact ⟨hI _ h.1 hJ, ih h.2 h.1 hJ⟩
  | request q k ih =>
    obtain ⟨hin, hs', hJ', hans⟩ := hanswer q s h.1 hs hJ
    refine ⟨hI s hs hJ, hin, hI _ hs' hJ', fun a s' hq => ?_⟩
    rw [hq] at hs' hJ' hans
    exact ⟨hG q a (hans a rfl), ih a (h.2 a (hans a rfl)) hs' hJ'⟩

end always

/-! ## Nothing to keep to -/

/-- The contract without conditions. -/
def free (Answer : ι → Type) (σ : Type) : Contract Answer σ where
  state _ := True
  asks _ := True
  answers _ _ := True

theorem meets_free (p : Prog Answer σ ε α) : p.Meets (free Answer σ) fun _ => True := by
  induction p with
  | ret a | fail e => trivial
  | get k ih => exact fun s _ => ih s
  | put s p ih => exact ⟨trivial, ih⟩
  | request q k ih => exact ⟨trivial, fun a _ => ih a⟩

/-- Whoever answers, the result is what the program says. -/
theorem Meets.result {Q : α → Prop} {p : Prog Answer σ ε α} (h : p.Meets (free Answer σ) Q)
    (answer : Handler Answer σ τ ε) (s : σ × τ) {a : α} (ha : (p.run answer s).1 = .ok a) :
    Q a := by
  have hanswer : Fulfils (free Answer σ) (fun _ : τ => True) answer fun _ _ => True :=
    fun _ _ _ _ _ => ⟨trivial, trivial, trivial, fun _ _ => trivial⟩
  exact (h.run hanswer (s := s) trivial trivial).2.2 a ha

end Prog

end Please.Lib
