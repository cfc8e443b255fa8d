import Mathlib.Data.List.Basic
import Mathlib.Algebra.Group.Nat.Defs

/-!
# Traced computations

A computation that performs actions one after the other and ends with a value
or an error. Sequencing appends the actions and stops at the first error, so a
program with early error returns is written as a `do` block, and how often it
performs an action is read off with `count_bind` and the other `count` lemmas.
Two computations are compared by the actions they keep, with `kept_bind_congr`.
What holds of the value, given what holds of the actions, goes through sequences
with `Ensures.bind`.
-/

namespace Please.Lib

/-- The actions a computation has performed and how it ended. -/
structure Traced (ε err α : Type) where
  actions : List ε
  result : Except err α

namespace Traced

variable {ε err α β : Type}

instance : Monad (Traced ε err) where
  pure a := ⟨[], .ok a⟩
  bind x f :=
    match x.result with
    | .ok a => ⟨x.actions ++ (f a).actions, (f a).result⟩
    | .error e => ⟨x.actions, .error e⟩

/-- Perform one action with the given outcome. -/
def perform (a : ε) (r : Except err α) : Traced ε err α := ⟨[a], r⟩

/-- Run `x` if the condition holds. -/
def when (c : Bool) (x : Traced ε err Unit) : Traced ε err Unit := if c then x else pure ()

/-- Go on after an error that `p` accepts. -/
def ignoring (p : err → Bool) (x : Traced ε err Unit) : Traced ε err Unit :=
  ⟨x.actions, match x.result with
    | .ok () => .ok ()
    | .error e => if p e then .ok () else .error e⟩

@[simp] theorem result_pure (a : α) : (pure a : Traced ε err α).result = .ok a := rfl

@[simp] theorem result_perform (a : ε) (r : Except err α) : (perform a r).result = r := rfl

variable {f : α → Traced ε err β} {x : Traced ε err α}

theorem bind_ok {a : α} (h : x.result = .ok a) :
    x >>= f = ⟨x.actions ++ (f a).actions, (f a).result⟩ := by
  show (match x.result with | .ok a => _ | .error e => _) = _
  rw [h]

theorem bind_error {e : err} (h : x.result = .error e) : x >>= f = ⟨x.actions, .error e⟩ := by
  show (match x.result with | .ok a => _ | .error e => _) = _
  rw [h]

/-- A sequence succeeds exactly if both parts do. -/
theorem result_bind_eq_ok {b : β} :
    (x >>= f).result = .ok b ↔ ∃ a, x.result = .ok a ∧ (f a).result = .ok b := by
  cases h : x.result with
  | ok a =>
    rw [bind_ok h]
    constructor
    · intro hb; exact ⟨a, rfl, hb⟩
    · rintro ⟨a', ha, hb⟩; cases ha; exact hb
  | error =>
    rw [bind_error h]
    constructor
    · intro hb; cases hb
    · rintro ⟨a', ha, _⟩; cases ha

theorem result_when_eq_ok {c : Bool} {x : Traced ε err Unit} :
    (when c x).result = .ok () ↔ (c = true → x.result = .ok ()) := by
  cases c
  · exact iff_of_true rfl nofun
  · simp [when]

theorem result_ignoring_eq_ok {p : err → Bool} {x : Traced ε err Unit} :
    (x.ignoring p).result = .ok () ↔ ∀ e, x.result = .error e → p e = true := by
  unfold ignoring
  cases hx : x.result with
  | ok => exact iff_of_true rfl nofun
  | error e => by_cases hp : p e = true <;> simp [hp]

section Count

variable (p : ε → Bool)

/-- How many of the performed actions satisfy `p`. -/
def count (x : Traced ε err α) : ℕ := x.actions.countP p

@[simp] theorem count_perform (a : ε) (r : Except err α) :
    (perform a r).count p = if p a then 1 else 0 := by
  simp [count, perform, List.countP_cons]

variable {f : α → Traced ε err β} {x : Traced ε err α}

theorem count_bind_ok {a : α} (h : x.result = .ok a) :
    (x >>= f).count p = x.count p + (f a).count p := by
  rw [bind_ok h]; exact List.countP_append ..

/-- What follows counts only if the first part succeeds. -/
theorem count_bind (x : Traced ε err α) (f : α → Traced ε err β) :
    (x >>= f).count p = x.count p + match x.result with
      | .ok a => (f a).count p
      | .error _ => 0 := by
  cases h : x.result with
  | ok => rw [count_bind_ok p h]
  | error => rw [bind_error h]; rfl

/-- An action that is not counted matters only by its outcome. -/
theorem count_perform_bind {a : ε} (ha : p a = false) (r : Except err α) (f : α → Traced ε err β) :
    (perform a r >>= f).count p = match r with
      | .ok x => (f x).count p
      | .error _ => 0 := by
  rw [count_bind, count_perform, ha, result_perform]
  exact Nat.zero_add _

theorem count_bind_left (hf : ∀ a, (f a).count p = 0) : (x >>= f).count p = x.count p := by
  rw [count_bind]
  split
  · rw [hf, Nat.add_zero]
  · rfl

theorem count_bind_eq_zero (hx : x.count p = 0) (hf : ∀ a, (f a).count p = 0) :
    (x >>= f).count p = 0 :=
  (count_bind_left p hf).trans hx

@[simp] theorem count_when (c : Bool) (x : Traced ε err Unit) :
    (when c x).count p = if c then x.count p else 0 := by
  cases c <;> rfl

end Count

section Kept

variable (p : ε → Bool)

/-- The performed actions that satisfy `p`, in order. -/
def kept (x : Traced ε err α) : List ε := x.actions.filter p

variable {g : α → Traced ε err β}

/-- Two sequences keep the same actions if their first parts do and end in the same way,
and what follows keeps the same. -/
theorem kept_bind_congr {x y : Traced ε err α}
    (hkept : x.kept p = y.kept p) (hresult : x.result = y.result)
    (h : ∀ a, y.result = .ok a → (f a).kept p = (g a).kept p) :
    (x >>= f).kept p = (y >>= g).kept p := by
  unfold kept at hkept h ⊢
  cases hy : y.result with
  | ok a => rw [bind_ok (hresult.trans hy), bind_ok hy, List.filter_append, List.filter_append,
      hkept, h a hy]
  | error => rw [bind_error (hresult.trans hy), bind_error hy, hkept]

theorem kept_bind_right (x : Traced ε err α)
    (h : ∀ a, x.result = .ok a → (f a).kept p = (g a).kept p) :
    (x >>= f).kept p = (x >>= g).kept p :=
  kept_bind_congr p rfl rfl h

theorem kept_ite_congr (c : Prop) [Decidable c] {x y x' y' : Traced ε err α}
    (hpos : c → x.kept p = x'.kept p) (hneg : ¬ c → y.kept p = y'.kept p) :
    (if c then x else y).kept p = (if c then x' else y').kept p := by
  by_cases hc : c
  · rw [if_pos hc, if_pos hc]
    exact hpos hc
  · rw [if_neg hc, if_neg hc]
    exact hneg hc

end Kept

section Ensures

variable {p : ε → Prop}

/-- If every performed action satisfies `p` and there is a value, it satisfies `Q`. -/
def Ensures (p : ε → Prop) (x : Traced ε err α) (Q : α → Prop) : Prop :=
  (∀ e ∈ x.actions, p e) → ∀ a, x.result = .ok a → Q a

variable {Q : α → Prop}

theorem Ensures.mono {x : Traced ε err α} {R : α → Prop} (h : Ensures p x Q)
    (hQR : ∀ a, Q a → R a) :
    Ensures p x R :=
  fun hp a ha => hQR a (h hp a ha)

theorem ensures_pure {a : α} (h : Q a) : Ensures p (pure a : Traced ε err α) Q := by
  rintro - b hb
  cases hb
  exact h

/-- A computation that performs nothing. -/
theorem ensures_mk_nil {r : Except err α} (h : ∀ a, r = .ok a → Q a) :
    Ensures p (⟨[], r⟩ : Traced ε err α) Q :=
  fun _ a ha => h a ha

theorem ensures_perform {e : ε} {r : Except err α} (h : p e → ∀ a, r = .ok a → Q a) :
    Ensures p (perform e r) Q :=
  fun hp a ha => h (hp e (List.mem_singleton.mpr rfl)) a ha

theorem Ensures.bind {x : Traced ε err α} {R : β → Prop} (hx : Ensures p x Q)
    (hf : ∀ a, Q a → Ensures p (f a) R) :
    Ensures p (x >>= f) R := by
  intro hp b hb
  obtain ⟨a, ha, hb⟩ := result_bind_eq_ok.mp hb
  rw [bind_ok ha] at hp
  have hxp : ∀ e ∈ x.actions, p e := (List.forall_mem_append.mp hp).1
  exact hf a (hx hxp a ha) (List.forall_mem_append.mp hp).2 b hb

end Ensures

end Traced

end Please.Lib
