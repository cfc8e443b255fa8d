import Mathlib.Logic.Relation

/-!
# Transition systems

A system is a set of initial states and a step function: given a state and an
event it returns the next state, or `none` when the event is not enabled
there. Every interleaving of concurrent clients is a sequence of events.

* `System.invariant`: a predicate that holds initially and is kept by every
  step holds in every reachable state.
* `System.Run.stable`: a predicate that every step from a reachable state
  keeps is kept along every run.
-/

namespace Please.Lib

/-- A transition system with states `σ` and events `ε`. -/
structure System (σ ε : Type*) where
  init : σ → Prop
  step : σ → ε → Option σ

namespace System

variable {σ ε : Type*} (S : System σ ε)

/-- The states reached from an initial state by a sequence of enabled events. -/
inductive Reachable : σ → Prop
  | init {s : σ} : S.init s → Reachable s
  | step {s s' : σ} {e : ε} : Reachable s → S.step s e = some s' → Reachable s'

/-- The state after a list of events, `none` if one of them is not enabled. -/
def exec (s : σ) : List ε → Option σ
  | [] => some s
  | e :: es => (S.step s e).bind fun s' => exec s' es

/-- `s'` is reached from `s` by a sequence of events. -/
def Run (s s' : σ) : Prop := Relation.ReflTransGen (fun a b => ∃ e, S.step a e = some b) s s'

variable {S}

theorem invariant {P : σ → Prop} (h0 : ∀ s, S.init s → P s)
    (hstep : ∀ s e s', S.Reachable s → P s → S.step s e = some s' → P s') :
    ∀ s, S.Reachable s → P s := by
  intro s hs
  induction hs with
  | init h => exact h0 _ h
  | step hr h ih => exact hstep _ _ _ hr ih h

theorem Reachable.run {s s' : σ} (hs : S.Reachable s) (h : S.Run s s') : S.Reachable s' := by
  induction h with
  | refl => exact hs
  | tail _ h ih => obtain ⟨e, he⟩ := h; exact ih.step he

theorem Run.of_exec {s s' : σ} : ∀ {es : List ε}, S.exec s es = some s' → S.Run s s' := by
  intro es
  induction es generalizing s with
  | nil => intro h; cases h; exact .refl
  | cons e es ih =>
    intro h
    obtain ⟨t, ht, h⟩ := Option.bind_eq_some_iff.mp h
    exact .head ⟨e, ht⟩ (ih h)

theorem Reachable.exec {s s' : σ} (hs : S.Reachable s) {es : List ε}
    (h : S.exec s es = some s') : S.Reachable s' :=
  hs.run (.of_exec h)

theorem Run.stable {P : σ → Prop}
    (hstep : ∀ s e s', S.Reachable s → P s → S.step s e = some s' → P s') {s s' : σ}
    (hs : S.Reachable s) (h : S.Run s s') (hP : P s) : P s' := by
  induction h with
  | refl => exact hP
  | tail hr h ih => obtain ⟨e, he⟩ := h; exact hstep _ _ _ (hs.run hr) ih he

end System

end Please.Lib
