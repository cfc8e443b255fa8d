import Mathlib.Data.List.Chain
import Mathlib.Data.Set.Insert

/-!
# Cycles of a relation

* `IsCycle`: a list of distinct points in which each is related to the next and
  the last to the first.
* `Finished`: a set that nothing leads out of and that contains no cycle.
-/

namespace Please.Lib

open List Relation

variable {α : Type*} {r : α → α → Prop}

/-- `[c₀, …, cₙ]` without repetitions, with `cᵢ → cᵢ₊₁` and `cₙ → c₀`. -/
structure IsCycle (r : α → α → Prop) (cycle : List α) : Prop where
  ne_nil : cycle ≠ []
  nodup : cycle.Nodup
  chain : cycle.IsChain r
  closes : r (cycle.getLast ne_nil) (cycle.head ne_nil)

/-- A point that leads back to itself. -/
def OnCycle (r : α → α → Prop) (a : α) : Prop := TransGen r a a

/-- A cycle leads from its first point back to it. -/
theorem IsCycle.onCycle {cycle : List α}
    (h : IsCycle r cycle) : OnCycle r (cycle.head h.ne_nil) := by
  obtain ⟨hne, _, hchain, hcloses⟩ := h
  obtain ⟨a, l, rfl⟩ := exists_cons_of_ne_nil hne
  exact .tail' (relationReflTransGen_of_exists_isChain_cons l hchain rfl) hcloses

theorem exists_pred_of_isChain {a b : α} {l : List α} (h : (a :: l).IsChain r) (hb : b ∈ l) :
    ∃ c ∈ a :: l, r c b := by
  induction l generalizing a with
  | nil => exact absurd hb not_mem_nil
  | cons d l ih =>
    obtain ⟨had, hl⟩ := isChain_cons_cons.mp h
    rcases mem_cons.mp hb with rfl | hb
    · exact ⟨a, mem_cons_self, had⟩
    · obtain ⟨c, hc, hcb⟩ := ih hl hb
      exact ⟨c, mem_cons_of_mem _ hc, hcb⟩

/-- Something on the cycle leads to every point of it. -/
theorem IsCycle.exists_pred {cycle : List α} (h : IsCycle r cycle) {b : α} (hb : b ∈ cycle) :
    ∃ a ∈ cycle, r a b := by
  obtain ⟨hne, _, hchain, hcloses⟩ := h
  obtain ⟨a, l, rfl⟩ := exists_cons_of_ne_nil hne
  rcases mem_cons.mp hb with rfl | hb
  · exact ⟨_, getLast_mem hne, hcloses⟩
  · exact exists_pred_of_isChain hchain hb

/-- Nothing leads out of the set, and no point of it is on a cycle. -/
structure Finished (r : α → α → Prop) (S : Set α) : Prop where
  closed : ∀ a ∈ S, ∀ b, r a b → b ∈ S
  acyclic : ∀ a ∈ S, ¬ OnCycle r a

theorem finished_empty : Finished r ∅ :=
  ⟨fun _ h => absurd h (Set.notMem_empty _), fun _ h => absurd h (Set.notMem_empty _)⟩

theorem Finished.mem_of_transGen {S : Set α} (h : Finished r S) {a b : α} (ha : a ∈ S)
    (hab : TransGen r a b) : b ∈ S := by
  induction hab with
  | single hab => exact h.closed _ ha _ hab
  | tail _ hbc ih => exact h.closed _ ih _ hbc

/-- A point outside the set all of whose successors are inside can be added. -/
theorem Finished.insert {S : Set α} (h : Finished r S) {a : α} (ha : a ∉ S)
    (hsucc : ∀ b, r a b → b ∈ S) : Finished r (Insert.insert a S) where
  closed := by
    rintro b (rfl | hb) c hbc
    · exact .inr (hsucc c hbc)
    · exact .inr (h.closed b hb c hbc)
  acyclic := by
    rintro b (rfl | hb) hcyc
    · -- a way back to the new point would have to leave the set
      obtain ⟨c, hbc, hcb⟩ := TransGen.head'_iff.mp hcyc
      rcases reflTransGen_iff_eq_or_transGen.mp hcb with hcb | hcb
      · exact ha (hcb ▸ hsucc c hbc)
      · exact ha (h.mem_of_transGen (hsucc c hbc) hcb)
    · exact h.acyclic b hb hcyc

end Please.Lib
