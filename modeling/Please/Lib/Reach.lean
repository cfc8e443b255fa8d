import Mathlib.Data.Finset.Card

/-!
# Marking what can be reached

Depth-first marking: a point that is not marked yet is marked, then its successors are visited
one after the other. The depth of the calls is bounded; a bound as large as a finite set that no
edge leaves is never reached.

* `marks_visitAll`: what a list of visits does to the marks.
-/

namespace Please.Lib.Reach

open List

section closed

variable {α : Type*} (succ : α → List α)

/-- `b` is a successor of `a`. -/
def Edge (a b : α) : Prop := b ∈ succ a

/-- `b` can be reached from `a`. -/
abbrev Reaches : α → α → Prop := Relation.ReflTransGen (Edge succ)

/-- No edge leaves the set. -/
def Closed (s : Set α) : Prop := ∀ a ∈ s, ∀ b ∈ succ a, b ∈ s

variable {succ}

theorem Closed.mem_of_reaches {s : Set α} (h : Closed succ s) {a b : α} (ha : a ∈ s)
    (hab : Reaches succ a b) : b ∈ s := by
  induction hab with
  | refl => exact ha
  | tail _ hbc ih => exact h _ ih _ hbc

end closed

variable {α : Type*} [DecidableEq α] (succ : α → List α)

/-- Mark `a` and what it leads to, with calls nested at most `n` deep. -/
def visit : ℕ → List α → α → List α
  | 0, marked, _ => marked
  | n + 1, marked, a => if a ∈ marked then marked else (succ a).foldl (visit n) (a :: marked)

/-- Mark a list of points and what they lead to. -/
def visitAll (n : ℕ) (marked as : List α) : List α := as.foldl (visit succ n) marked

/-- What visits of the points `as` do to the marks. -/
structure Marks (as marked marked' : List α) : Prop where
  kept : ∀ b ∈ marked, b ∈ marked'
  new : ∀ b ∈ marked', b ∈ marked ∨ ∃ a ∈ as, Reaches succ a b
  start : ∀ a ∈ as, a ∈ marked'
  next : ∀ b ∈ marked', b ∉ marked → ∀ c ∈ succ b, c ∈ marked'

/-- The number of points of `u` without a mark. -/
def unmarked (u : Finset α) (marked : List α) : ℕ := (u \ marked.toFinset).card

variable {succ} {u : Finset α} {n : ℕ} {a : α} {as marked marked' : List α}

theorem unmarked_le (h : ∀ b ∈ marked, b ∈ marked') : unmarked u marked' ≤ unmarked u marked := by
  apply Finset.card_le_card
  intro b hb
  simp only [Finset.mem_sdiff, mem_toFinset] at hb ⊢
  exact ⟨hb.1, fun hm => hb.2 (h b hm)⟩

theorem unmarked_cons_lt (ha : a ∈ u) (hm : a ∉ marked) :
    unmarked u (a :: marked) < unmarked u marked := by
  apply Finset.card_lt_card
  refine ⟨fun b hb => ?_, fun h => ?_⟩
  · simp only [Finset.mem_sdiff, mem_toFinset, mem_cons, not_or] at hb ⊢
    exact ⟨hb.1, hb.2.2⟩
  · have ha' := h (Finset.mem_sdiff.mpr ⟨ha, by simpa using hm⟩)
    simp at ha'

theorem mem_of_unmarked_eq_zero (ha : a ∈ u) (h : unmarked u marked ≤ 0) : a ∈ marked := by
  by_contra hm
  have hlt := unmarked_cons_lt ha hm
  omega

/-- A sequence of visits, if each visit by itself does what it should. -/
theorem marks_foldl
    (hvisit : ∀ a ∈ u, ∀ marked, unmarked u marked ≤ n →
      Marks succ [a] marked (visit succ n marked a))
    (has : ∀ a ∈ as, a ∈ u) (hn : unmarked u marked ≤ n) :
    Marks succ as marked (visitAll succ n marked as) := by
  induction as generalizing marked with
  | nil => exact ⟨fun _ h => h, fun _ h => .inl h, by simp, fun b h h' => absurd h h'⟩
  | cons a as ih =>
    have h₁ := hvisit a (has a mem_cons_self) marked hn
    have h₂ : Marks succ as (visit succ n marked a) (visitAll succ n marked (a :: as)) :=
      ih (forall_mem_cons.mp has).2 ((unmarked_le h₁.kept).trans hn)
    refine ⟨fun b hb => h₂.kept b (h₁.kept b hb), fun b hb => ?_, fun b hb => ?_, fun b hb hm => ?_⟩
    · rcases h₂.new b hb with hb | ⟨c, hc, hcb⟩
      · rcases h₁.new b hb with hb | ⟨c, hc, hcb⟩
        · exact .inl hb
        · obtain rfl := mem_singleton.mp hc
          exact .inr ⟨c, mem_cons_self, hcb⟩
      · exact .inr ⟨c, mem_cons_of_mem _ hc, hcb⟩
    · rcases mem_cons.mp hb with rfl | hb
      · exact h₂.kept b (h₁.start b (mem_singleton.mpr rfl))
      · exact h₂.start b hb
    · by_cases hb₁ : b ∈ visit succ n marked a
      · exact fun c hc => h₂.kept c (h₁.next b hb₁ hm c hc)
      · exact h₂.next b hb hb₁

theorem marks_visit (hu : Closed succ u) (ha : a ∈ u) (hn : unmarked u marked ≤ n) :
    Marks succ [a] marked (visit succ n marked a) := by
  induction n generalizing a marked with
  | zero =>
    have hm := mem_of_unmarked_eq_zero ha hn
    exact ⟨fun _ h => h, fun _ h => .inl h, by simpa [visit] using hm, fun b h h' => absurd h h'⟩
  | succ n ih =>
    by_cases hm : a ∈ marked
    · rw [visit, if_pos hm]
      exact ⟨fun _ h => h, fun _ h => .inl h, by simpa using hm, fun b h h' => absurd h h'⟩
    · have hlt := unmarked_cons_lt ha hm
      have h : Marks succ (succ a) (a :: marked) (visitAll succ n (a :: marked) (succ a)) :=
        marks_foldl (fun b hb _ hn => ih hb hn) (fun b hb => hu a ha b hb) (by omega)
      rw [visit, if_neg hm]
      refine ⟨fun b hb => h.kept b (mem_cons_of_mem _ hb), fun b hb => ?_, fun b hb => ?_,
        fun b hb hbm => ?_⟩
      · rcases h.new b hb with hb | ⟨c, hc, hcb⟩
        · rcases mem_cons.mp hb with rfl | hb
          · exact .inr ⟨b, mem_singleton.mpr rfl, .refl⟩
          · exact .inl hb
        · exact .inr ⟨a, mem_singleton.mpr rfl, .head hc hcb⟩
      · obtain rfl := mem_singleton.mp hb
        exact h.kept b mem_cons_self
      · by_cases hba : b = a
        · subst hba
          exact h.start
        · exact h.next b hb (by simp [hba, hbm])

theorem nodup_visit (h : marked.Nodup) : (visit succ n marked a).Nodup := by
  induction n generalizing a marked with
  | zero => exact h
  | succ n ih =>
    rw [visit]
    split
    · exact h
    case isFalse hm => exact foldlRecOn _ _ (nodup_cons.mpr ⟨hm, h⟩) fun _ h _ _ => ih h

theorem marks_visitAll (hu : Closed succ u) (has : ∀ a ∈ as, a ∈ u) (hn : u.card ≤ n) :
    Marks succ as marked (visitAll succ n marked as) :=
  marks_foldl (fun _ ha _ hn => marks_visit hu ha hn) has
    ((Finset.card_le_card Finset.sdiff_subset).trans hn)

/-- From marks that no edge leaves, exactly what can be reached is marked. -/
theorem mem_visitAll (hu : Closed succ u) (has : ∀ a ∈ as, a ∈ u) (hn : u.card ≤ n)
    (hm : Closed succ {b | b ∈ marked}) {b : α} :
    b ∈ visitAll succ n marked as ↔ b ∈ marked ∨ ∃ a ∈ as, Reaches succ a b := by
  have h : Marks succ as marked (visitAll succ n marked as) := marks_visitAll hu has hn
  refine ⟨h.new b, ?_⟩
  have hclosed : Closed succ {b | b ∈ visitAll succ n marked as} := by
    intro b hb c hc
    by_cases hbm : b ∈ marked
    · exact h.kept c (hm b hbm c hc)
    · exact h.next b hb hbm c hc
  rintro (hb | ⟨a, ha, hab⟩)
  · exact h.kept b hb
  · exact hclosed.mem_of_reaches (h.start a ha) hab

end Please.Lib.Reach
