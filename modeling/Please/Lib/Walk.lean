import Mathlib.Data.Set.Basic

/-!
# Walks that mark points and collect

A walk goes from a point to its successors, marks the points it has gone through, and collects what
belongs to each. Nothing is said about the order: a point may be marked before its successors are
gone through or after.

* `Walks`: what a part of a walk does. It composes, whatever else is done in between.
-/

namespace Please.Lib.Walk

variable {α β σ : Type*} (next : α → α → Prop) (own : α → Set β) (done : σ → Set α)
  (out : σ → Set β)

/-- A part of a walk that marks points of `S` and collects what belongs to points of `T`: each point
that it marks is complete at its end. -/
structure Walks (S T : Set α) (s s' : σ) : Prop where
  done_subset : done s ⊆ done s'
  out_subset : out s ⊆ out s'
  done_new : ∀ a ∈ done s', a ∈ done s ∨ a ∈ S
  out_new : ∀ o ∈ out s', o ∈ out s ∨ ∃ a ∈ T, o ∈ own a
  complete : ∀ a ∈ done s', a ∉ done s → own a ⊆ out s' ∧ ∀ b, next a b → b ∈ done s'

variable {next own done out} {S T S' T' : Set α} {s s₁ s' : σ} {a : α}

theorem Walks.refl : Walks next own done out S T s s :=
  ⟨Set.Subset.rfl, Set.Subset.rfl, fun _ => .inl, fun _ => .inl, fun _ h h' => absurd h h'⟩

theorem Walks.trans (h : Walks next own done out S T s s₁)
    (h' : Walks next own done out S T s₁ s') :
    Walks next own done out S T s s' where
  done_subset := h.done_subset.trans h'.done_subset
  out_subset := h.out_subset.trans h'.out_subset
  done_new a ha := (h'.done_new a ha).elim (h.done_new a) .inr
  out_new o ho := (h'.out_new o ho).elim (h.out_new o) .inr
  complete a ha hnew := by
    by_cases ha₁ : a ∈ done s₁
    · obtain ⟨hown, hnext⟩ := h.complete a ha₁ hnew
      exact ⟨hown.trans h'.out_subset, fun b hb => h'.done_subset (hnext b hb)⟩
    · exact h'.complete a ha ha₁

theorem Walks.mono (h : Walks next own done out S T s s') (hS : S ⊆ S') (hT : T ⊆ T') :
    Walks next own done out S' T' s s' :=
  { h with
    done_new := fun a ha => (h.done_new a ha).imp_right (hS ·)
    out_new := fun o ho => (h.out_new o ho).imp_right fun ⟨a, ha, hown⟩ => ⟨a, hT ha, hown⟩ }

/-- Nothing is marked, and what belongs to a point is collected. -/
theorem Walks.collect (hdone : done s' = done s) (hout : out s ⊆ out s')
    (hown : ∀ o ∈ out s', o ∈ out s ∨ o ∈ own a) (ha : a ∈ T) :
      Walks next own done out S T s s' where
  done_subset := hdone.symm.subset
  out_subset := hout
  done_new _ hb := .inl (hdone ▸ hb)
  out_new o ho := (hown o ho).imp_right fun h => ⟨a, ha, h⟩
  complete _ hb hnew := absurd (hdone ▸ hb) hnew

theorem Walks.mark_first (hdone : done s₁ = insert a (done s)) (hout : out s₁ = out s)
    (h : Walks next own done out S T s₁ s') (ha : a ∈ S) (hown : own a ⊆ out s')
    (hnext : ∀ b, next a b → b ∈ done s') : Walks next own done out S T s s' where
  done_subset := fun b hb => h.done_subset (hdone ▸ .inr hb)
  out_subset := hout ▸ h.out_subset
  done_new b hb := by
    rcases h.done_new b hb with hb | hb
    · rcases hdone ▸ hb with rfl | hb
      · exact .inr ha
      · exact .inl hb
    · exact .inr hb
  out_new := hout ▸ h.out_new
  complete b hb hnew := by
    by_cases hba : b = a
    · subst hba
      exact ⟨hown, hnext⟩
    · refine h.complete b hb fun hb₁ => ?_
      exact (hdone ▸ hb₁ : b ∈ insert a (done s)).elim hba hnew

theorem Walks.mark_last (h : Walks next own done out S T s s₁)
    (hdone : done s' = insert a (done s₁))
    (hout : out s' = out s₁) (ha : a ∈ S) (hown : own a ⊆ out s₁)
    (hnext : ∀ b, next a b → b ∈ done s₁) : Walks next own done out S T s s' where
  done_subset := fun b hb => hdone ▸ .inr (h.done_subset hb)
  out_subset := hout ▸ h.out_subset
  done_new b hb := by
    rcases hdone ▸ hb with rfl | hb
    · exact .inr ha
    · exact h.done_new b hb
  out_new := hout ▸ h.out_new
  complete b hb hnew := by
    rw [hout, hdone]
    rcases hdone ▸ hb with rfl | hb
    · exact ⟨hown, fun c hc => .inr (hnext c hc)⟩
    · obtain ⟨hown, hnext⟩ := h.complete b hb hnew
      exact ⟨hown, fun c hc => .inr (hnext c hc)⟩

/-- A walk from nothing collects exactly what belongs to the points that can be reached. -/
theorem mem_out_iff (h : Walks next own done out S {b | Relation.ReflTransGen next a b} s s')
    (hdone : done s = ∅) (hout : out s = ∅) (ha : a ∈ done s') {o : β} :
    o ∈ out s' ↔ ∃ b, Relation.ReflTransGen next a b ∧ o ∈ own b := by
  constructor
  · intro ho
    rcases h.out_new o ho with ho | ho
    · rw [hout] at ho
      exact ho.elim
    · exact ho
  · rintro ⟨b, hab, ho⟩
    have hcomplete {b : α} (hb : b ∈ done s') := h.complete b hb (by simp [hdone])
    have hb : b ∈ done s' := by
      clear ho
      induction hab with
      | refl => exact ha
      | tail _ hbc ih => exact (hcomplete ih).2 _ hbc
    exact (hcomplete hb).1 ho

end Please.Lib.Walk
