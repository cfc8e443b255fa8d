import Please.Lib.Except

/-!
# Texts written in pieces

What is left when a list of pieces is written one after the other, without
lengths and without separators.

* `Apart.flatten_ne`: pieces that are told apart without their boundaries.
* `eq_of_mapM_flatten`: pieces of the same lengths that are computed and may fail.
-/

namespace Please.Lib

open List

variable {α β : Type*}

/-- At the first place where the pieces differ, neither is the beginning of the other. -/
def Apart : List (List α) → List (List α) → Prop
  | x :: xs, y :: ys => x = y ∧ Apart xs ys ∨ ¬ x <+: y ∧ ¬ y <+: x
  | _, _ => False

theorem Apart.flatten_ne {xs ys : List (List α)} (h : Apart xs ys) : xs.flatten ≠ ys.flatten := by
  intro htext
  induction xs, ys using Apart.induct with
  | case1 x xs y ys ih =>
    rw [flatten_cons, flatten_cons] at htext
    rcases h with ⟨rfl, h⟩ | ⟨hxy, hyx⟩
    · exact ih h (append_cancel_left htext)
    · have hx : x <+: y ++ ys.flatten := htext ▸ prefix_append x xs.flatten
      have hor := prefix_or_prefix_of_prefix hx (prefix_append y ys.flatten)
      exact hor.elim hxy hyx
  | case2 _ _ hnone => rw [Apart] at h; exacts [h, hnone]

/-! ## Pieces that are computed -/

section computed

variable {ε : Type} {f g : α → Except ε β} {xs : List α}

theorem mapM_congr (h : ∀ x ∈ xs, f x = g x) : xs.mapM f = xs.mapM g := by
  induction xs with
  | nil => rfl
  | cons x xs ih => rw [mapM_cons, mapM_cons, h x (.head _), ih fun y hy => h y (.tail _ hy)]

theorem exists_mapM_eq_ok (h : ∀ x ∈ xs, ∃ y, f x = .ok y) : ∃ ys, xs.mapM f = .ok ys := by
  induction xs with
  | nil => exact ⟨[], rfl⟩
  | cons x xs ih =>
    obtain ⟨y, hy⟩ := h x (.head _)
    obtain ⟨ys, hys⟩ := ih fun z hz => h z (.tail _ hz)
    exact ⟨y :: ys, by rw [mapM_cons, hy, hys]; rfl⟩

end computed

/-- Two ways to compute pieces of the same lengths leave the same text, and the same after
it, only if they compute the same pieces. -/
theorem eq_of_mapM_flatten {ε α β : Type} {f g : α → Except ε (List β)} {xs : List α}
    {ys zs : List (List β)} {r s : List β} (hf : xs.mapM f = .ok ys) (hg : xs.mapM g = .ok zs)
    (hlen : ∀ x ∈ xs, ∀ b c, f x = .ok b → g x = .ok c → b.length = c.length)
    (h : ys.flatten ++ r = zs.flatten ++ s) : (∀ x ∈ xs, f x = g x) ∧ r = s := by
  rw [Except.mapM_eq_ok] at hf hg
  induction xs generalizing ys zs with
  | nil =>
    cases hf
    cases hg
    exact ⟨forall_mem_nil _, h⟩
  | cons x xs ih =>
    obtain ⟨b, ys, hb, hys, rfl⟩ := forall₂_cons_left_iff.mp hf
    obtain ⟨c, zs, hc, hzs, rfl⟩ := forall₂_cons_left_iff.mp hg
    rw [flatten_cons, flatten_cons, append_assoc, append_assoc] at h
    obtain ⟨hpiece, hrest⟩ := append_inj h (hlen x (.head _) b c hb hc)
    obtain ⟨hall, hrs⟩ := ih hys hzs (fun y hy => hlen y (.tail _ hy)) hrest
    refine ⟨fun y hy => ?_, hrs⟩
    rcases mem_cons.mp hy with rfl | hy
    · rw [hb, hc, hpiece]
    · exact hall y hy

end Please.Lib
