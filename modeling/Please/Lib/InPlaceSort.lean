import Mathlib.Data.List.Range
import Mathlib.Order.Lattice

/-!
# Sorting in place

A procedure that sorts a slice asks how two places compare and swaps two places, and sees nothing
else of the elements. `Sorter` is one that leaves the elements in order, for every strict weak order
on them; elements that tie may end up in any order.

* `Sorting.perm_run`: a run permutes the elements.
* `insertionSorter`: there is one.
-/

namespace Please.Lib

open List

/-- What is left to do of sorting. -/
inductive Sorting
  | done
  | less (i j : ℕ) (k : Bool → Sorting)
  | swap (i j : ℕ) (p : Sorting)

section

variable {α : Type*}

/-- Swap two places. -/
def swapAt (xs : List α) (i j : ℕ) : List α :=
  match xs[i]?, xs[j]? with
  | some a, some b => (xs.set i b).set j a
  | _, _ => xs

variable {xs : List α}

theorem swapAt_of_lt {i j : ℕ} (hi : i < xs.length) (hj : j < xs.length) :
    swapAt xs i j = (xs.set i xs[j]).set j xs[i] := by
  rw [swapAt, getElem?_eq_getElem hi, getElem?_eq_getElem hj]

theorem perm_swapAt (xs : List α) (i j : ℕ) : (swapAt xs i j).Perm xs := by
  by_cases hi : i < xs.length
  · by_cases hj : j < xs.length
    · rw [swapAt_of_lt hi hj]
      exact set_set_perm hi hj
    · rw [swapAt, getElem?_eq_none (not_lt.mp hj)]
      split
      · contradiction
      · exact .refl _
  · rw [swapAt, getElem?_eq_none (not_lt.mp hi)]

/-- The elements of a list are compared by a strict weak order. -/
structure StrictWeakOn (lt : α → α → Bool) (xs : List α) : Prop where
  asymm : ∀ a ∈ xs, ∀ b ∈ xs, lt a b = true → lt b a = false
  negTrans : ∀ a ∈ xs, ∀ b ∈ xs, ∀ c ∈ xs, lt a c = true → lt a b = true ∨ lt b c = true

/-- No element is less than one before it. -/
def InOrder (lt : α → α → Bool) (xs : List α) : Prop := xs.Pairwise fun a b => lt b a = false

variable {lt : α → α → Bool}

theorem StrictWeakOn.mono {ys : List α} (h : StrictWeakOn lt ys)
    (hxs : ∀ a ∈ xs, a ∈ ys) : StrictWeakOn lt xs where
  asymm a ha b hb := h.asymm a (hxs a ha) b (hxs b hb)
  negTrans a ha b hb c hc := h.negTrans a (hxs a ha) b (hxs b hb) c (hxs c hc)

end

namespace Sorting

variable {α : Type*}

/-- How two places compare. -/
def lessAt (lt : α → α → Bool) (xs : List α) (i j : ℕ) : Bool :=
  match xs[i]?, xs[j]? with
  | some a, some b => lt a b
  | _, _ => false

theorem lessAt_of_lt (lt : α → α → Bool) {xs : List α} {i j : ℕ} (hi : i < xs.length)
    (hj : j < xs.length) : lessAt lt xs i j = lt xs[i] xs[j] := by
  rw [lessAt, getElem?_eq_getElem hi, getElem?_eq_getElem hj]

/-- Sort a list. -/
def run (lt : α → α → Bool) : Sorting → List α → List α
  | done, xs => xs
  | less i j k, xs => (k (lessAt lt xs i j)).run lt xs
  | swap i j p, xs => p.run lt (swapAt xs i j)

theorem perm_run (lt : α → α → Bool) (p : Sorting) (xs : List α) : (p.run lt xs).Perm xs := by
  induction p generalizing xs with
  | done => exact .refl _
  | less i j k ih => exact ih _ xs
  | swap i j p ih => exact (ih _).trans (perm_swapAt xs i j)

/-- Elements that compare alike are sorted alike. -/
theorem run_map {β : Type*} {lt' : β → β → Bool} {f : α → β} (p : Sorting) {xs : List α}
    (h : ∀ a ∈ xs, ∀ b ∈ xs, lt' (f a) (f b) = lt a b) :
    p.run lt' (xs.map f) = (p.run lt xs).map f := by
  induction p generalizing xs with
  | done => rfl
  | less i j k ih =>
    have hless : lessAt lt' (xs.map f) i j = lessAt lt xs i j := by
      rw [lessAt, lessAt, getElem?_map, getElem?_map]
      cases hi : xs[i]? <;> cases hj : xs[j]? <;> simp
      exact h _ (mem_of_getElem? hi) _ (mem_of_getElem? hj)
    rw [run, run, hless, ih _ h]
  | swap i j p ih =>
    have hswap : swapAt (xs.map f) i j = (swapAt xs i j).map f := by
      rw [swapAt, swapAt, getElem?_map, getElem?_map]
      cases xs[i]? <;> cases xs[j]? <;> simp [map_set]
    rw [run, run, hswap, ih fun a ha b hb => ?_]
    have hperm := perm_swapAt xs i j
    exact h a (hperm.mem_iff.mp ha) b (hperm.mem_iff.mp hb)

end Sorting

/-- A procedure for each number of elements, which leaves them in order. -/
structure Sorter where
  prog : ℕ → Sorting
  sorts : ∀ {α : Type} (lt : α → α → Bool) (xs : List α), StrictWeakOn lt xs →
    InOrder lt ((prog xs.length).run lt xs)

namespace Sorter

variable (sorter : Sorter)

section ties

variable {α : Type} {lt : α → α → Bool} {xs ys : List α} (hlt : StrictWeakOn lt xs)
  (hties : ∀ a ∈ xs, ∀ b ∈ xs, lt a b = false → lt b a = false → a = b) (hperm : xs.Perm ys)
include hlt hties hperm

/-- If only equal elements tie, there is one order that they can be put in. -/
theorem run_eq_of_inOrder (hys : InOrder lt ys) : (sorter.prog xs.length).run lt xs = ys := by
  have hrun := Sorting.perm_run lt (sorter.prog xs.length) xs
  refine List.Perm.eq_of_pairwise ?_ (sorter.sorts lt xs hlt) hys (hrun.trans hperm)
  intro a b ha hb hba hab
  exact hties a (hrun.mem_iff.mp ha) b (hperm.mem_iff.mpr hb) hab hba

/-- If only equal elements tie, the order they come in does not matter. -/
theorem run_eq_of_perm : (sorter.prog xs.length).run lt xs = (sorter.prog ys.length).run lt ys :=
  sorter.run_eq_of_inOrder hlt hties (hperm.trans (Sorting.perm_run ..).symm)
    (sorter.sorts lt ys (hlt.mono fun _ => hperm.mem_iff.mpr))

end ties

end Sorter

/-! ## Insertion sort -/

/-- Move the element at place `j` down, then go on. -/
def sinkThen (p : Sorting) : ℕ → Sorting
  | 0 => p
  | j + 1 => .less (j + 1) j fun b => if b then .swap (j + 1) j (sinkThen p j) else p

/-- Insert `c` elements from place `i` on. -/
def insertionFrom : ℕ → ℕ → Sorting
  | 0, _ => .done
  | c + 1, i => sinkThen (insertionFrom c (i + 1)) i

section

variable {α : Type} {lt : α → α → Bool}

theorem swapAt_adjacent (ys zs : List α) (y x : α) :
    swapAt (ys ++ y :: x :: zs) (ys.length + 1) ys.length = ys ++ x :: y :: zs := by
  rw [swapAt_of_lt (by simp) (by simp)]
  simp

/-- An element sinks to its place among those before it. -/
theorem run_sinkThen (p : Sorting) {ys zs : List α} {x : α} {j : ℕ} (hj : ys.length = j)
    (hlt : StrictWeakOn lt (ys ++ x :: zs)) (hys : InOrder lt ys) :
    ∃ ys', (sinkThen p j).run lt (ys ++ x :: zs) = p.run lt (ys' ++ zs) ∧ InOrder lt ys' ∧
      ys'.Perm (ys ++ [x]) := by
  induction j generalizing ys zs with
  | zero =>
    obtain rfl := eq_nil_of_length_eq_zero hj
    exact ⟨[x], rfl, pairwise_singleton _ _, .refl _⟩
  | succ j ih =>
    obtain ⟨ys, y, rfl⟩ := (eq_nil_or_concat ys).resolve_left (by rintro rfl; cases hj)
    rw [concat_eq_append] at hj hys hlt ⊢
    obtain rfl : ys.length = j := by simpa using hj
    have hmem {a : α} (ha : a ∈ ys ++ [y]) : a ∈ ys ++ [y] ++ x :: zs := mem_append_left _ ha
    have hy : y ∈ ys ++ [y] ++ x :: zs := hmem (by simp)
    have hx : x ∈ ys ++ [y] ++ x :: zs := by simp
    obtain ⟨hys', -, hlast⟩ := pairwise_append.mp hys
    have hless : Sorting.lessAt lt (ys ++ [y] ++ x :: zs) (ys.length + 1) ys.length = lt x y := by
      rw [Sorting.lessAt_of_lt lt (by simp) (by simp)]
      simp
    rw [sinkThen, Sorting.run, hless]
    cases hxy : lt x y with
    | true =>
      have hstep : ys ++ [y] ++ x :: zs = ys ++ y :: x :: zs := by simp
      have hlt' : StrictWeakOn lt (ys ++ x :: y :: zs) := by
        refine hlt.mono fun a ha => ?_
        simp only [mem_append, mem_cons, not_mem_nil, or_false] at ha ⊢
        tauto
      obtain ⟨ws, hws, hsorted, hperm⟩ := ih rfl hlt' hys'
      refine ⟨ws ++ [y], ?_, ?_, ?_⟩
      · rw [if_pos rfl, Sorting.run, hstep, swapAt_adjacent, hws, append_assoc]
        rfl
      · refine pairwise_append.mpr ⟨hsorted, pairwise_singleton _ _, ?_⟩
        intro a ha b hb
        rw [mem_singleton.mp hb]
        rcases mem_append.mp (hperm.mem_iff.mp ha) with ha | ha
        · exact hlast a ha y (mem_singleton_self y)
        · rw [mem_singleton.mp ha]
          exact hlt.asymm x hx y hy hxy
      · refine (hperm.append_right [y]).trans ?_
        rw [append_assoc, append_assoc]
        exact (List.Perm.swap y x []).append_left ys
    | false =>
      refine ⟨ys ++ [y] ++ [x], ?_, ?_, .refl _⟩
      · rw [if_neg Bool.false_ne_true, append_assoc (ys ++ [y])]
        rfl
      · refine pairwise_append.mpr ⟨hys, pairwise_singleton _ _, ?_⟩
        intro a ha b hb
        rw [mem_singleton.mp hb]
        -- what is less than `a` is less than the last element
        rcases mem_append.mp ha with ha' | ha'
        · by_contra hxa
          rw [Bool.not_eq_false] at hxa
          rcases hlt.negTrans x hx y hy a (hmem ha) hxa with h | h
          · exact Bool.false_ne_true (hxy.symm.trans h)
          · exact Bool.false_ne_true ((hlast a ha' y (mem_singleton_self y)).symm.trans h)
        · rwa [mem_singleton.mp ha']

theorem inOrder_run_insertionFrom {ys zs : List α} (hlt : StrictWeakOn lt (ys ++ zs))
    (hys : InOrder lt ys) : InOrder lt ((insertionFrom zs.length ys.length).run lt (ys ++ zs)) := by
  induction zs generalizing ys with
  | nil =>
    rw [append_nil]
    exact hys
  | cons x zs ih =>
    obtain ⟨ys', hrun, hsorted, hperm⟩ :=
      run_sinkThen (insertionFrom zs.length (ys.length + 1)) rfl hlt hys
    have hlen : ys'.length = ys.length + 1 := by simpa using hperm.length_eq
    have hlt' : StrictWeakOn lt (ys' ++ zs) := by
      refine hlt.mono fun a ha => ?_
      rw [mem_append, hperm.mem_iff] at ha
      simpa [or_assoc] using ha
    rw [length_cons, insertionFrom, hrun, ← hlen]
    exact ih hlt' hsorted

end

/-- Insertion sort. -/
def insertionSorter : Sorter where
  prog n := insertionFrom n 0
  sorts lt xs hlt := by
    have h : InOrder lt ((insertionFrom xs.length ([] : List _).length).run lt ([] ++ xs)) :=
      inOrder_run_insertionFrom hlt .nil
    exact h

end Please.Lib
