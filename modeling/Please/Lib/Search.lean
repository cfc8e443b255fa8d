import Mathlib.Data.List.Chain
import Mathlib.Data.List.DropRight

/-!
# Searching in strings

The searches of Go's `strings` package on lists: for the first place of a substring, and for
the first and the last place of one element. Each comes with the way it takes the string
apart, in both directions.

* `indexByte_eq_some_iff`, `lastIndexByte_eq_some_iff`: the string is cut at the first or last
  place of the element.
* `rtakeWhile_append_cons`: what follows the last separator.
-/

namespace Please.Lib

open List

variable {α : Type*}

section searches

variable [DecidableEq α]

/-- `strings.Index`. -/
def index (sub : List α) : List α → Option ℕ
  | [] => if sub = [] then some 0 else none
  | c :: s => if sub.isPrefixOf (c :: s) then some 0 else (index sub s).map (· + 1)

/-- `strings.IndexByte`. -/
def indexByte (c : α) : List α → Option ℕ
  | [] => none
  | b :: s => if b = c then some 0 else (indexByte c s).map (· + 1)

/-- `strings.LastIndexByte`. -/
def lastIndexByte (c : α) : List α → Option ℕ
  | [] => none
  | b :: s =>
    match lastIndexByte c s with
    | some i => some (i + 1)
    | none => if b = c then some 0 else none

end searches

/-! ## One element -/

section byte

variable [DecidableEq α] {c : α} {s : List α} {i : ℕ}

theorem indexByte_eq_none_iff : indexByte c s = none ↔ c ∉ s := by
  induction s with
  | nil => simp [indexByte]
  | cons b s ih =>
    by_cases h : b = c
    · simp [indexByte, h]
    · simp [indexByte, h, ih, Ne.symm h]

theorem indexByte_append_cons (u v : List α) (h : c ∉ u) :
    indexByte c (u ++ c :: v) = some u.length := by
  induction u with
  | nil => simp [indexByte]
  | cons b u ih =>
    obtain ⟨hb, hu⟩ : b ≠ c ∧ c ∉ u := by simpa [eq_comm] using h
    simp [indexByte, hb, ih hu]

theorem lastIndexByte_eq_none_iff : lastIndexByte c s = none ↔ c ∉ s := by
  induction s with
  | nil => simp [lastIndexByte]
  | cons b s ih =>
    cases h : lastIndexByte c s with
    | none =>
      have hs : c ∉ s := ih.mp h
      by_cases hb : b = c
      · simp [lastIndexByte, h, hb]
      · simp [lastIndexByte, h, hb, hs, Ne.symm hb]
    | some =>
      have hs : c ∈ s := by
        by_contra hnot
        rw [ih.mpr hnot] at h
        cases h
      simp [lastIndexByte, h, hs]

theorem lastIndexByte_append_cons (u v : List α) (h : c ∉ v) :
    lastIndexByte c (u ++ c :: v) = some u.length := by
  induction u with
  | nil => simp [lastIndexByte, lastIndexByte_eq_none_iff.mpr h]
  | cons b u ih => simp [lastIndexByte, ih]

/-- The string is cut at the last `c`. -/
theorem lastIndexByte_eq_some_iff :
    lastIndexByte c s = some i ↔ ∃ u v, s = u ++ c :: v ∧ c ∉ v ∧ i = u.length := by
  constructor
  · intro h
    have hmem : c ∈ s.reverse := by
      rw [mem_reverse]
      by_contra hnot
      rw [lastIndexByte_eq_none_iff.mpr hnot] at h
      cases h
    obtain ⟨v, u, hs, hv⟩ := eq_append_cons_of_mem hmem
    obtain rfl : s = u.reverse ++ c :: v.reverse := by
      rw [← reverse_reverse s, hs]
      simp
    rw [lastIndexByte_append_cons _ _ (by simpa using hv)] at h
    exact ⟨u.reverse, v.reverse, rfl, by simpa using hv, (Option.some.inj h).symm⟩
  · rintro ⟨u, v, rfl, hv, rfl⟩
    exact lastIndexByte_append_cons u v hv

end byte

/-! ## A pair of equal elements -/

/-- No two neighbours are both `c`. -/
def NoPair (c : α) (s : List α) : Prop := s.IsChain fun a b => ¬ (a = c ∧ b = c)

section pair

variable {c : α} {s : List α} {i : ℕ}

theorem noPair_cons (b : α) (s : List α) :
    NoPair c (b :: s) ↔ ¬ (b = c ∧ s.head? = some c) ∧ NoPair c s := by
  unfold NoPair
  rw [isChain_cons]
  refine and_congr_left fun _ => ⟨fun h => ?_, fun h d hd hbc => ?_⟩
  · rintro ⟨hb, hs⟩
    exact h c hs ⟨hb, rfl⟩
  · exact h ⟨hbc.1, by rw [← hbc.2]; exact hd⟩

theorem noPair_of_notMem (h : c ∉ s) : NoPair c s := by
  induction s with
  | nil => exact isChain_nil
  | cons b s ih =>
    rw [mem_cons, not_or] at h
    exact (noPair_cons b s).mpr ⟨fun hb => h.1 hb.1.symm, ih h.2⟩

theorem NoPair.left {u v : List α} (h : NoPair c (u ++ v)) : NoPair c u := (isChain_append.mp h).1

/-- Nothing is added to the pairs by an element that is not `c`. -/
theorem NoPair.append_cons {u v : List α} {d : α} (hu : NoPair c u) (hd : d ≠ c)
    (hv : NoPair c v) : NoPair c (u ++ d :: v) := by
  refine isChain_append.mpr ⟨hu, (noPair_cons d v).mpr ⟨fun h => hd h.1, hv⟩, ?_⟩
  rintro a - b hb ⟨-, rfl⟩
  exact hd (by simpa using hb)

/-- A string without pairs that does not end in `c` can be followed by one. -/
theorem noPair_append_singleton_iff : NoPair c (s ++ [c]) ↔ NoPair c s ∧ s.getLast? ≠ some c := by
  unfold NoPair
  rw [isChain_append]
  constructor
  · rintro ⟨hs, -, h⟩
    exact ⟨hs, fun hlast => h c hlast c rfl ⟨rfl, rfl⟩⟩
  · rintro ⟨hs, hlast⟩
    refine ⟨hs, isChain_singleton _, ?_⟩
    rintro a ha b - ⟨rfl, -⟩
    exact hlast ha

variable [DecidableEq α]

theorem index_pair_cons (b : α) (s : List α) :
    index [c, c] (b :: s) =
      if b = c ∧ s.head? = some c then some 0 else (index [c, c] s).map (· + 1) := by
  have hpre : [c, c].isPrefixOf (b :: s) = true ↔ b = c ∧ s.head? = some c := by
    cases s with
    | nil => simp [isPrefixOf]
    | cons =>
      rw [List.isPrefixOf_iff_prefix, cons_prefix_cons, cons_prefix_cons]
      simp only [List.nil_prefix, and_true, head?_cons, Option.some.injEq]
      exact and_congr eq_comm eq_comm
  simp only [index, hpre]

theorem index_pair_eq_none_iff : index [c, c] s = none ↔ NoPair c s := by
  induction s with
  | nil => simp [index, NoPair]
  | cons b s ih =>
    rw [index_pair_cons, noPair_cons, ← ih]
    by_cases h : b = c ∧ s.head? = some c <;> simp [h]

theorem index_pair_append (u v : List α) (h : NoPair c (u ++ [c])) :
    index [c, c] (u ++ c :: c :: v) = some u.length := by
  induction u with
  | nil => simp [index, isPrefixOf]
  | cons b u ih =>
    rw [cons_append, noPair_cons] at h
    have hhead : (u ++ c :: c :: v).head? = (u ++ [c]).head? := by cases u <;> rfl
    rw [cons_append, index_pair_cons, hhead, if_neg h.1, ih h.2]
    rfl

/-- The string is cut at the first pair. -/
theorem index_pair_eq_some_iff :
    index [c, c] s = some i ↔ ∃ u v, s = u ++ c :: c :: v ∧ NoPair c (u ++ [c]) ∧ i = u.length := by
  constructor
  · intro h
    induction s generalizing i with
    | nil => simp [index] at h
    | cons b s ih =>
      rw [index_pair_cons] at h
      by_cases hpair : b = c ∧ s.head? = some c
      · rw [if_pos hpair] at h
        obtain ⟨rfl, hhead⟩ := hpair
        obtain ⟨v, rfl⟩ := head?_eq_some_iff.mp hhead
        exact ⟨[], v, rfl, isChain_singleton _, (Option.some.inj h).symm⟩
      · rw [if_neg hpair, Option.map_eq_some_iff] at h
        obtain ⟨j, hj, rfl⟩ := h
        obtain ⟨u, v, rfl, hu, rfl⟩ := ih hj
        have hhead : (u ++ c :: c :: v).head? = (u ++ [c]).head? := by cases u <;> rfl
        refine ⟨b :: u, v, rfl, ?_, rfl⟩
        rw [cons_append, noPair_cons, ← hhead]
        exact ⟨hpair, hu⟩
  · rintro ⟨u, v, rfl, hu, rfl⟩
    exact index_pair_append u v hu

end pair

/-! ## What follows the last separator -/

theorem rtakeWhile_append_cons {p : α → Bool} {u v : List α} {d : α} (hd : p d = false)
    (hv : ∀ b ∈ v, p b = true) : (u ++ d :: v).rtakeWhile p = v := by
  unfold rtakeWhile
  have hrev : (u ++ d :: v).reverse = v.reverse ++ d :: u.reverse := by simp
  rw [hrev, takeWhile_append_of_pos (by simpa using hv), takeWhile_cons_of_neg (by simp [hd]),
    append_nil, reverse_reverse]

end Please.Lib
