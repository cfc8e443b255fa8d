import Mathlib.Data.List.GetD
import Mathlib.Data.Set.Function

/-!
# Positions in a file

Model of `File` (`src/parse/asp/file_position.go`). The line and the column of a position are exact,
and in the order of the positions (`pos_exact`).
-/

namespace Please.Asp

open List

/-- The loop of `slices.BinarySearch`. -/
def binarySearch (x : List ℤ) (target : ℤ) (i j : ℕ) : ℕ :=
  if i < j then
    if x.getD ((i + j) / 2) 0 < target then binarySearch x target ((i + j) / 2 + 1) j
    else binarySearch x target i ((i + j) / 2)
  else i
termination_by j - i

/-- The offsets of the newlines before `n`. -/
def newlines (buf : List UInt8) (n : ℕ) : List ℤ :=
  ((range n).filter fun i => buf[i]? = some 10).map (↑)

/-- `NewFile`: the offset before every line. -/
def lineOffsets (buf : List UInt8) : List ℤ := -1 :: newlines buf buf.length

/-- `FilePosition`, in one file. -/
structure FilePosition where
  offset : ℕ
  line : ℕ
  column : ℤ

/-- `File.Pos`. -/
def pos (buf : List UInt8) (p : ℕ) : FilePosition :=
  let line := binarySearch (lineOffsets buf) p 0 (lineOffsets buf).length
  ⟨p + 1, line, p - (lineOffsets buf).getD (line - 1) 0⟩

theorem binarySearch_append {l r : List ℤ} {target : ℤ} (hl : ∀ a ∈ l, a < target)
    (hr : ∀ a ∈ r, target ≤ a) {i j : ℕ} (hi : i ≤ l.length) (hj : l.length ≤ j)
    (hlen : j ≤ (l ++ r).length) : binarySearch (l ++ r) target i j = l.length := by
  have hmid {m : ℕ} (hm : m < (l ++ r).length) : (l ++ r).getD m 0 < target ↔ m < l.length := by
    rw [getD_eq_getElem _ _ hm]
    by_cases h : m < l.length
    · rw [getElem_append_left h]
      exact iff_of_true (hl _ (getElem_mem h)) h
    · rw [getElem_append_right (not_lt.mp h)]
      exact iff_of_false (not_lt.mpr (hr _ (getElem_mem _))) h
  fun_induction binarySearch (l ++ r) target i j with
  | case1 i j hlt hless ih =>
    rw [hmid (by omega)] at hless
    exact ih hless hj hlen
  | case2 i j hlt hless ih =>
    rw [hmid (by omega)] at hless
    exact ih hi (not_lt.mp hless) (by omega)
  | case3 => omega

/-- The newlines before a position come first. -/
theorem exists_newlines_append (buf : List UInt8) {p n : ℕ} (h : p ≤ n) : ∃ r,
    newlines buf n = newlines buf p ++ r ∧ ∀ a ∈ r, (p : ℤ) ≤ a := by
  obtain ⟨k, rfl⟩ := Nat.exists_eq_add_of_le h
  rw [newlines, range_add, filter_append, map_append]
  refine ⟨_, rfl, fun a ha => ?_⟩
  simp only [mem_map, mem_filter] at ha
  omega

theorem pos_eq {buf : List UInt8} {p : ℕ} (h : p ≤ buf.length) :
    pos buf p = ⟨p + 1, (newlines buf p).length + 1, p - (newlines buf p).getLastD (-1)⟩ := by
  obtain ⟨r, hoffsets, hr⟩ := exists_newlines_append buf h
  have hl : ∀ a ∈ -1 :: newlines buf p, a < (p : ℤ) := by
    simp only [newlines, mem_cons, mem_map, mem_filter, mem_range]
    omega
  have hline : lineOffsets buf = (-1 :: newlines buf p) ++ r := by
    rw [lineOffsets, hoffsets, cons_append]
  rw [pos, hline, binarySearch_append hl hr (Nat.zero_le _) (by simp) le_rfl]
  rcases eq_nil_or_concat (newlines buf p) with hnil | ⟨init, last, hlast⟩
  · simp [hnil]
  · simp [hlast]

/-- Lines are counted by the newlines before a position and columns from the last one. Together they
are in the order of the positions. -/
theorem pos_exact (buf : List UInt8) :
    (∀ p ≤ buf.length, (pos buf p).line = 1 + (newlines buf p).length ∧
      (pos buf p).column = p - (newlines buf p).getLastD (-1)) ∧
    (∀ q ≤ buf.length, ∀ p < q, (pos buf p).line < (pos buf q).line ∨
      (pos buf p).line = (pos buf q).line ∧ (pos buf p).column < (pos buf q).column) ∧
    Set.InjOn (fun p => ((pos buf p).line, (pos buf p).column)) {p | p ≤ buf.length} := by
  have horder : ∀ q ≤ buf.length, ∀ p < q, (pos buf p).line < (pos buf q).line ∨
      (pos buf p).line = (pos buf q).line ∧ (pos buf p).column < (pos buf q).column := by
    intro q hq p hlt
    obtain ⟨r, hr, -⟩ := exists_newlines_append buf hlt.le
    simp only [pos_eq hq, pos_eq (hlt.le.trans hq), hr]
    cases r with
    | nil => exact .inr ⟨by simp, by simpa using hlt⟩
    | cons => exact .inl (by simp)
  refine ⟨fun p hp => ?_, horder, fun p hp q hq h => ?_⟩
  · rw [pos_eq hp]
    exact ⟨Nat.add_comm .., rfl⟩
  · obtain ⟨hline, hcolumn⟩ := Prod.mk.inj h
    rcases lt_trichotomy p q with hlt | rfl | hlt
    · have := horder q hq p hlt
      omega
    · rfl
    · have := horder p hp q hlt
      omega

end Please.Asp
