import Mathlib.Data.List.GetD
import Mathlib.Data.List.Infix

/-!
# Slices

Slices as Go has them: a header with an offset, a length and a capacity that points into an
array on the heap. Appending writes into the array while the capacity lasts and copies into a
new array after that, so two slices may share elements, and elements beyond the length of one
may lie within the length of another.

* `prefix_append`: the arrays of the heap stay as they are, unless elements are appended to a
  slice that has room for them.
-/

namespace Please.Lib

open List Option

/-- A slice header. A nil slice has no elements and no room for any. -/
structure Slice where
  array : ℕ
  offset : ℕ
  len : ℕ
  cap : ℕ
  isNil : Bool := false
  deriving DecidableEq

/-- The arrays that have been allocated, each with its elements. -/
abbrev Heap (α : Type*) := List (List α)

/-- The capacity that `append` allocates, from the old capacity and the length that is
needed. -/
structure Growth where
  cap : ℕ → ℕ → ℕ
  le_cap : ∀ c n, n ≤ cap c n

variable {α : Type*}

/-- Write `xs` from place `i` on. -/
def writeAt (i : ℕ) (xs a : List α) : List α := a.take i ++ xs ++ a.drop (i + xs.length)

namespace Slice

/-- The elements of a slice. -/
def contents (h : Heap α) (s : Slice) : List α :=
  ((h.getD s.array []).drop s.offset).take s.len

/-- `s[start:stop]`. -/
def reslice (s : Slice) (start stop : ℕ) : Slice :=
  { s with offset := s.offset + start, len := stop - start, cap := s.cap - start }

/-- `slices.Clip`. -/
def clip (s : Slice) : Slice := { s with cap := s.len }

/-- The heap after `for i := range s { s[i] = f(s[i]) }`. -/
def modifyEach (f : α → α) (h : Heap α) (s : Slice) : Heap α :=
  (List.range s.len).foldl (fun h i => h.modify s.array (·.modify (s.offset + i) f)) h

/-- The slice has spare capacity for `n` more elements. -/
def HasRoom (s : Slice) (n : ℕ) : Prop := s.len + n ≤ s.cap

instance (s : Slice) (n : ℕ) : Decidable (s.HasRoom n) := inferInstanceAs (Decidable (_ ≤ _))

section operations

variable [Inhabited α]

/-- A new array that holds `xs`, with room for more. -/
def alloc (h : Heap α) (xs : List α) (room : ℕ) : Slice × Heap α :=
  ({ array := h.length, offset := 0, len := xs.length, cap := xs.length + room },
    h ++ [xs ++ List.replicate room default])

/-- `append(s, xs...)`. -/
def append (G : Growth) (h : Heap α) (s : Slice) (xs : List α) : Slice × Heap α :=
  if s.HasRoom xs.length then
    ({ s with len := s.len + xs.length }, h.modify s.array (writeAt (s.offset + s.len) xs))
  else alloc h (s.contents h ++ xs) (G.cap s.cap (s.len + xs.length) - (s.len + xs.length))

end operations

/-! ## What appending leaves alone -/

variable {h h' : Heap α} {s : Slice}

/-- A slice keeps its contents as long as its array does. -/
theorem contents_of_isPrefix (hs : s.array < h.length) (hpre : h <+: h') :
    s.contents h' = s.contents h := by
  obtain ⟨t, rfl⟩ := hpre
  unfold contents
  rw [getD_append _ _ _ _ hs]

theorem writeAt_nil (i : ℕ) (a : List α) : writeAt i [] a = a := by
  simp [writeAt]

section operations

variable [Inhabited α] {G : Growth} {h : Heap α} {s : Slice} {xs : List α}

theorem prefix_alloc (h : Heap α) (xs : List α) (room : ℕ) : h <+: (alloc h xs room).2 :=
  prefix_append _ _

/-- Only what is appended to a slice with room changes an array. -/
theorem prefix_append (hroom : xs ≠ [] → ¬ s.HasRoom xs.length) : h <+: (append G h s xs).2 := by
  unfold append
  split_ifs with hr
  · obtain rfl : xs = [] := by
      by_contra hne
      exact hroom hne hr
    rw [show writeAt (s.offset + s.len) ([] : List α) = id from funext (writeAt_nil _), modify_id]
  · exact prefix_alloc _ _ _

/-- Appending to a slice of a later array leaves the earlier ones alone. -/
theorem prefix_append_of_le {h₀ : Heap α} (hpre : h₀ <+: h) (hs : h₀.length ≤ s.array) :
    h₀ <+: (append G h s xs).2 := by
  unfold append
  split_ifs
  · rw [modify_eq_take_drop]
    exact (prefix_take_iff.mpr ⟨hpre, hs⟩).trans (List.prefix_append _ _)
  · exact hpre.trans (prefix_alloc _ _ _)

theorem le_array_append {n : ℕ} (hs : n ≤ s.array) (hn : n ≤ h.length) :
    n ≤ (append G h s xs).1.array := by
  unfold append
  split_ifs
  · exact hs
  · exact hn

end operations

/-! ## Slices that lie within their arrays -/

/-- The slice lies within an array of the heap. -/
structure Valid (h : Heap α) (s : Slice) : Prop where
  len_le : s.len ≤ s.cap
  array : ∃ a, h[s.array]? = some a ∧ s.offset + s.cap ≤ a.length

/-- The arrays of `h` are still there, with the same lengths. -/
def Grows (h h' : Heap α) : Prop :=
  ∀ (i : ℕ) (a : List α), h[i]? = some a → ∃ a' : List α, h'[i]? = some a' ∧ a'.length = a.length

theorem Grows.refl (h : Heap α) : Grows h h := fun _ a ha => ⟨a, ha, rfl⟩

theorem Grows.trans {h₁ h₂ h₃ : Heap α} (h₁₂ : Grows h₁ h₂) (h₂₃ : Grows h₂ h₃) : Grows h₁ h₃ := by
  intro i a ha
  obtain ⟨a', ha', hlen⟩ := h₁₂ i a ha
  obtain ⟨a'', ha'', hlen'⟩ := h₂₃ i a' ha'
  exact ⟨a'', ha'', hlen'.trans hlen⟩

theorem Grows.of_isPrefix (hpre : h <+: h') : Grows h h' := by
  obtain ⟨t, rfl⟩ := hpre
  intro i a ha
  have hi : i < h.length := (List.getElem?_eq_some_iff.mp ha).1
  exact ⟨a, by rw [List.getElem?_append_left hi, ha], rfl⟩

theorem Grows.length_le (hgrows : Grows h h') : h.length ≤ h'.length := by
  by_contra hlt
  have hi : h'.length < h.length := not_le.mp hlt
  obtain ⟨a', ha', -⟩ := hgrows h'.length _ (List.getElem?_eq_getElem hi)
  exact absurd (List.getElem?_eq_some_iff.mp ha').1 (lt_irrefl _)

theorem Valid.mono (hs : s.Valid h) (hgrows : Grows h h') : s.Valid h' := by
  obtain ⟨a, ha, hcap⟩ := hs.array
  obtain ⟨a', ha', hlen⟩ := hgrows _ a ha
  exact ⟨hs.len_le, a', ha', by omega⟩

theorem Valid.array_lt (hs : s.Valid h) : s.array < h.length := by
  obtain ⟨a, ha, -⟩ := hs.array
  exact (List.getElem?_eq_some_iff.mp ha).1

theorem Valid.length_contents (hs : s.Valid h) : (s.contents h).length = s.len := by
  obtain ⟨a, ha, hcap⟩ := hs.array
  have hlen := hs.len_le
  rw [contents, getD_eq_getElem?_getD, ha, getD_some, length_take, length_drop]
  omega

theorem Valid.clip (hs : s.Valid h) : s.clip.Valid h := by
  obtain ⟨a, ha, hcap⟩ := hs.array
  have hlen := hs.len_le
  exact ⟨le_rfl, a, ha, by simp only [Slice.clip]; omega⟩

theorem Valid.reslice {start stop : ℕ} (hs : s.Valid h) (hstart : start ≤ stop)
    (hstop : stop ≤ s.cap) : (s.reslice start stop).Valid h := by
  obtain ⟨a, ha, hcap⟩ := hs.array
  exact ⟨by simp only [Slice.reslice]; omega, a, ha, by simp only [Slice.reslice]; omega⟩

theorem contents_reslice (h : Heap α) {start stop : ℕ} (hstop : stop ≤ s.len) :
    (s.reslice start stop).contents h = ((s.contents h).take stop).drop start := by
  rw [contents, contents, reslice, take_take, min_eq_left hstop, drop_take, drop_drop]

variable {xs a : List α} {i : ℕ}

theorem length_writeAt (h : i + xs.length ≤ a.length) : (writeAt i xs a).length = a.length := by
  simp only [writeAt, length_append, length_take, length_drop]
  omega

theorem drop_take_writeAt {offset len : ℕ} (h : offset + len ≤ a.length) :
    ((writeAt (offset + len) xs a).drop offset).take (len + xs.length) =
      (a.drop offset).take len ++ xs := by
  have htake : (a.take (offset + len)).length = offset + len := by
    rw [length_take]
    omega
  have hlen : ((a.drop offset).take len).length = len := by
    rw [length_take, length_drop]
    omega
  unfold writeAt
  rw [append_assoc, drop_append_of_le_length (by omega), drop_take,
    Nat.add_sub_cancel_left, take_append, hlen, Nat.add_sub_cancel_left, take_left,
    take_of_length_le (by omega)]

/-! ### Elements that are replaced -/

variable (f : α → α)

theorem getD_foldl_modify (i offset : ℕ) (places : List ℕ) (h : Heap α) :
    (places.foldl (fun h j => h.modify i (·.modify (offset + j) f)) h).getD i [] =
      places.foldl (fun a j => a.modify (offset + j) f) (h.getD i []) := by
  induction places generalizing h with
  | nil => rfl
  | cons j _ ih =>
    rw [foldl_cons, foldl_cons, ih]
    rw [getD_eq_getElem?_getD, getD_eq_getElem?_getD, getElem?_modify_eq]
    cases h[i]? <;> simp

/-- After the first `n` elements from `offset` on. -/
theorem getElem?_foldl_modify (offset n j : ℕ) (a : List α) :
    ((List.range n).foldl (fun a i => a.modify (offset + i) f) a)[offset + j]? =
      if j < n then a[offset + j]?.map f else a[offset + j]? := by
  induction n with
  | zero => rfl
  | succ n ih =>
    rw [range_succ, foldl_append, foldl_cons, foldl_nil, getElem?_modify, ih]
    by_cases hj : j = n
    · subst hj
      simp
    · have hne : offset + n ≠ offset + j := by omega
      have hlt : j < n + 1 ↔ j < n := by omega
      simp only [hne, hlt, if_false]
      exact map_id'

theorem contents_modifyEach (h : Heap α) (s : Slice) :
    s.contents (s.modifyEach f h) = (s.contents h).map f := by
  refine ext_getElem? fun j => ?_
  rw [contents, modifyEach, getD_foldl_modify, getElem?_map, contents]
  by_cases hj : j < s.len
  · rw [getElem?_take_of_lt hj, getElem?_drop, getElem?_foldl_modify, if_pos hj,
      getElem?_take_of_lt hj, getElem?_drop]
  · rw [getElem?_take_eq_none (by omega), getElem?_take_eq_none (by omega), map_none]

theorem mem_writeAt {x : α} (hx : x ∈ writeAt i xs a) : x ∈ a ∨ x ∈ xs := by
  simp only [writeAt, mem_append] at hx
  rcases hx with (hx | hx) | hx
  · exact .inl (mem_of_mem_take hx)
  · exact .inr hx
  · exact .inl (mem_of_mem_drop hx)

theorem forall_mem_getD {β : Type*} {l : List β} {d : β} {Q : β → Prop}
    (h : ∀ x ∈ l, Q x) (hd : Q d)
    (i : ℕ) : Q (l.getD i d) := by
  rw [getD_eq_getElem?_getD]
  cases hi : l[i]? with
  | none => exact hd
  | some x => exact h x (mem_of_getElem? hi)

theorem mem_of_mem_contents {x : α} (hx : x ∈ s.contents h) : x ∈ h.flatten := by
  have hx' : x ∈ h.getD s.array [] := mem_of_mem_drop (mem_of_mem_take hx)
  have hall : ∀ a ∈ h, ∀ y ∈ a, y ∈ h.flatten := fun a ha y hy => mem_flatten_of_mem ha hy
  exact forall_mem_getD hall (forall_mem_nil _) s.array x hx'

section operations

variable [Inhabited α] {G : Growth} {h : Heap α} {s : Slice} {xs : List α}

theorem valid_alloc (h : Heap α) (xs : List α) (room : ℕ) :
    (alloc h xs room).1.Valid (alloc h xs room).2 :=
  ⟨Nat.le_add_right _ _, xs ++ replicate room default, by simp [alloc], by simp [alloc]⟩

theorem contents_alloc (h : Heap α) (xs : List α) (room : ℕ) :
    (alloc h xs room).1.contents (alloc h xs room).2 = xs := by
  simp [alloc, contents]

theorem grows_append (hs : s.Valid h) : Grows h (append G h s xs).2 := by
  unfold append
  split_ifs with hr
  · obtain ⟨b, hb, hcap⟩ := hs.array
    unfold HasRoom at hr
    intro i a ha
    refine ⟨_, by rw [getElem?_modify, ha]; rfl, ?_⟩
    split_ifs with hi
    · subst hi
      obtain rfl : b = a := some.inj (hb.symm.trans ha)
      exact length_writeAt (by omega)
    · rfl
  · exact .of_isPrefix (prefix_alloc _ _ _)

theorem valid_append (hs : s.Valid h) : (append G h s xs).1.Valid (append G h s xs).2 := by
  have hgrows : Grows h (append G h s xs).2 := grows_append hs
  unfold append at hgrows ⊢
  split_ifs at hgrows ⊢ with hr
  · obtain ⟨a, ha, hcap⟩ := (hs.mono hgrows).array
    exact ⟨hr, a, ha, hcap⟩
  · exact valid_alloc _ _ _

/-- What is appended stands after what was there. -/
theorem contents_append (hs : s.Valid h) :
    (append G h s xs).1.contents (append G h s xs).2 = s.contents h ++ xs := by
  unfold append
  split_ifs with hr
  · obtain ⟨a, ha, hcap⟩ := hs.array
    unfold HasRoom at hr
    have hmodify : (h.modify s.array (writeAt (s.offset + s.len) xs)).getD s.array [] =
        writeAt (s.offset + s.len) xs a := by
      rw [getD_eq_getElem?_getD, getElem?_modify, ha]
      simp
    have hlen : s.offset + s.len ≤ a.length := by omega
    unfold contents
    rw [hmodify, getD_eq_getElem?_getD, ha, getD_some]
    exact drop_take_writeAt hlen
  · exact contents_alloc _ _ _

theorem mem_alloc {room : ℕ} {x : α} (hx : x ∈ (alloc h xs room).2.flatten) :
    x ∈ h.flatten ∨ x ∈ xs ∨ x = default := by
  simp only [alloc, flatten_append, flatten_singleton, mem_append, mem_replicate] at hx
  rcases hx with hx | hx | hx
  · exact .inl hx
  · exact .inr (.inl hx)
  · exact .inr (.inr hx.2)

/-- The elements that a heap holds after appending. -/
theorem mem_append {x : α} (hx : x ∈ (append G h s xs).2.flatten) :
    x ∈ h.flatten ∨ x ∈ xs ∨ x = default := by
  unfold append at hx
  split_ifs at hx
  · obtain ⟨a', ha', hx⟩ := mem_flatten.mp hx
    obtain ⟨i, hi⟩ := mem_iff_getElem?.mp ha'
    rw [getElem?_modify] at hi
    obtain ⟨a, ha, rfl⟩ := map_eq_some_iff.mp hi
    split_ifs at hx
    · rcases mem_writeAt hx with hx | hx
      · exact .inl (mem_flatten_of_mem (mem_of_getElem? ha) hx)
      · exact .inr (.inl hx)
    · exact .inl (mem_flatten_of_mem (mem_of_getElem? ha) hx)
  · rcases mem_alloc hx with hx | hx | hx
    · exact .inl hx
    · rcases List.mem_append.mp hx with hx | hx
      · exact .inl (mem_of_mem_contents hx)
      · exact .inr (.inl hx)
    · exact .inr (.inr hx)

end operations

end Slice

end Please.Lib
