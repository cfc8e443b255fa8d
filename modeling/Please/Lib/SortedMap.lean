import Mathlib.Data.List.Sort
import Mathlib.Data.String.Basic

/-!
# Finite maps with sorted keys

A map is the list of its entries in strictly increasing order of the keys, so
two maps are equal exactly if they have the same entries, and going through the
keys of a hash map in sorted order is going through the list.

* `lookup_insert`: reading after writing.
* `ext_lookup`: a map is determined by what is read from it.
-/

namespace Please.Lib

open List

/-- What holds after steps each of which may bring it about and none of which undoes it. -/
theorem foldl_iff_or {σ α : Type*} {f : σ → α → σ} {p : σ → Prop} {q : α → Prop}
    (h : ∀ s a, p (f s a) ↔ p s ∨ q a) {as : List α} {s : σ} :
    p (as.foldl f s) ↔ p s ∨ ∃ a ∈ as, q a := by
  induction as generalizing s with
  | nil => simp
  | cons a as ih => rw [foldl_cons, ih, h, or_assoc, exists_mem_cons_iff]

/-- Entries with strictly increasing keys. -/
@[ext]
structure SortedMap (K α : Type) [LinearOrder K] where
  entries : List (K × α)
  sorted : entries.Pairwise fun a b => a.1 < b.1

namespace SortedMap

variable {K α : Type} [LinearOrder K]

instance [DecidableEq α] : DecidableEq (SortedMap K α) := fun m n =>
  decidable_of_iff (m.entries = n.entries) (SortedMap.ext_iff).symm

/-- The map without entries. -/
def empty : SortedMap K α := ⟨[], .nil⟩

instance : Inhabited (SortedMap K α) := ⟨empty⟩

/-- The first value with the given key. -/
def lookupList (k : K) : List (K × α) → Option α
  | [] => none
  | (k', v) :: rest => if k = k' then some v else lookupList k rest

/-- Put the entry in its place, in place of an entry with the same key. -/
def insertList (k : K) (v : α) : List (K × α) → List (K × α)
  | [] => [(k, v)]
  | (k', v') :: rest =>
    if k < k' then (k, v) :: (k', v') :: rest
    else if k = k' then (k, v) :: rest
    else (k', v') :: insertList k v rest

def lookup (m : SortedMap K α) (k : K) : Option α := lookupList k m.entries

/-- The keys, in order. -/
def keys (m : SortedMap K α) : List K := m.entries.map Prod.fst

/-- The values, in the order of their keys. -/
def values (m : SortedMap K α) : List α := m.entries.map Prod.snd

theorem mem_insertList {k : K} {v : α} {e : K × α} {l : List (K × α)} (h : e ∈ insertList k v l) :
    e = (k, v) ∨ e ∈ l := by
  induction l with
  | nil => exact .inl (mem_singleton.mp h)
  | cons hd tl ih =>
    unfold insertList at h
    split_ifs at h
    · exact mem_cons.mp h
    · exact (mem_cons.mp h).imp id fun h => mem_cons_of_mem _ h
    · rcases mem_cons.mp h with h | h
      · exact .inr (h ▸ mem_cons_self)
      · exact (ih h).imp id fun h => mem_cons_of_mem _ h

theorem insertList_sorted (k : K) (v : α) {l : List (K × α)}
    (h : l.Pairwise fun a b => a.1 < b.1) : (insertList k v l).Pairwise fun a b => a.1 < b.1 := by
  induction l with
  | nil => exact pairwise_singleton _ _
  | cons hd tl ih =>
    obtain ⟨hhd, htl⟩ := pairwise_cons.mp h
    unfold insertList
    split_ifs with hlt heq
    · refine pairwise_cons.mpr ⟨fun e he => ?_, h⟩
      rcases mem_cons.mp he with rfl | he
      · exact hlt
      · exact hlt.trans (hhd e he)
    · exact pairwise_cons.mpr ⟨fun e he => by rw [heq]; exact hhd e he, htl⟩
    · refine pairwise_cons.mpr ⟨fun e he => ?_, ih htl⟩
      rcases mem_insertList he with rfl | he
      · exact lt_of_le_of_ne (not_lt.mp hlt) (Ne.symm heq)
      · exact hhd e he

/-- The Go statement `m[k] = v`. -/
def insert (m : SortedMap K α) (k : K) (v : α) : SortedMap K α :=
  ⟨insertList k v m.entries, insertList_sorted k v m.sorted⟩

theorem lookupList_insertList (k k' : K) (v : α) (l : List (K × α)) :
    lookupList k' (insertList k v l) = if k' = k then some v else lookupList k' l := by
  induction l with
  | nil => rfl
  | cons hd tl ih =>
    unfold insertList
    by_cases hlt : k < hd.1
    · rw [if_pos hlt]; rfl
    · rw [if_neg hlt]
      by_cases heq : k = hd.1
      · rw [if_pos heq, lookupList, lookupList, ← heq]
        split_ifs <;> rfl
      · rw [if_neg heq, lookupList, lookupList, ih]
        split_ifs with h₁ h₂
        · exact absurd (h₂.symm.trans h₁) heq
        · rfl
        · rfl
        · rfl

variable (m : SortedMap K α)

theorem lookup_insert (k k' : K) (v : α) :
    (m.insert k v).lookup k' = if k' = k then some v else m.lookup k' :=
  lookupList_insertList k k' v m.entries

theorem lookup_empty (k : K) : (empty : SortedMap K α).lookup k = none := rfl

theorem lookup_eq_some_iff {m : SortedMap K α} {k : K} {v : α} :
    m.lookup k = some v ↔ (k, v) ∈ m.entries := by
  obtain ⟨entries, hsorted⟩ := m
  rw [lookup]
  induction entries with
  | nil => simp [lookupList]
  | cons e entries ih =>
    obtain ⟨hfirst, hrest⟩ := pairwise_cons.mp hsorted
    rw [lookupList, mem_cons]
    split
    case isTrue hk =>
      subst hk
      have hno : (e.1, v) ∉ entries := fun hmem => lt_irrefl e.1 (hfirst (e.1, v) hmem)
      rw [or_iff_left hno, Option.some.injEq, Prod.ext_iff]
      exact ⟨fun h => ⟨rfl, h.symm⟩, fun h => h.2.symm⟩
    case isFalse hk => rw [ih hrest, or_iff_right fun heq => hk (congrArg Prod.fst heq)]

theorem ext_lookup {m n : SortedMap K α} (h : ∀ k, m.lookup k = n.lookup k) : m = n := by
  refine SortedMap.ext (m.sorted.eq_of_mem_iff n.sorted fun e => ?_)
  rw [← lookup_eq_some_iff, ← lookup_eq_some_iff, h]

theorem keys_sorted : m.keys.Pairwise (· < ·) := pairwise_map.mpr m.sorted

/-- Going through the keys and looking them up is going through the entries. -/
theorem map_keys {β : Type} (f : K → Option α → β) :
    m.keys.map (fun k => f k (m.lookup k)) = m.entries.map fun e => f e.1 (some e.2) := by
  rw [keys, map_map]
  refine map_congr_left fun e he => ?_
  rw [Function.comp_apply, lookup_eq_some_iff.mpr he]

end SortedMap

end Please.Lib
