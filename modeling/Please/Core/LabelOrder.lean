import Please.Core.Target
import Mathlib.Data.Prod.Lex

/-!
# The order of labels

`BuildLabel.Less` (`src/core/build_label.go`, lines 334–341) is the lexicographic order of subrepo,
package and name. So a list of labels has one sorted form, whatever its order was.
-/

namespace Please.Core

open Please.Core.BuildGraph (labelLe)

namespace BuildLabel

/-- The fields in the order in which they are compared. -/
def sortKey (l : BuildLabel) : String ×ₗ String ×ₗ String :=
  toLex (l.subrepo, toLex (l.packageName, l.name))

theorem sortKey_injective : Function.Injective sortKey := by
  rintro ⟨pkg, name, subrepo⟩ ⟨pkg', name', subrepo'⟩ h
  obtain ⟨rfl, rfl, rfl⟩ := h
  rfl

theorem less_iff {a b : BuildLabel} : a.less b = true ↔ a.sortKey < b.sortKey := by
  rw [less, sortKey, sortKey, Prod.Lex.toLex_lt_toLex, Prod.Lex.toLex_lt_toLex]
  by_cases hsubrepo : a.subrepo = b.subrepo
  · by_cases hpkg : a.packageName = b.packageName
    · simp [hsubrepo, hpkg]
    · simp [hsubrepo, hpkg]
  · simp [hsubrepo]

theorem labelLe_iff {a b : BuildLabel} : labelLe a b ↔ a.sortKey ≤ b.sortKey := by
  rw [labelLe, Bool.eq_false_iff, ne_eq, less_iff, not_lt]

instance : Std.Total labelLe := ⟨fun a b => by simpa only [labelLe_iff] using le_total _ _⟩

instance : IsTrans BuildLabel labelLe := ⟨fun a b c => by simpa only [labelLe_iff] using le_trans⟩

instance : Std.Antisymm labelLe :=
  ⟨fun _ _ hab hba => sortKey_injective (le_antisymm (labelLe_iff.mp hab) (labelLe_iff.mp hba))⟩

theorem pairwise_less_insertionSort {ls : List BuildLabel} (h : ls.Nodup) :
    (ls.insertionSort labelLe).Pairwise fun a b => a.less b = true := by
  have hnodup : (ls.insertionSort labelLe).Nodup := (List.perm_insertionSort _ ls).nodup_iff.mpr h
  refine ((List.pairwise_insertionSort labelLe ls).and hnodup).imp fun ⟨hle, hne⟩ => ?_
  exact less_iff.mpr (lt_of_le_of_ne (labelLe_iff.mp hle) fun h => hne (sortKey_injective h))

end BuildLabel

end Please.Core
