import Please.Core.Package

/-!
# Labels made from labels

Model of `tagName` (`src/parse/asp/builtins.go`, lines 276–286), by which a rule names the targets
it adds, and of `LabelToArch` (`src/core/subrepo.go`, lines 95–110) with `SplitSubrepoArch`
(`src/core/build_label.go`, lines 163–168).

* `parent_tagName_eq_iff`: for which names a tag keeps the parent.
* `labelToArch_converts_iff`: for which subrepos the result is the subrepo for the architecture.
-/

namespace Please.Core

open Please.Lib List BuildLabel
open Please.Fs (Bytes)
open Please.Build (utf8)

/-! ## Tags -/

/-- `tagName`, for a name that is not empty. -/
def tagName (name tag : String) : String :=
  let name := if name.toList.head? = some '_' then name else "_" ++ name
  (if '#' ∈ name.toList then name ++ "_" else name ++ "#") ++ tag

theorem toList_tagName (name tag : String) :
    (tagName name tag).toList =
      (if name.toList.head? = some '_' then name.toList else '_' :: name.toList) ++
        (if '#' ∈ name.toList then '_' else '#') :: tag.toList := by
  unfold tagName
  split_ifs <;> simp_all

section tags

variable {label : BuildLabel} {u v : List Char}

theorem parent_of_tagged (hname : label.name.toList = u ++ '#' :: v) (hu : '#' ∉ u)
    (hhead : u.head? = some '_') :
    label.parent = { label with name := String.ofList (u.dropWhile (· = '_')) } := by
  have htake : (u ++ '#' :: v).takeWhile (· ≠ '#') = u := by
    rw [takeWhile_append_of_pos fun c hc => decide_eq_true (ne_of_mem_of_not_mem hc hu),
      takeWhile_cons_of_neg (by simp), append_nil]
  have hmarked : '#' ∈ u ++ '#' :: v ∧ (u ++ '#' :: v).head? = some '_' := by simp [hhead]
  simp only [parent, hname, htake, if_pos hmarked]

theorem parent_of_untagged
    (h : ¬ ('#' ∈ label.name.toList ∧ label.name.toList.head? = some '_')) :
    label.parent = label := by
  simp only [parent, if_neg h]

/-- Where a tag is misread, the parent that it gives has a shorter name. -/
theorem ofList_dropWhile_ne {name : String} (hhead : u.head? = some '_')
    (hlen : u.length ≤ name.toList.length) : String.ofList (u.dropWhile (· = '_')) ≠ name := by
  rintro rfl
  obtain ⟨w, rfl⟩ := head?_eq_some_iff.mp hhead
  have hdrop := (dropWhile_suffix (l := w) (· = '_')).length_le
  simp at hlen
  omega

end tags

/-- Tagging keeps the parent of a plain name and of a name that is tagged already. -/
theorem parent_tagName_eq_iff (label : BuildLabel) (tag : String) :
    ({ label with name := tagName label.name tag } : BuildLabel).parent = label.parent ↔
      ('#' ∈ label.name.toList ↔ label.name.toList.head? = some '_') := by
  obtain ⟨pkg, name, subrepo⟩ := label
  by_cases hhash : '#' ∈ name.toList <;> by_cases hhead : name.toList.head? = some '_'
  · obtain ⟨u, v, hname, hu⟩ := eq_append_cons_of_mem hhash
    have huhead : u.head? = some '_' := by
      cases u
      · simp [hname] at hhead
      · simpa [hname] using hhead
    rw [parent_of_tagged (v := v ++ '_' :: tag.toList)
        (by rw [toList_tagName, if_pos hhead, if_pos hhash, hname]; simp) hu huhead,
      parent_of_tagged hname hu huhead]
    simp [hhash, hhead]
  · obtain ⟨u, v, hname, hu⟩ := eq_append_cons_of_mem hhash
    rw [parent_of_tagged (u := '_' :: u) (v := v ++ '_' :: tag.toList)
        (by rw [toList_tagName, if_neg hhead, if_pos hhash, hname]; simp) (by simp [hu]) rfl,
      parent_of_untagged (by simp [hhead])]
    have hlen : ('_' :: u).length ≤ name.toList.length := by simp [hname]
    simpa [hhash, hhead] using ofList_dropWhile_ne rfl hlen
  · rw [parent_of_tagged (u := name.toList) (v := tag.toList)
        (by simp [toList_tagName, hhash, hhead]) hhash hhead,
      parent_of_untagged (by simp [hhash])]
    simpa [hhash, hhead] using ofList_dropWhile_ne hhead le_rfl
  · rw [parent_of_tagged (u := '_' :: name.toList) (v := tag.toList)
        (by simp [toList_tagName, hhash, hhead]) (by simp [hhash]) rfl,
      parent_of_untagged (by simp [hhash])]
    have hdrop : ('_' :: name.toList).dropWhile (· = '_') = name.toList := by
      cases h : name.toList <;> simp_all
    simp [hhash, hhead, hdrop]

/-- A name that begins with an underscore gets a parent by its first tag. -/
theorem parent_tagName_underscore :
    parent ⟨"p", tagName "_lib" "srcs", ""⟩ = ⟨"p", "lib", ""⟩ ∧
      parent ⟨"p", "_lib", ""⟩ = ⟨"p", "_lib", ""⟩ := by
  decide

/-! ## Architectures -/

/-- `cli.Arch`; `UnmarshalFlag` (`src/cli/flags.go`, line 260) refuses an `@`. -/
structure Arch where
  os : Bytes
  arch : Bytes
  noAt : commercialAt ∉ os ++ arch

/-- `Arch.String`: the two parts with an underscore between them. -/
def Arch.string (arch : Arch) : Bytes := arch.os ++ 95 :: arch.arch

/-- `SplitSubrepoArch`. -/
def splitSubrepoArch (subrepoName : Bytes) : Bytes × Bytes :=
  match lastIndexByte commercialAt subrepoName with
  | some idx => (subrepoName.take idx, subrepoName.drop (idx + 1))
  | none => (subrepoName, [])

/-- `LabelToArch`, on the subrepo of the label. -/
def labelToArch (label : Label) (arch : Arch) : Label :=
  if label.subrepo = [] then { label with subrepo := arch.string }
  else if arch.string.isSuffixOf label.subrepo then label
  else { label with subrepo := label.subrepo ++ commercialAt :: arch.string }

variable {arch : Arch}

theorem Arch.commercialAt_notMem (arch : Arch) : commercialAt ∉ arch.string := by
  have h := arch.noAt
  simp only [mem_append, not_or] at h
  simpa [Arch.string, h] using show commercialAt ≠ 95 by decide

theorem splitSubrepoArch_append {s : Bytes} :
    splitSubrepoArch (s ++ commercialAt :: arch.string) = (s, arch.string) := by
  simp [splitSubrepoArch, lastIndexByte_append_cons _ _ arch.commercialAt_notMem]

/-- The architecture is a part of its own only after an `@`. -/
theorem splitSubrepoArch_snd_eq_iff {s : Bytes} :
    (splitSubrepoArch s).2 = arch.string ↔ commercialAt :: arch.string <:+ s := by
  constructor
  · intro h
    unfold splitSubrepoArch at h
    split at h
    · rename_i idx hidx
      obtain ⟨u, v, rfl, -, rfl⟩ := lastIndexByte_eq_some_iff.mp hidx
      exact ⟨u, by simpa using h.symm⟩
    · simp [Arch.string] at h
  · rintro ⟨u, rfl⟩
    rw [splitSubrepoArch_append]

theorem splitSubrepoArch_fst_eq_iff {s : Bytes} :
    (splitSubrepoArch s).1 = s ↔ commercialAt ∉ s := by
  rw [splitSubrepoArch, ← lastIndexByte_eq_none_iff]
  cases h : lastIndexByte commercialAt s with
  | none => simp
  | some =>
    obtain ⟨u, v, rfl, -, rfl⟩ := lastIndexByte_eq_some_iff.mp h
    simp

section conversion

variable {label : Label}

theorem labelToArch_of_suffix (h : arch.string <:+ label.subrepo) :
    labelToArch label arch = label := by
  have hne : label.subrepo ≠ [] := fun hnil => by simp [hnil, Arch.string] at h
  rw [labelToArch, if_neg hne, if_pos (isSuffixOf_iff_suffix.mpr h)]

theorem suffix_labelToArch : arch.string <:+ (labelToArch label arch).subrepo := by
  unfold labelToArch
  split_ifs with _ hsuffix
  · exact suffix_rfl
  · exact isSuffixOf_iff_suffix.mp hsuffix
  · exact (suffix_cons _ _).trans (suffix_append _ _)

end conversion

/-- `result` is the subrepo `s` for the architecture: the name of the architecture alone for the
repository itself, and otherwise the name of `s` with this architecture. -/
def ForArch (arch : Arch) (s result : Bytes) : Prop :=
  if s = [] ∨ s = arch.string then result = arch.string
  else splitSubrepoArch result = ((splitSubrepoArch s).1, arch.string)

/-- The result is right for the repository itself, for a subrepo of this architecture, and for one
of no architecture unless its own name ends like the architecture. -/
theorem labelToArch_converts_iff (label : Label) (arch : Arch) :
    labelToArch (labelToArch label arch) arch = labelToArch label arch ∧
      (ForArch arch label.subrepo (labelToArch label arch).subrepo ↔
        label.subrepo = [] ∨ label.subrepo = arch.string ∨
          commercialAt :: arch.string <:+ label.subrepo ∨
          (commercialAt ∉ label.subrepo ∧ ¬ arch.string <:+ label.subrepo)) := by
  refine ⟨labelToArch_of_suffix suffix_labelToArch, ?_⟩
  by_cases hs : label.subrepo = [] ∨ label.subrepo = arch.string
  · rw [ForArch, if_pos hs, ← or_assoc, iff_true_right (.inl hs)]
    obtain hs | hs := hs
    · simp [labelToArch, hs]
    · rw [labelToArch_of_suffix (by simp [hs]), hs]
  rw [ForArch, if_neg hs, ← or_assoc, or_iff_right hs]
  by_cases hsuffix : arch.string <:+ label.subrepo
  · rw [labelToArch_of_suffix hsuffix, Prod.ext_iff, splitSubrepoArch_snd_eq_iff]
    simp [hsuffix]
  · have hat : ¬ commercialAt :: arch.string <:+ label.subrepo :=
      fun h => hsuffix ((suffix_cons _ _).trans h)
    rw [labelToArch, if_neg (not_or.mp hs).1, if_neg (mt isSuffixOf_iff_suffix.mp hsuffix),
      splitSubrepoArch_append, Prod.mk.injEq, eq_comm, splitSubrepoArch_fst_eq_iff]
    simp [hat, hsuffix]

/-- A subrepo of one architecture converted to another is left with both. -/
theorem labelToArch_twice :
    let darwin : Arch := ⟨utf8 "darwin", utf8 "arm64", by decide⟩
    let label : Label := ⟨utf8 "pkg", utf8 "lib", utf8 "foo@linux_x86"⟩
    (labelToArch label darwin).subrepo = utf8 "foo@linux_x86@darwin_arm64" ∧
      ¬ ForArch darwin label.subrepo (labelToArch label darwin).subrepo := by
  unfold ForArch
  decide +kernel

end Please.Core
