import Please.Query.ReverseDeps
import Please.Core.LabelOrder
import Please.Fs.Path

/-!
# Changed targets

Model of `changedTargets` (`query/changes.go`), with `HasSource` and `HasAbsoluteSource`
(`core/build_target.go`).

Specification: the seeds are the targets that changed to begin with and, for each file, those of the
closest package above it that have it as a source (`IsSeed`).

* `mem_changedLabels`: exactly the targets that depend on a seed at a distance within the level are
  listed, once each.
-/

namespace Please.Query

open Please.Core BuildTarget
open Please.Fs (hasPrefix trimPrefix pathDir length_pathDir)
open Please.Lib.Bfs List

/-! ## The sources of a target -/

/-- `BuildTarget.HasSource` (lines 1670–1678). -/
def hasSource (target : BuildTarget) (source : String) : Bool :=
  (target.allSources ++ target.allData).any fun src =>
    src.toStr = source || hasPrefix source (src.toStr ++ "/")

/-- `BuildTarget.HasAbsoluteSource` (lines 1682–1684). -/
def hasAbsoluteSource (target : BuildTarget) (source : String) : Bool :=
  hasSource target (trimPrefix source (target.label.packageName ++ "/"))

/-! ## The search -/

variable (graph : PackageGraph)

/-- The package of a directory (lines 51–55). -/
def packageAt (dir : String) : Option Package :=
  package graph (if dir = "." then "" else dir) ""

/-- The loop over the directories above a file (lines 47–64), from `dir` on. -/
def closestPackage : ℕ → (dir : String) → Option Package
  | 0, _ => none
  | fuel + 1, dir =>
    if dir = "." ∨ dir = "/" then none
    else match packageAt graph (pathDir dir) with
      | some pkg => some pkg
      | none => closestPackage fuel (pathDir dir)

/-- The body of the loop over the files (lines 46–65). -/
def addFile (changed : List BuildTarget) (filename : String) : List BuildTarget :=
  match closestPackage graph (filename.length + 2) filename with
  | none => changed
  | some pkg =>
    (pkg.targets.filter (hasAbsoluteSource · filename)).foldl (fun changed t => changed.insert t)
      changed

/-- `changedTargets` up to the filter (lines 45–78). The lists are in some order of the maps. -/
def changedLabels (files : List String) (changed : List BuildTarget) (level : ℤ)
    (includeSubrepos : Bool) : Option (List BuildLabel) :=
  let changed := files.foldl (addFile graph) changed
  let labels := changed.map label
  if level ≠ 0 then do
    let revdeps ← findRevdeps graph ⟨true, false, includeSubrepos, level⟩ labels
    some (labels ++ (revdeps.filter (· ∉ changed)).map label)
  else some labels

/-- `changedTargets` (lines 46–90); `shouldInclude` is the condition in line 83. -/
def changedTargets (files : List String) (changed : List BuildTarget) (level : ℤ)
    (includeSubrepos : Bool) (shouldInclude : BuildTarget → Bool) : Option (List BuildLabel) := do
  let labels ← changedLabels graph files changed level includeSubrepos
  let targets ← labels.mapM graph.target
  some (((targets.filter shouldInclude).map label).insertionSort BuildGraph.labelLe)

/-! ## The closest package -/

/-- The closest package above a file: none of the directories below it has one. -/
def Closest (filename : String) (pkg : Package) : Prop :=
  ∃ n, (∀ m ≤ n, pathDir^[m] filename ≠ "." ∧ pathDir^[m] filename ≠ "/") ∧
    (∀ m < n, packageAt graph (pathDir^[m + 1] filename) = none) ∧
    packageAt graph (pathDir^[n + 1] filename) = some pkg

variable {graph} {pkg : Package}

theorem closest_iff {filename : String} : Closest graph filename pkg ↔
    filename ≠ "." ∧ filename ≠ "/" ∧
      (packageAt graph (pathDir filename) = some pkg ∨
        packageAt graph (pathDir filename) = none ∧
          Closest graph (pathDir filename) pkg) := by
  unfold Closest
  -- nothing is used of `path.Dir`
  generalize pathDir = dir
  constructor
  · rintro ⟨n, hdirs, hnone, hpkg⟩
    refine ⟨(hdirs 0 (Nat.zero_le _)).1, (hdirs 0 (Nat.zero_le _)).2, ?_⟩
    cases n with
    | zero => exact .inl hpkg
    | succ n =>
      refine .inr ⟨hnone 0 (Nat.zero_lt_succ _), n, fun m hm => ?_, fun m hm => ?_, hpkg⟩
      · exact hdirs (m + 1) (Nat.succ_le_succ hm)
      · exact hnone (m + 1) (Nat.succ_lt_succ hm)
  · rintro ⟨hdot, hslash, hpkg | ⟨hnone, n, hdirs, hnone', hpkg⟩⟩
    · exact ⟨0, fun m hm => by simpa [Nat.le_zero.mp hm] using ⟨hdot, hslash⟩, by simp, hpkg⟩
    · refine ⟨n + 1, fun m hm => ?_, fun m hm => ?_, hpkg⟩
      · cases m with
        | zero => exact ⟨hdot, hslash⟩
        | succ m => exact hdirs m (Nat.le_of_succ_le_succ hm)
      · cases m with
        | zero => exact hnone
        | succ m => exact hnone' m (Nat.lt_of_succ_lt_succ hm)

/-- Nothing is above the root. -/
theorem closestPackage_root {fuel : ℕ} {dir : String} (hdir : dir = "." ∨ dir = "/") :
    closestPackage graph fuel dir = some pkg ↔ Closest graph dir pkg := by
  refine iff_of_false ?_ fun h => ?_
  · cases fuel with
    | zero => simp [closestPackage]
    | succ => simp [closestPackage, hdir]
  · obtain ⟨hdot, hslash, -⟩ := closest_iff.mp h
    exact hdir.elim hdot hslash

/-- The loop finds the closest package. -/
theorem closestPackage_eq_some {fuel : ℕ} {filename : String} (hfuel : filename.length < fuel) :
    closestPackage graph fuel filename = some pkg ↔ Closest graph filename pkg := by
  induction fuel generalizing filename with
  | zero => omega
  | succ fuel ih =>
    by_cases hroot : filename = "." ∨ filename = "/"
    · exact closestPackage_root hroot
    · obtain ⟨hdot, hslash⟩ := not_or.mp hroot
      have hnext : closestPackage graph fuel (pathDir filename) = some pkg ↔
          Closest graph (pathDir filename) pkg := by
        rcases length_pathDir filename with h | h | h
        · exact closestPackage_root (.inl h)
        · exact closestPackage_root (.inr h)
        · exact ih (by omega)
      rw [closestPackage, closest_iff, if_neg hroot]
      cases packageAt graph (pathDir filename) with
      | some => simp [hdot, hslash]
      | none => simp [hdot, hslash, hnext]

/-! ## The targets that are listed -/

variable (graph) in
/-- A target that changed to begin with, or that has one of the files as a source and is in the
closest package above it. -/
def IsSeed (files : List String) (changed : List BuildTarget) (t : BuildTarget) : Prop :=
  t ∈ changed ∨ ∃ file ∈ files, ∃ pkg, Closest graph file pkg ∧ t ∈ pkg.targets ∧
    hasAbsoluteSource t file = true

variable {changed : List BuildTarget} {t : BuildTarget}

theorem mem_addFile {file : String} :
    t ∈ addFile graph changed file ↔ t ∈ changed ∨ ∃ pkg, Closest graph file pkg ∧
      t ∈ pkg.targets ∧ hasAbsoluteSource t file = true := by
  have hclosest {pkg : Package} : closestPackage graph (file.length + 2) file = some pkg ↔
      Closest graph file pkg := closestPackage_eq_some (by omega)
  rw [addFile]
  cases h : closestPackage graph (file.length + 2) file with
  | none =>
    refine ⟨.inl, fun h' => h'.elim id ?_⟩
    rintro ⟨pkg, hpkg, -⟩
    cases h.symm.trans (hclosest.mpr hpkg)
  | some pkg =>
    have hunique {pkg' : Package} (h' : Closest graph file pkg') : pkg' = pkg :=
      Option.some.inj ((hclosest.mpr h').symm.trans h)
    simp only [mem_foldl_insert, mem_filter]
    refine or_congr_right ⟨fun h' => ⟨pkg, hclosest.mp h, h'⟩, ?_⟩
    rintro ⟨pkg', hpkg', h'⟩
    exact hunique hpkg' ▸ h'

variable {files : List String}

theorem mem_foldl_addFile :
    t ∈ files.foldl (addFile graph) changed ↔ IsSeed graph files changed t :=
  Lib.foldl_iff_or (f := addFile graph) (p := (t ∈ ·)) fun _ _ => mem_addFile

theorem nodup_foldl_addFile (h : changed.Nodup) :
    (files.foldl (addFile graph) changed).Nodup := by
  refine foldlRecOn _ _ h fun changed h file _ => ?_
  rw [addFile]
  split
  · exact h
  · exact foldlRecOn _ _ h fun _ h _ _ => h.insert

theorem IsSeed.mem (h : IsSeed graph files changed t)
    (hchanged : ∀ t ∈ changed, t ∈ graph.targets) :
    t ∈ graph.targets := by
  obtain h | ⟨file, -, pkg, ⟨n, -, -, hpkg⟩, ht, -⟩ := h
  · exact hchanged t h
  · exact graph.packages_mem pkg (mem_of_find?_eq_some hpkg) t ht

theorem nodup_labels {ts : List BuildTarget} (h : ts.Nodup) (hts : ∀ t ∈ ts, t ∈ graph.targets) :
    (ts.map label).Nodup :=
  h.map_on fun a ha b hb hab => inj_on_of_nodup_map graph.nodup (hts a ha) (hts b hb) hab

/-- The targets whose labels are listed before the filter. -/
theorem changedLabels_eq (files : List String) (hnodup : changed.Nodup)
    (hchanged : ∀ t ∈ changed, t ∈ graph.targets) {level : ℤ} (hlevel : 0 ≤ level ∨ level = -1)
    (includeSubrepos : Bool) :
    ∃ ts : List BuildTarget, changedLabels graph files changed level includeSubrepos =
        some (ts.map label) ∧ ts.Nodup ∧
      ∀ t, t ∈ ts ↔ ∃ a, IsSeed graph files changed a ∧
        ∃ n : ℕ, (level = -1 ∨ n ≤ level) ∧ Steps (RevDep graph includeSubrepos) a n t := by
  have hseed {t : BuildTarget} :
      t ∈ files.foldl (addFile graph) changed ↔ IsSeed graph files changed t :=
    mem_foldl_addFile
  have hseeds : ∀ t ∈ files.foldl (addFile graph) changed, t ∈ graph.targets :=
    fun t ht => (hseed.mp ht).mem hchanged
  have hnodup' : (files.foldl (addFile graph) changed).Nodup := nodup_foldl_addFile hnodup
  simp only [changedLabels]
  generalize files.foldl (addFile graph) changed = seeds at hseed hseeds hnodup'
  split
  case isTrue hne =>
    obtain ⟨found, hfound, hfoundnodup, hmem⟩ : ∃ found,
        findRevdeps graph (allRevdeps includeSubrepos level) (seeds.map label) =
          some found ∧ found.Nodup ∧
        ∀ t, t ∈ found ↔ ∃ a ∈ seeds, ∃ n, (allRevdeps includeSubrepos level).within n = true ∧
          Steps (RevDep graph includeSubrepos) a (n + 1) t := mem_findRevdeps hseeds
    have hwithin (n : ℕ) : (allRevdeps includeSubrepos level).within n = true ↔
        level = -1 ∨ (n + 1 : ℕ) ≤ level := by
      rw [within_iff, allRevdeps_maxDepth]
      omega
    refine ⟨seeds ++ found.filter (· ∉ seeds), ?_, ?_, fun t => ?_⟩
    · rw [allRevdeps] at hfound
      simp [hfound]
    · refine nodup_append.mpr ⟨hnodup', hfoundnodup.filter _, ?_⟩
      rintro a ha b hb rfl
      simpa [ha] using (mem_filter.mp hb).2
    · simp only [mem_append, mem_filter, hmem, hseed, decide_eq_true_eq]
      constructor
      · rintro (ht | ⟨⟨a, ha, n, hn, hsteps⟩, -⟩)
        · exact ⟨t, ht, 0, by omega, .refl⟩
        · exact ⟨a, ha, n + 1, (hwithin n).mp hn, hsteps⟩
      · rintro ⟨a, ha, n, hn, hsteps⟩
        by_cases ht : IsSeed graph files changed t
        · exact .inl ht
        · cases hsteps with
          | refl => exact absurd ha ht
          | tail hsteps hedge => exact .inr ⟨⟨a, ha, _, (hwithin _).mpr hn, hsteps.tail hedge⟩, ht⟩
  case isFalse hzero =>
    obtain rfl : level = 0 := not_not.mp hzero
    refine ⟨seeds, rfl, hnodup', fun t => hseed.trans ?_⟩
    constructor
    · intro ht
      exact ⟨t, ht, 0, .inr le_rfl, .refl⟩
    · rintro ⟨a, ha, n, hn, hsteps⟩
      obtain rfl : n = 0 := by omega
      cases hsteps
      exact ha

variable (graph) in
/-- Before the filter, exactly the targets that depend on a seed at a distance within the level are
listed, once each. -/
theorem mem_changedLabels (files : List String) (changed : List BuildTarget)
    (hnodup : changed.Nodup) (hchanged : ∀ t ∈ changed, t ∈ graph.targets) (level : ℤ)
    (hlevel : 0 ≤ level ∨ level = -1) (includeSubrepos : Bool) :
    ∃ labels, changedLabels graph files changed level includeSubrepos = some labels ∧
      labels.Nodup ∧
      ∀ l, l ∈ labels ↔ ∃ t ∈ graph.targets, t.label = l ∧ ∃ a, IsSeed graph files changed a ∧
        ∃ n : ℕ, (level = -1 ∨ n ≤ level) ∧ Steps (RevDep graph includeSubrepos) a n t := by
  obtain ⟨ts, hlabels, hts, hmem⟩ :=
    changedLabels_eq files hnodup hchanged hlevel includeSubrepos
  have hsub : ∀ t ∈ ts, t ∈ graph.targets := fun t ht => by
    obtain ⟨a, ha, n, -, hsteps⟩ := (hmem t).mp ht
    exact steps_mem (ha.mem hchanged) hsteps
  refine ⟨_, hlabels, nodup_labels hts hsub, fun l => ?_⟩
  rw [mem_map]
  constructor
  · rintro ⟨t, ht, rfl⟩
    exact ⟨t, hsub t ht, rfl, (hmem t).mp ht⟩
  · rintro ⟨t, -, rfl, ht⟩
    exact ⟨t, (hmem t).mpr ht, rfl⟩

variable (graph) in
/-- The labels come out in order, once each: those of the included targets that depend on a seed at
a distance within the level. -/
theorem changedTargets_sorted (files : List String) (hnodup : changed.Nodup)
    (hchanged : ∀ t ∈ changed, t ∈ graph.targets) {level : ℤ} (hlevel : 0 ≤ level ∨ level = -1)
    (includeSubrepos : Bool) (shouldInclude : BuildTarget → Bool) :
    ∃ labels, changedTargets graph files changed level includeSubrepos shouldInclude =
        some labels ∧ labels.Pairwise (fun a b => a.less b = true) ∧
      ∀ l, l ∈ labels ↔ ∃ t, t.label = l ∧ shouldInclude t = true ∧
        ∃ a, IsSeed graph files changed a ∧
          ∃ n : ℕ, (level = -1 ∨ n ≤ level) ∧ Steps (RevDep graph includeSubrepos) a n t := by
  obtain ⟨ts, hlabels, hts, hmem⟩ :=
    changedLabels_eq files hnodup hchanged hlevel includeSubrepos
  have hsub : ∀ t ∈ ts, t ∈ graph.targets := fun t ht => by
    obtain ⟨a, ha, n, -, hsteps⟩ := (hmem t).mp ht
    exact steps_mem (ha.mem hchanged) hsteps
  have htargets : (ts.map label).mapM graph.target = some ts := by
    rw [Lib.Except.mapM_eq_some, map_map]
    exact map_congr_left fun t ht => graph.target_eq_some.mpr ⟨hsub t ht, rfl⟩
  have hkept : ((ts.filter shouldInclude).map label).Nodup :=
    nodup_labels (hts.filter _) fun t ht => hsub t (mem_of_mem_filter ht)
  refine ⟨((ts.filter shouldInclude).map label).insertionSort BuildGraph.labelLe, ?_,
    BuildLabel.pairwise_less_insertionSort hkept, fun l => ?_⟩
  · simp [changedTargets, hlabels, htargets]
  · rw [mem_insertionSort, mem_map]
    refine exists_congr fun t => ?_
    rw [mem_filter, hmem]
    constructor
    · rintro ⟨⟨hseed, hincluded⟩, hl⟩
      exact ⟨hl, hincluded, hseed⟩
    · rintro ⟨hl, hincluded, hseed⟩
      exact ⟨⟨hseed, hincluded⟩, hl⟩

/-- A library of the package `lib` with one source, and a binary of `app` that depends on it. -/
def libraryGraph : PackageGraph where
  targets :=
    [{ new ⟨"lib", "lib", ""⟩ with sources := [.file "a.go" "lib"] },
      { new ⟨"app", "bin", ""⟩ with
        dependencies := [⟨⟨"lib", "lib", ""⟩, false, false, false, false, false⟩] }]
  packages := [⟨"lib", "", [],
    [{ new ⟨"lib", "lib", ""⟩ with sources := [.file "a.go" "lib"] }]⟩]
  packages_mem := by decide
  subrepo_mem := by decide

/-- The binary depends on the library with the changed file. -/
theorem changedLabels_library :
    changedLabels libraryGraph ["lib/a.go"] [] 1 false =
        some [⟨"lib", "lib", ""⟩, ⟨"app", "bin", ""⟩] ∧
      ∃ labels, changedLabels libraryGraph ["lib/a.go"] [] 1 false = some labels ∧
        labels.Nodup ∧
        ∀ l, l ∈ labels ↔ ∃ t ∈ libraryGraph.targets, t.label = l ∧
          ∃ a, IsSeed libraryGraph ["lib/a.go"] [] a ∧
            ∃ n : ℕ, ((1 : ℤ) = -1 ∨ n ≤ (1 : ℤ)) ∧ Steps (RevDep libraryGraph false) a n t :=
  ⟨by decide, mem_changedLabels libraryGraph ["lib/a.go"] [] nodup_nil (by simp) 1
    (.inl (by decide)) false⟩

/-- Only the binary is included. -/
theorem changedTargets_sorted_library :
    ∃ labels, changedTargets libraryGraph ["lib/a.go"] [] (-1) false
        (·.label.name = "bin") = some labels ∧ labels = [⟨"app", "bin", ""⟩] ∧
      labels.Pairwise (fun a b => a.less b = true) := by
  obtain ⟨labels, hlabels, hsorted, -⟩ := changedTargets_sorted libraryGraph ["lib/a.go"]
    nodup_nil (by simp) (.inr rfl) false (·.label.name = "bin")
  refine ⟨labels, hlabels, Option.some.inj (hlabels.symm.trans ?_), hsorted⟩
  decide

end Please.Query
