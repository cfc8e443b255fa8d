import Please.Fs.Path
import Please.Core.Permissions

/-!
# Ignoring generated files

Model of `UpdateGitignore` (`src/generate/generate.go`, lines 18–46). What `Outputs` returns and
what git ignores already are parameters.

* `gitignore_right_iff`: when every entry that is added is for a target in the tree of the directory
  and leads to its output.
-/

namespace Please.Generate

open Please.Core Please.Fs List

/-- The package of a target, from the directory of the file (lines 29–36). -/
def relativePkg (pkg name : String) : String :=
  if pkg = "." then name else trimPrefix (trimPrefix name pkg) "/"

/-- The entry for an output of a target, if there is one (lines 28–42). -/
def entryFor (areIgnored : CleanPath → Bool) (pkg : String) (t : BuildTarget) (out : String) :
    Option CleanPath :=
  -- Don't add files that are not under this package to the .gitignore
  if pkg ≠ "." ∧ ¬ hasPrefix t.label.packageName pkg then none
  else if areIgnored (joinPath t.label.packageName out) then none
  else some (joinPath (relativePkg pkg t.label.packageName) out)

/-- `UpdateGitignore`: the entries for the file in `pkg`. -/
def updateGitignore (outputs : BuildTarget → List String) (areIgnored : CleanPath → Bool)
    (pkg : String) (targets : List BuildTarget) : List CleanPath :=
  (targets.filter (·.hasLabel "codegen")).flatMap fun t =>
    (outputs t).filterMap (entryFor areIgnored pkg t)

/-- The name of the package in the directory of the file. -/
def treeOf (pkg : String) : String := if pkg = "." then "" else pkg

/-- The target is in the tree of the directory and, wherever the repository is, the entry leads from
the directory to the output. -/
def Right (pkg : String) (t : BuildTarget) (out : String) (entry : CleanPath) : Prop :=
  InTree (treeOf pkg) t.label.packageName ∧ ∀ root : Path,
    clean true (root ++ components (treeOf pkg).toList ++ entry.path) =
      clean true (root ++ components t.label.packageName.toList ++ components out.toList)

/-- The output, from where the name of the directory ends. -/
def below (pkg : String) (t : BuildTarget) (out : String) : Path :=
  components (relativePkg pkg t.label.packageName).toList ++ components out.toList

/-- The components of a package are those of the tree and of what is left. -/
theorem components_relativePkg {pkg name : String} (h : InTree (treeOf pkg) name) :
    components name.toList =
      components (treeOf pkg).toList ++ components (relativePkg pkg name).toList := by
  unfold treeOf relativePkg at *
  split_ifs at * with hroot
  · rfl
  have htrim (s : String) : components (trimPrefix s "/").toList = components s.toList := by
    unfold trimPrefix
    split_ifs with hs
    · obtain ⟨rest, hrest⟩ := hasPrefix_iff.mp hs
      rw [hrest, String.toList_ofList, drop_left]
      exact (components_append_separator [] rest).symm
    · rfl
  obtain ⟨rest, hrest⟩ := hasPrefix_iff.mp (hasPrefix_of_inTree h)
  rw [htrim, trimPrefix, if_pos (hasPrefix_of_inTree h), hrest, String.toList_ofList, drop_left]
  obtain rfl | rfl | h := h
  · rfl
  · rw [self_eq_append_right.mp hrest, append_nil]
    exact (append_nil _).symm
  · obtain ⟨tail, htail⟩ := hasPrefix_iff.mp h
    rw [String.toList_append, append_assoc, hrest, append_cancel_left_eq] at htail
    rw [htail]
    exact (components_append_separator _ tail).trans
      (congrArg _ (components_append_separator [] tail).symm)

theorem exists_deep (dir : Path) (k : ℕ) : ∃ root, k ≤ (clean true (root ++ dir)).length := by
  obtain ⟨up, below, -, -, hfold⟩ := exists_clean dir
  have hplain : Plain (replicate (k + up) "a".toList) := fun c hc => by
    rw [(mem_replicate.mp hc).2]
    decide
  refine ⟨replicate (k + up) "a".toList, ?_⟩
  rw [clean, foldl_append, foldl_cleanStep_plain _ _ hplain, hfold]
  simp

/-- A clean path leads to the same place, unless it is rooted and its way upwards was lost. -/
theorem clean_append_clean_iff (dir path : Path) (rooted : Bool) :
    (∀ root, clean true (root ++ dir ++ clean rooted path) = clean true (root ++ dir ++ path)) ↔
      (rooted = true → "..".toList ∉ clean false path) := by
  obtain ⟨k, below, hplain, hclean, hfold⟩ := exists_clean path
  have hpath (root : Path) : clean true (root ++ dir ++ path) =
      (clean true (root ++ dir)).take ((clean true (root ++ dir)).length - k) ++ below := by
    rw [clean, foldl_append, hfold]
    rfl
  cases rooted with
  | false =>
    refine iff_of_true (fun root => ?_) (by simp)
    rw [hpath, hclean, ← append_assoc, clean_append _ hplain, clean, foldl_append,
      foldl_cleanStep_ups]
    rfl
  | true =>
    have hrooted : clean true path = below := by
      rw [clean, hfold]
      simp
    have hup : "..".toList ∉ clean false path ↔ k = 0 := by
      rw [hclean, mem_append, mem_replicate]
      have : "..".toList ∉ below := fun h => (hplain _ h).2 rfl
      tauto
    simp only [hup, hrooted, clean_append _ hplain, hpath, append_cancel_right_eq, true_imp_iff]
    constructor
    · intro h
      -- from a directory that is deep enough, every step upwards is seen
      obtain ⟨root, hroot⟩ := exists_deep dir k
      have hlen := congrArg length (h root)
      rw [length_take] at hlen
      omega
    · rintro rfl root
      simp

/-- The entries are right exactly if every package whose name begins with that of the directory is
in its tree, and no output is given as a path from the root and goes up from what is left of its
package. -/
theorem gitignore_right_iff (outputs : BuildTarget → List String) (areIgnored : CleanPath → Bool)
    (pkg : String) (targets : List BuildTarget) :
    (∀ t ∈ targets, t.hasLabel "codegen" → ∀ out ∈ outputs t, ∀ entry,
      entryFor areIgnored pkg t out = some entry → Right pkg t out entry) ↔
    ∀ t ∈ targets, t.hasLabel "codegen" → ∀ out ∈ outputs t,
      areIgnored (joinPath t.label.packageName out) = false →
      (pkg = "." ∨ hasPrefix t.label.packageName pkg) →
        InTree (treeOf pkg) t.label.packageName ∧
        ((joinPath (relativePkg pkg t.label.packageName) out).rooted →
          "..".toList ∉ clean false (below pkg t out)) := by
  refine forall₂_congr fun t _ => forall_congr' fun _ => forall₂_congr fun out _ => ?_
  have hright (hin : InTree (treeOf pkg) t.label.packageName) :
      Right pkg t out (joinPath (relativePkg pkg t.label.packageName) out) ↔
        ((joinPath (relativePkg pkg t.label.packageName) out).rooted →
          "..".toList ∉ clean false (below pkg t out)) := by
    rw [← clean_append_clean_iff (components (treeOf pkg).toList), Right, and_iff_right hin]
    simp only [components_relativePkg hin, below, joinPath, append_assoc]
  rw [entryFor]
  by_cases hpkg : pkg = "." ∨ hasPrefix t.label.packageName pkg = true
  · rw [if_neg (by tauto)]
    cases areIgnored (joinPath t.label.packageName out) with
    | true => simp
    | false => simpa [hpkg] using ⟨fun h => ⟨h.1, (hright h.1).mp h⟩, fun h => (hright h.1).mpr h.2⟩
  · rw [if_pos (not_or.mp hpkg)]
    simp [hpkg]

def codegenRule (pkg : String) : BuildTarget :=
  { BuildTarget.new ⟨pkg, "gen", ""⟩ with labels := ["codegen"] }

/-- The package `foobar` is not below `foo`, and `foo/bar/out` is not its output. -/
theorem gitignore_entry_sibling :
    updateGitignore (fun _ => ["out"]) (fun _ => false) "foo" [codegenRule "foobar"] =
        [⟨false, ["bar".toList, "out".toList]⟩] ∧
      ¬ Right "foo" (codegenRule "foobar") "out" ⟨false, ["bar".toList, "out".toList]⟩ := by
  refine ⟨by decide, fun h => ?_⟩
  exact absurd h.1 (by decide)

end Please.Generate
