import Please.Core.LabelSyntax

/-!
# Packages, and patterns of labels

Model of the parts of `src/core/build_label.go`, `src/core/build_target.go` and
`src/core/package.go` that garbage collection and the graph queries read beside the targets.
-/

namespace Please.Core

open Please.Build (utf8)
open Please.Fs (hasPrefix)

namespace BuildLabel

/-- `BuildLabel.Parent` (lines 410–417). -/
def parent (label : BuildLabel) : BuildLabel :=
  let name := label.name.toList
  if '#' ∈ name ∧ name.head? = some '_' then
    { label with name := String.ofList ((name.takeWhile (· ≠ '#')).dropWhile (· = '_')) }
  else label

/-- `BuildLabel.HasParent` (lines 425–427). -/
def hasParent (label : BuildLabel) : Bool := label.parent ≠ label

/-- `BuildLabel.Includes` (lines 296–310). -/
def includes (label that : BuildLabel) : Bool :=
  if (label.packageName = "" && label.isAllSubpackages) ||
      that.packageName = label.packageName ||
      hasPrefix that.packageName (label.packageName ++ "/") then
    if label.isAllSubpackages then true
    else if label.packageName = that.packageName then
      label.name = that.name || label.isAllTargets
    else false
  else false

end BuildLabel

/-- `validateNames` (lines 102–122). The suffixes of a target name are checked by
`validateTargetName` already. -/
def validateNames (pkgName name : String) : Bool :=
  validatePackageName (utf8 pkgName) && validateTargetName (utf8 name) &&
    !buildDirSuffix.isSuffixOf (utf8 pkgName) && !testDirSuffix.isSuffixOf (utf8 pkgName)

namespace BuildTarget

variable (target : BuildTarget)

/-- `BuildTarget.IsTest` (lines 458–460). -/
def isTest : Bool := target.test.isSome

/-- `match` (lines 1212–1220). -/
def matchLabel (pattern s : String) : Bool :=
  pattern = s || (pattern.toList.getLast? = some '*' && pattern.toList.dropLast.isPrefixOf s.toList)

/-- `BuildTarget.HasLabel` (lines 1202–1209). -/
def hasLabel (label : String) : Bool :=
  target.labels.any (matchLabel label) || (label = "test" && target.isTest)

/-- `BuildTarget.HasAnyLabel` (lines 1234–1241). -/
def hasAnyLabel (labels : List String) : Bool := labels.any target.hasLabel

/-- `BuildTarget.PrefixedLabels` (lines 1223–1231). -/
def prefixedLabels (start : String) : List String :=
  (target.labels.filter (hasPrefix · start)).map fun l =>
    String.ofList (l.toList.drop start.toList.length)

end BuildTarget

/-- A target of the package `p` and what it depends on there. -/
def ruleOf (name : String) (deps : List String) : BuildTarget :=
  { BuildTarget.new ⟨"p", name, ""⟩ with
    dependencies := deps.map fun dep => ⟨⟨"p", dep, ""⟩, false, false, false, false, false⟩ }

/-! ## Packages -/

/-- `Package`, as far as garbage collection and the queries read it. -/
structure Package where
  name : String
  subrepoName : String
  subincludes : List BuildLabel
  targets : List BuildTarget

/-- `Package.IsIncludedIn` (package.go, lines 218–220). -/
def Package.isIncludedIn (pkg : Package) (label : BuildLabel) : Bool :=
  pkg.name = label.packageName || hasPrefix pkg.name (label.packageName ++ "/")

/-- `BuildGraph` with its packages. Two things that a target holds are kept here: `TestOnly`, and
the target that fetches the subrepo the target is in, if that is external. -/
structure PackageGraph extends BuildGraph where
  packages : List Package := []
  testOnly : BuildTarget → Bool := fun _ => false
  subrepoTarget : BuildTarget → Option BuildTarget := fun _ => none
  packages_mem : ∀ pkg ∈ packages, ∀ t ∈ pkg.targets, t ∈ targets := by simp
  subrepo_mem : ∀ t ∈ targets, ∀ t' ∈ subrepoTarget t, t' ∈ targets := by simp

end Please.Core
