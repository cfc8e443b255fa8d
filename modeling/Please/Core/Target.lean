import Please.Lib.SortedMap

/-!
# Build labels, inputs and targets

Model of the parts of `src/core/build_label.go`, `src/core/build_input.go` and
`src/core/build_target.go` that scheduling, hashing and the graph queries read.
A Go map with string keys is a `SortedMap`: wherever the modelled code goes
through one, it sorts the keys first.
-/

namespace Please.Core

open Please.Lib List

theorem find_key_eq_some {α κ : Type*} [DecidableEq κ] {key : α → κ} {xs : List α}
    (hn : (xs.map key).Nodup) {k : κ} {x : α} :
    xs.find? (fun y => key y = k) = some x ↔ x ∈ xs ∧ key x = k := by
  constructor
  · intro h
    refine ⟨mem_of_find?_eq_some h, ?_⟩
    simpa using find?_some h
  · rintro ⟨hx, rfl⟩
    cases hf : xs.find? (fun y => key y = key x) with
    | none => exact absurd (decide_eq_true rfl) (find?_eq_none.mp hf x hx)
    | some y =>
      have hkey : key y = key x := by simpa using find?_some hf
      rw [inj_on_of_nodup_map hn (mem_of_find?_eq_some hf) hx hkey]

section absent

variable {α : Type*} [DecidableEq α] {as l : List α}

theorem mem_foldl_insert {x : α} : x ∈ as.foldl (fun l a => l.insert a) l ↔ x ∈ l ∨ x ∈ as := by
  rw [foldl_iff_or (p := (x ∈ ·)) (q := (x = ·)) fun _ _ => mem_insert_iff.trans or_comm]
  simp

theorem mem_foldl_absent {x : α} :
    x ∈ as.foldl (fun l a => if a ∈ l then l else l ++ [a]) l ↔ x ∈ l ∨ x ∈ as := by
  rw [foldl_iff_or (p := (x ∈ ·)) (q := (x = ·)) (by grind)]
  simp

theorem nodup_foldl_absent (h : l.Nodup) :
    (as.foldl (fun l a => if a ∈ l then l else l ++ [a]) l).Nodup := by
  refine foldlRecOn _ _ h fun l h a _ => ?_
  split
  case isTrue => exact h
  case isFalse ha => exact concat_eq_append ▸ h.concat ha

end absent

/-! ## Labels -/

/-- `BuildLabel` (build_label.go, lines 29–33). -/
structure BuildLabel where
  packageName : String
  name : String
  subrepo : String
deriving DecidableEq, Inhabited

namespace BuildLabel

/-- `OriginalTarget` (line 43). -/
def originalTarget : BuildLabel := ⟨"", "_ORIGINAL", ""⟩

/-- `BuildLabel.IsAllTargets` (lines 285–287). -/
def isAllTargets (label : BuildLabel) : Bool := label.name = "all"

/-- `BuildLabel.IsAllSubpackages` (lines 280–282). -/
def isAllSubpackages (label : BuildLabel) : Bool := label.name = "..."

/-- `BuildLabel.String` (lines 46–64). -/
def toStr (label : BuildLabel) : String :=
  if label = ⟨"", "", ""⟩ then ""
  else if label = originalTarget then "command-line targets"
  else
    let s := "//" ++ label.packageName
    let s := if label.subrepo ≠ "" then "///" ++ label.subrepo ++ s else s
    if label.isAllSubpackages then
      if label.packageName = "" then s ++ "..." else s ++ "/..."
    else s ++ ":" ++ label.name

/-- `BuildLabel.Less` (lines 334–341). -/
def less (label other : BuildLabel) : Bool :=
  if label.subrepo ≠ other.subrepo then label.subrepo < other.subrepo
  else if label.packageName ≠ other.packageName then label.packageName < other.packageName
  else label.name < other.name

end BuildLabel

/-! ## Inputs -/

/-- The implementations of `BuildInput`. -/
inductive BuildInput
  | file (file pkg : String)
  | subrepoFile (file pkg fullPackage : String)
  | systemFile (path : String)
  | systemPath (name : String) (path : List String)
  | target (label : BuildLabel)
  | annotatedOutput (label : BuildLabel) (annotationName : String)
  | url (url : String)
deriving DecidableEq, Inhabited

namespace BuildInput

/-- `BuildInput.Label`. -/
def label : BuildInput → Option BuildLabel
  | .target l => some l
  | .annotatedOutput l _ => some l
  | _ => none

/-- `BuildInput.String`. -/
def toStr : BuildInput → String
  | .file f _ => f
  | .subrepoFile f _ _ => f
  | .systemFile path => path
  | .systemPath name _ => name
  | .target l => l.toStr
  | .annotatedOutput l name => if name = "" then l.toStr else l.toStr ++ "|" ++ name
  | .url u => u

/-- The input is a `SystemPathLabel`, which holds a slice: comparing two of them
with `==` panics. -/
def isSystemPath : BuildInput → Bool
  | .systemPath _ _ => true
  | _ => false

end BuildInput

/-! ## Targets -/

/-- `DeclaredDependency` (build_target.go). -/
structure DeclaredDependency where
  label : BuildLabel
  exported : Bool
  internal : Bool
  runtime : Bool
  source : Bool
  data : Bool
deriving DecidableEq

/-- A Go map from names to lists. -/
abbrev NamedLists (α : Type) := SortedMap String (List α)

/-- The tools of `TestFields` and `DebugFields`. -/
structure ExtraTools where
  tools : List BuildInput
  namedTools : NamedLists BuildInput
deriving DecidableEq

/-- `BuildTarget`. The two callbacks are present or not; `test` and `debug` hold
the tools of `TestFields` and `DebugFields`. -/
structure BuildTarget where
  label : BuildLabel
  dependencies : List DeclaredDependency
  runtimeDependencies : List BuildLabel
  visibility : List BuildLabel
  sources : List BuildInput
  namedSources : NamedLists BuildInput
  data : List BuildInput
  namedData : NamedLists BuildInput
  outputs : List String
  namedOutputs : NamedLists String
  optionalOutputs : List String
  labels : List String
  command : String
  commands : Option (SortedMap String String)
  test : Option ExtraTools
  debug : Option ExtraTools
  hashes : List String
  licences : List String
  secrets : List String
  namedSecrets : NamedLists String
  preBuildFunction : Bool
  postBuildFunction : Bool
  requires : List String
  provides : Option (NamedLists BuildLabel)
  tools : List BuildInput
  namedTools : NamedLists BuildInput
  passEnv : Option (List String)
  outputDirectories : List String
  entryPoints : SortedMap String String
  env : SortedMap String String
  fileContent : String
  isBinary : Bool
  isSubrepo : Bool
  sandbox : Bool
  needsTransitiveDependencies : Bool
  outputIsComplete : Bool
  stamp : Bool
  isLocal : Bool
  exitOnError : Bool
  isFilegroup : Bool
  isRemoteFile : Bool
  isTextFile : Bool
  modifiedByCallback : Bool
  srcListFiles : Bool
deriving DecidableEq

/-- `NewBuildTarget` (lines 389–394): the zero value with a label. -/
def BuildTarget.new (label : BuildLabel) : BuildTarget where
  label := label
  dependencies := []
  runtimeDependencies := []
  visibility := []
  sources := []
  namedSources := .empty
  data := []
  namedData := .empty
  outputs := []
  namedOutputs := .empty
  optionalOutputs := []
  labels := []
  command := ""
  commands := none
  test := none
  debug := none
  hashes := []
  licences := []
  secrets := []
  namedSecrets := .empty
  preBuildFunction := false
  postBuildFunction := false
  requires := []
  provides := none
  tools := []
  namedTools := .empty
  passEnv := none
  outputDirectories := []
  entryPoints := .empty
  env := .empty
  fileContent := ""
  isBinary := false
  isSubrepo := false
  sandbox := false
  needsTransitiveDependencies := false
  outputIsComplete := false
  stamp := false
  isLocal := false
  exitOnError := false
  isFilegroup := false
  isRemoteFile := false
  isTextFile := false
  modifiedByCallback := false
  srcListFiles := false

/-- The names of the current and of the fallback configuration
(`config.Build.Config` and `config.Build.FallbackConfig`). -/
structure BuildConfig where
  config : String
  fallbackConfig : String

/-- `BuildTarget.getCommand` (lines 1583–1604). If there is no command for either
configuration, it is that of the highest name. -/
def commandFor (build : BuildConfig) (commands : Option (SortedMap String String))
    (singleCommand : String) : String :=
  match commands with
  | none => singleCommand
  | some commands =>
    match commands.lookup build.config, commands.lookup build.fallbackConfig with
    | some command, _ => command
    | none, some command => command
    | none, none =>
      let highest := commands.entries.foldl
        (fun highest e => if highest.1 < e.1 then e else highest)
        ("", "")
      highest.2

/-- `combinedBuildInputs` (lines 1629–1646). -/
def combinedBuildInputs (unnamed : List BuildInput) (named : NamedLists BuildInput) :
    List BuildInput :=
  unnamed ++ named.values.flatten

namespace BuildTarget

variable (target : BuildTarget)

/-- `BuildTarget.AllSources` (lines 1621–1626). -/
def allSources : List BuildInput := combinedBuildInputs target.sources target.namedSources

/-- `BuildTarget.AllData` (lines 1687–1693). -/
def allData : List BuildInput := combinedBuildInputs target.data target.namedData

/-- `BuildTarget.GetCommand` (lines 1566–1568). -/
def getCommand (build : BuildConfig) : String := commandFor build target.commands target.command

/-- `BuildTarget.DeclaredDependencies` (lines 549–559). -/
def declaredDependencies : List BuildLabel := target.dependencies.map (·.label)

/-- `BuildTarget.BuildDependencyLabels` (lines 648–660). -/
def buildDependencyLabels : List BuildLabel :=
  (target.dependencies.filter fun dep => !dep.runtime && !dep.data).map (·.label)

/-- `BuildTarget.RuntimeAndDataDependencies` (lines 713–725). -/
def runtimeAndDataDependencies : List BuildLabel :=
  (target.dependencies.filter fun dep => dep.runtime || dep.data).map (·.label)

/-- `BuildTarget.isTool` (lines 1801–1815). -/
def isToolIn (tool : BuildLabel) (tools : List BuildInput) (namedTools : NamedLists BuildInput) :
    Bool :=
  (combinedBuildInputs tools namedTools).any fun t => t.label = some tool

/-- `BuildTarget.IsTool` (lines 1789–1798). -/
def isTool (tool : BuildLabel) : Bool :=
  isToolIn tool target.tools target.namedTools ||
    target.test.any (fun t => isToolIn tool t.tools t.namedTools) ||
    target.debug.any (fun t => isToolIn tool t.tools t.namedTools)

/-- `BuildTarget.isDataFor` (lines 1296–1303). -/
def isDataFor (other : BuildTarget) : Bool :=
  other.allData.any fun data => data.label = some target.label

/-- `BuildTarget.provideFor` (lines 1307–1332); `none` if the target stands for
itself. -/
def provideFor? (other : BuildTarget) : Option (List BuildLabel) :=
  match target.provides with
  | none => none
  | some provides =>
    if other.requires.isEmpty then none
    else if target.isDataFor other then none
    else if other.isTool target.label then none
    else
      let found := other.requires.filterMap provides.lookup
      if found.isEmpty then none else some found.flatten

/-- `BuildTarget.ProvideFor` (lines 1289–1294). -/
def provideFor (other : BuildTarget) : List BuildLabel :=
  (target.provideFor? other).getD [target.label]

end BuildTarget

/-! ## The build graph -/

/-- `BuildGraph`, as far as targets go. A target is added under its own label,
once (`AddTarget`, graph.go), and no target is called `all`
(`createTarget`, asp/targets.go). -/
structure BuildGraph where
  targets : List BuildTarget
  nodup : (targets.map (·.label)).Nodup := by decide
  not_all : ∀ t ∈ targets, t.label.isAllTargets = false := by decide

namespace BuildGraph

variable (graph : BuildGraph)

/-- `BuildGraph.Target` (lines 48–50). -/
def target (label : BuildLabel) : Option BuildTarget :=
  graph.targets.find? fun t => t.label = label

/-- The order of `sort.Sort` on targets and on labels. -/
def labelLe (a b : BuildLabel) : Prop := b.less a = false

instance : DecidableRel labelLe := fun a b => inferInstanceAs (Decidable (b.less a = false))

/-- `BuildGraph.AllTargets` (lines 147–153). -/
def allTargets : List BuildTarget :=
  graph.targets.insertionSort fun a b => labelLe a.label b.label

/-- `BuildTarget.Dependencies` (build_target.go, lines 582–607), without the
labels that are not in the graph. -/
def dependencies (t : BuildTarget) : List BuildTarget :=
  (t.declaredDependencies.flatMap fun l =>
    match graph.target l with
    | none => []
    | some depTarget => (depTarget.provideFor t).filterMap graph.target).insertionSort
      fun a b => labelLe a.label b.label

/-- The second result of `BuildTarget.Dependencies`: the labels that are not in the graph. -/
def unresolved (t : BuildTarget) : List BuildLabel :=
  t.declaredDependencies.flatMap fun l =>
    match graph.target l with
    | none => [l]
    | some depTarget => (depTarget.provideFor t).filter fun p => (graph.target p).isNone

/-- Every label that is declared as a dependency, or provided for one, is in the graph. -/
def Resolved : Prop := ∀ t ∈ graph.targets, graph.unresolved t = []

variable {t : BuildTarget} {label : BuildLabel}

theorem target_eq_some : graph.target label = some t ↔ t ∈ graph.targets ∧ t.label = label :=
  find_key_eq_some graph.nodup

theorem target_label (h : graph.target label = some t) :
    t.label = label := (graph.target_eq_some.mp h).2

theorem target_mem (h : graph.target label = some t) :
    t ∈ graph.targets := (graph.target_eq_some.mp h).1

theorem target_isAllTargets (h : graph.target label = some t) : label.isAllTargets = false := by
  rw [← graph.target_label h]
  exact graph.not_all t (graph.target_mem h)

/-- Targets of one graph with the same label are the same. -/
theorem eq_of_label {t₁ t₂ : BuildTarget} (h₁ : t₁ ∈ graph.targets) (h₂ : t₂ ∈ graph.targets)
    (h : t₁.label = t₂.label) : t₁ = t₂ :=
  inj_on_of_nodup_map graph.nodup h₁ h₂ h

/-- The targets of a list of labels, with one more label. -/
theorem setOf_label_mem_cons (ht : t ∈ graph.targets) (labels : List BuildLabel) :
    {t' | t' ∈ graph.targets ∧ t'.label ∈ t.label :: labels} =
      insert t {t' | t' ∈ graph.targets ∧ t'.label ∈ labels} := by
  ext t'
  simp only [mem_cons, Set.mem_ofPred_eq, Set.mem_insert_iff]
  constructor
  · rintro ⟨ht', heq | hmem⟩
    · exact .inl (graph.eq_of_label ht' ht heq)
    · exact .inr ⟨ht', hmem⟩
  · rintro (rfl | ⟨ht', hmem⟩)
    · exact ⟨ht, .inl rfl⟩
    · exact ⟨ht', .inr hmem⟩

theorem mem_allTargets : t ∈ graph.allTargets ↔ t ∈ graph.targets := mem_insertionSort _

theorem mem_dependencies {dep : BuildTarget} : dep ∈ graph.dependencies t ↔
    ∃ l ∈ t.declaredDependencies, ∃ depTarget, graph.target l = some depTarget ∧
      ∃ p ∈ depTarget.provideFor t, graph.target p = some dep := by
  unfold dependencies
  rw [mem_insertionSort, mem_flatMap]
  refine exists_congr fun l => and_congr_right fun _ => ?_
  cases graph.target l with
  | none =>
    refine iff_of_false not_mem_nil ?_
    rintro ⟨t', ht', _⟩
    exact Option.some_ne_none t' ht'.symm
  | some depTarget =>
    rw [mem_filterMap]
    constructor
    · intro h
      exact ⟨depTarget, rfl, h⟩
    · rintro ⟨t', ht', h⟩
      rw [Option.some.inj ht']
      exact h

theorem dependencies_mem {dep : BuildTarget} (h : dep ∈ graph.dependencies t) :
    dep ∈ graph.targets := by
  obtain ⟨_, _, _, _, _, _, h⟩ := graph.mem_dependencies.mp h
  exact graph.target_mem h

end BuildGraph

/-- `slices.SortedFunc(target.DeclaredDependencies(), core.BuildLabel.Compare)`: the order in which
the graph queries go through the dependencies of a target. -/
def BuildTarget.sortedDependencies (target : BuildTarget) : List BuildLabel :=
  target.declaredDependencies.insertionSort BuildGraph.labelLe

theorem BuildTarget.mem_sortedDependencies (target : BuildTarget) {l : BuildLabel} :
    l ∈ target.sortedDependencies ↔ l ∈ target.declaredDependencies :=
  mem_insertionSort _

end Please.Core
