import Please.Core.Package
import Please.Lib.Reach
import Mathlib.Data.Finset.Max

/-!
# Which targets garbage collection removes

Model of `targetsToRemove` (`src/gc/gc.go`). A map of targets is the list of its keys. The
function may fail to return: `TargetOrDie` ends the program, `NewBuildLabel` panics, and
`publicDependencies` does not end where targets with one parent depend on one another in a
circle. There is no result then.

`Kept` says which targets are kept in terms of sets and paths, and `mem_keepTargets` that the map
`keepTargets` holds exactly these.
-/

namespace Please.Gc

open Please.Core Please.Lib.Reach Please.Lib.Except List BuildTarget BuildLabel
open Option (bind_eq_some_iff mem_toList)

/-- The arguments of `targetsToRemove` beside the graph. -/
structure Args where
  filter : List BuildLabel
  targets : List BuildLabel
  targetsToKeep : List BuildLabel
  keepLabels : List String
  includeTests : Bool

variable (graph : PackageGraph) (args : Args)

/-! ## What is kept -/

/-- The targets that `addTarget` goes on to, in order (lines 169–180). -/
def successors (target : BuildTarget) : List BuildTarget :=
  target.declaredDependencies.filterMap graph.target ++ graph.dependencies target ++
    (graph.subrepoTarget target).toList

/-- `addTarget` (lines 164–181). Each nested call is for a target that is not in the map yet. -/
def addTarget (m : List BuildTarget) (target : BuildTarget) : List BuildTarget :=
  visit (successors graph) graph.targets.length m target

/-- `addTarget` for one target after the other. -/
def addTargets (m targets : List BuildTarget) : List BuildTarget :=
    targets.foldl (addTarget graph) m

/-- `anyInclude` (lines 184–191). -/
def anyInclude (labels : List BuildLabel) (label : BuildLabel) : Bool :=
  labels.any (·.includes label)

/-- The target is a root of the initial scan (line 75). -/
def isRoot (target : BuildTarget) : Bool :=
  (target.isBinary && (!target.isTest || args.includeTests)) ||
    target.hasAnyLabel args.keepLabels || anyInclude args.targetsToKeep target.label ||
    target.label.subrepo ≠ ""

/-- The registered subincludes (lines 81–86). -/
def subincludeRoots : Option (List BuildTarget) :=
  (graph.packages.flatMap (·.subincludes)).mapM graph.target

/-- The configured targets (lines 88–102). -/
def configuredRoots : List BuildTarget :=
  args.targets.flatMap fun label =>
    if label.isAllSubpackages then
      (graph.packages.filter (·.isIncludedIn label)).flatMap (·.targets)
    else (graph.target label).toList

/-- `publicDependencies` (lines 202–217), with calls nested at most `n` deep. -/
def publicDependencies : ℕ → BuildTarget → Option (List BuildTarget)
  | 0, _ => none
  | n + 1, target => do
    let deps ← (target.declaredDependencies.filterMap graph.target).mapM fun depTarget =>
      if depTarget.label.parent = target.label.parent then publicDependencies n depTarget
      else some [depTarget]
    return deps.flatten ++ (graph.subrepoTarget target).toList

/-- The tests of `order` with their public dependencies, in the order they are explored. A chain
of more calls than there are targets comes back to a target, and goes on for ever. -/
def testDependencies (order : List BuildTarget) : Option (List (BuildTarget × BuildTarget)) := do
  let tests ← (order.filter (·.isTest)).mapM fun target =>
    (publicDependencies graph (graph.targets.length + 1) target).map fun deps =>
      deps.map fun dep => (target, dep)
  return tests.flatten

/-- The body of the loop over tests (lines 110–117). -/
def exploreTest (m : List BuildTarget) (test : BuildTarget × BuildTarget) : List BuildTarget :=
  if test.2 ∈ m ∧ graph.testOnly test.2 = false then addTarget graph m test.1
  else if graph.testOnly test.2 then addTarget graph m test.2
  else m

/-- The final map `keepTargets` (lines 73–121), if `AllTargets` lists the targets in the order
`order`. -/
def keepTargetsIn (order : List BuildTarget) : Option (List BuildTarget) := do
  let m := addTargets graph [] (order.filter (isRoot args))
  let subincludes ← subincludeRoots graph
  let m := addTargets graph m subincludes
  let m := addTargets graph m (configuredRoots graph args)
  if args.includeTests then return m
  else
    let tests ← testDependencies graph order
    return tests.foldl (exploreTest graph) m

/-- The final map `keepTargets`. -/
def keepTargets : Option (List BuildTarget) := keepTargetsIn graph args graph.allTargets

/-! ## What is removed -/

/-- `isIncluded` (lines 151–161). -/
def isIncluded (target : BuildTarget) (filter : List BuildLabel) : Bool :=
  filter.isEmpty || anyInclude filter target.label

/-- The loop of `gcSibling` over the names that a target gives (lines 275–280). -/
def firstSibling (t : BuildTarget) : List String → Option BuildTarget
  | [] => some t
  | l :: ls =>
    if validateNames t.label.packageName l then
      match graph.target ⟨t.label.packageName, l, ""⟩ with
      | some t2 => some t2
      | none => firstSibling t ls
    else none

/-- `gcSibling` (lines 274–282). -/
def gcSibling (t : BuildTarget) : Option BuildTarget :=
  firstSibling graph t (t.prefixedLabels "gc_sibling:")

/-- A target with this sibling is removed (line 133). -/
def isVictim (keep : List BuildTarget) (sibling : BuildTarget) : Bool :=
  !sibling.label.hasParent && sibling ∉ keep && isIncluded sibling args.filter

/-- The targets that the last loop finds (lines 132–134), in the order of `AllTargets`. -/
def victims (keep : List BuildTarget) : Option (List BuildTarget) := do
  let siblings ← graph.allTargets.mapM fun target =>
    (gcSibling graph target).map fun sibling => (target, sibling)
  return (siblings.filter fun t => isVictim args keep t.2).map Prod.fst

/-- `BuildTarget.AllLocalSourcePaths` (build_target.go, lines 1650–1667); `join` is `path.Join`. -/
def allLocalSourcePaths (join : String → String → String) (target : BuildTarget) : List String :=
  target.allSources.filterMap fun
    | .file file pkg => some (join pkg file)
    | _ => none

/-- `targetsToRemove` (lines 73–148). -/
def targetsToRemove (join : String → String → String) : Option (List BuildLabel × List String) := do
  let keep ← keepTargets graph args
  let keepSrcs := keep.flatMap (allLocalSourcePaths join)
  let victims ← victims graph args keep
  let ret := victims.map (·.label)
  let retSrcs := (victims.flatMap (allLocalSourcePaths join)).filter (· ∉ keepSrcs)
  return (ret.insertionSort BuildGraph.labelLe, retSrcs.insertionSort (· ≤ ·))

/-! ## Kept targets, as a set -/

/-- What some target of `roots` leads to. -/
def Reached (roots : List BuildTarget) : Set BuildTarget :=
  {t | ∃ root ∈ roots, Reaches (successors graph) root t}

/-- What is kept after tests and their public dependencies have been explored in turn: a test is
kept if it is on something kept that is not test-only, and a test-only dependency is kept. -/
def keptAfter (kept : Set BuildTarget) : List (BuildTarget × BuildTarget) → Set BuildTarget
  | [] => kept
  | (test, dep) :: tests =>
    keptAfter {t | t ∈ kept ∨
      dep ∈ kept ∧ graph.testOnly dep = false ∧ Reaches (successors graph) test t ∨
      graph.testOnly dep = true ∧ Reaches (successors graph) dep t} tests

/-- What the roots, the subincludes and the configured targets lead to. -/
def Rooted : Set BuildTarget :=
  {t | ∃ subincludes, subincludeRoots graph = some subincludes ∧
    t ∈ Reached graph
      (graph.targets.filter (isRoot args) ++ subincludes ++ configuredRoots graph args)}

/-- The targets that garbage collection keeps with the targets in the order `order`: the roots, the
configured targets, the tests on what is kept, and all that these lead to. -/
def KeptIn (order : List BuildTarget) : Set BuildTarget :=
  {t | ∃ tests, (args.includeTests = true ∧ tests = [] ∨
      args.includeTests = false ∧ testDependencies graph order = some tests) ∧
    t ∈ keptAfter graph (Rooted graph args) tests}

/-- The targets that garbage collection keeps. -/
def Kept : Set BuildTarget := KeptIn graph args graph.allTargets

variable {graph args}

theorem closed_targets : Closed (successors graph) graph.targets.toFinset := by
  intro t ht d hd
  rw [coe_toFinset, Set.mem_ofPred_eq] at ht ⊢
  simp only [successors, mem_append, mem_filterMap, mem_toList] at hd
  obtain (⟨l, -, hl⟩ | hd) | hd := hd
  · exact graph.target_mem hl
  · exact graph.dependencies_mem hd
  · exact graph.subrepo_mem t ht d hd

variable {t : BuildTarget}

/-- What `addTarget` makes of a map that nothing leads out of. -/
theorem mem_addTargets {m targets : List BuildTarget} (hm : Closed (successors graph) {t | t ∈ m})
    (ht : ∀ t ∈ targets, t ∈ graph.targets) :
    t ∈ addTargets graph m targets ↔ t ∈ m ∨ t ∈ Reached graph targets := by
  refine mem_visitAll closed_targets (fun a ha => ?_) (toFinset_card_le _) hm
  exact mem_toFinset.mpr (ht a ha)

/-- The map holds the set `kept`, and nothing leads out of it. -/
structure Holds (graph : PackageGraph) (m : List BuildTarget) (kept : Set BuildTarget) : Prop where
  mem : ∀ t, t ∈ m ↔ t ∈ kept
  closed : Closed (successors graph) kept

theorem Holds.addTargets {m targets : List BuildTarget} {kept : Set BuildTarget}
    (h : Holds graph m kept) (ht : ∀ t ∈ targets, t ∈ graph.targets) :
    Holds graph (addTargets graph m targets) (kept ∪ Reached graph targets) where
  mem t := by
    have hm : Closed (successors graph) {t | t ∈ m} := by
      intro a ha b hb
      exact (h.mem b).mpr (h.closed a ((h.mem a).mp ha) b hb)
    rw [mem_addTargets hm ht, h.mem]
    rfl
  closed := by
    rintro a (ha | ha) b hb
    · exact .inl (h.closed a ha b hb)
    · obtain ⟨root, hroot, ha⟩ := ha
      exact .inr ⟨root, hroot, ha.tail hb⟩

theorem reached_append (r₁ r₂ : List BuildTarget) :
    Reached graph (r₁ ++ r₂) = Reached graph r₁ ∪ Reached graph r₂ := by
  ext t
  simp only [Reached, mem_append, Set.mem_ofPred_eq, Set.mem_union, or_and_right, exists_or]

theorem mem_reached_singleton {a : BuildTarget} :
    t ∈ Reached graph [a] ↔ Reaches (successors graph) a t := by
  simp [Reached]

theorem Holds.exploreTests {tests : List (BuildTarget × BuildTarget)} {m : List BuildTarget}
    {kept : Set BuildTarget} (h : Holds graph m kept)
    (ht : ∀ t ∈ tests, t.1 ∈ graph.targets ∧ t.2 ∈ graph.targets) :
    Holds graph (tests.foldl (exploreTest graph) m) (keptAfter graph kept tests) := by
  induction tests generalizing m kept with
  | nil => exact h
  | cons test _ ih =>
    obtain ⟨test, dep⟩ := test
    obtain ⟨htest, hdep⟩ := ht (test, dep) mem_cons_self
    refine ih ?_ (forall_mem_cons.mp ht).2
    have add {a : BuildTarget} (ha : a ∈ graph.targets) :
        Holds graph (addTarget graph m a) (kept ∪ Reached graph [a]) := by
      have ht : ∀ t ∈ [a], t ∈ graph.targets := by simpa using ha
      exact h.addTargets ht
    rw [exploreTest]
    by_cases honly : graph.testOnly dep = true
    · convert add hdep using 1
      · simp [honly]
      · ext t
        simp [honly, mem_reached_singleton]
    by_cases hkept : dep ∈ m
    · convert add htest using 1
      · simp [honly, hkept]
      · ext t
        simp [honly, (h.mem dep).mp hkept, mem_reached_singleton]
    · convert h using 1
      · simp [honly, hkept]
      · ext t
        simp [honly, mt (h.mem dep).mpr hkept]

theorem publicDependencies_mem {n : ℕ} {target : BuildTarget} (htarget : target ∈ graph.targets)
    {deps : List BuildTarget} (h : publicDependencies graph n target = some deps) :
    ∀ dep ∈ deps, dep ∈ graph.targets := by
  induction n generalizing target deps with
  | zero => cases h
  | succ n ih =>
    obtain ⟨parts, hparts, heq⟩ := bind_eq_some_iff.mp h
    cases heq
    intro dep hdep
    rcases mem_append.mp hdep with hdep | hdep
    · obtain ⟨depTarget, hd, part, heq, hdep⟩ := (mem_flatten_of_mapM_eq_some hparts).mp hdep
      obtain ⟨l, -, hl⟩ := mem_filterMap.mp hd
      have hmem := graph.target_mem hl
      split at heq
      · exact ih hmem heq dep hdep
      · cases heq
        rwa [mem_singleton.mp hdep]
    · exact graph.subrepo_mem target htarget dep (mem_toList.mp hdep)

section

variable {order : List BuildTarget} {tests : List (BuildTarget × BuildTarget)}

theorem mem_testDependencies (h : testDependencies graph order = some tests)
    {test dep : BuildTarget} : (test, dep) ∈ tests ↔ (test ∈ order ∧ test.isTest = true) ∧
      ∃ deps, publicDependencies graph (graph.targets.length + 1) test = some deps ∧
        dep ∈ deps := by
  obtain ⟨parts, hparts, heq⟩ := bind_eq_some_iff.mp h
  cases heq
  simp only [mem_flatten_of_mapM_eq_some hparts, mem_filter, Option.map_eq_some_iff]
  constructor
  · rintro ⟨target, htarget, _, ⟨deps, hdeps, rfl⟩, hmem⟩
    obtain ⟨dep, hdep, heq⟩ := mem_map.mp hmem
    cases heq
    exact ⟨htarget, deps, hdeps, hdep⟩
  · rintro ⟨htest, deps, hdeps, hdep⟩
    exact ⟨test, htest, _, ⟨deps, hdeps, rfl⟩, mem_map_of_mem hdep⟩

theorem testDependencies_mem (horder : ∀ t ∈ order, t ∈ graph.targets)
    (h : testDependencies graph order = some tests) :
    ∀ t ∈ tests, t.1 ∈ graph.targets ∧ t.2 ∈ graph.targets := by
  intro t ht
  obtain ⟨⟨hmem, -⟩, deps, hdeps, hdep⟩ := (mem_testDependencies h).mp ht
  exact ⟨horder _ hmem, publicDependencies_mem (horder _ hmem) hdeps _ hdep⟩

end

theorem subincludeRoots_mem {subincludes : List BuildTarget}
    (h : subincludeRoots graph = some subincludes) : ∀ t ∈ subincludes, t ∈ graph.targets := by
  intro t ht
  obtain ⟨l, -, hl⟩ := (mem_of_mapM_eq_some h).mp ht
  exact graph.target_mem hl

theorem configuredRoots_mem : ∀ t ∈ configuredRoots graph args, t ∈ graph.targets := by
  intro t ht
  obtain ⟨label, -, ht⟩ := mem_flatMap.mp ht
  split at ht
  · obtain ⟨pkg, hpkg, ht⟩ := mem_flatMap.mp ht
    exact graph.packages_mem pkg (mem_filter.mp hpkg).1 t ht
  · exact graph.target_mem (mem_toList.mp ht)

/-- The final map holds exactly the targets that are kept. -/
theorem holds_keepTargetsIn {order keep : List BuildTarget}
    (horder : ∀ t, t ∈ order ↔ t ∈ graph.targets)
    (h : keepTargetsIn graph args order = some keep) :
    Holds graph keep (KeptIn graph args order) := by
  obtain ⟨subincludes, hsub, h⟩ := bind_eq_some_iff.mp h
  have hempty : Holds graph [] ∅ := ⟨by simp, fun t ht => absurd ht (Set.notMem_empty t)⟩
  have hroots : Holds graph
      (addTargets graph (addTargets graph (addTargets graph [] (order.filter (isRoot args)))
        subincludes) (configuredRoots graph args)) (Rooted graph args) := by
    have hscan : ∀ t ∈ order.filter (isRoot args), t ∈ graph.targets := fun t ht =>
      (horder t).mp (mem_filter.mp ht).1
    convert ((hempty.addTargets hscan).addTargets (subincludeRoots_mem hsub)).addTargets
      configuredRoots_mem using 1
    have heq : Reached graph (graph.targets.filter (isRoot args)) =
        Reached graph (order.filter (isRoot args)) := by
      ext t
      simp [Reached, horder]
    rw [← heq, Set.empty_union, ← reached_append, ← reached_append]
    ext t
    simp [Rooted, hsub]
  by_cases htests : args.includeTests = true
  · rw [if_pos htests] at h
    cases h
    convert hroots using 1
    simp [KeptIn, htests, keptAfter]
  · rw [if_neg htests] at h
    obtain ⟨tests, ht, heq⟩ := bind_eq_some_iff.mp h
    cases heq
    convert hroots.exploreTests
      (testDependencies_mem (fun t => (horder t).mp) ht) using 1
    simp [KeptIn, htests, ht]

theorem holds_keepTargets {keep : List BuildTarget} (h : keepTargets graph args = some keep) :
    Holds graph keep (Kept graph args) :=
  holds_keepTargetsIn (fun _ => graph.mem_allTargets) h

/-! ## Removed targets -/

variable (graph args) in
/-- The target is removed: its sibling is no child of another target, is not kept, and passes the
filter. -/
def Removed (t : BuildTarget) : Prop :=
  ∃ sibling, gcSibling graph t = some sibling ∧ sibling.label.hasParent = false ∧
    sibling ∉ Kept graph args ∧ isIncluded sibling args.filter = true

/-- The definition of the target is left in its BUILD file: neither the target nor the one it is
a child of is removed. -/
def Stays (ret : List BuildLabel) (t : BuildTarget) : Prop :=
  t.label ∉ ret ∧ t.label.parent ∉ ret

theorem mem_victims {keep vs : List BuildTarget} (hkeep : Holds graph keep (Kept graph args))
    (h : victims graph args keep = some vs) :
    t ∈ vs ↔ t ∈ graph.targets ∧ Removed graph args t := by
  obtain ⟨siblings, hs, heq⟩ := bind_eq_some_iff.mp h
  cases heq
  simp only [mem_map, mem_filter, Prod.exists, exists_and_right, exists_eq_right,
    mem_of_mapM_eq_some hs, Option.map_eq_some_iff, Prod.mk.injEq, graph.mem_allTargets]
  constructor
  · rintro ⟨sibling, ⟨t', ht', sibling', hs', rfl, rfl⟩, hv⟩
    simp only [isVictim, Bool.and_eq_true, Bool.not_eq_true', decide_eq_true_eq, hkeep.mem] at hv
    exact ⟨ht', sibling', hs', hv.1.1, hv.1.2, hv.2⟩
  · rintro ⟨ht, sibling, hs', hp, hk, hi⟩
    refine ⟨sibling, ⟨t, ht, sibling, hs', rfl, rfl⟩, ?_⟩
    simp [isVictim, hp, hk, hi, hkeep.mem]

section

variable {join : String → String → String} {ret : List BuildLabel} {srcs : List String}
  (h : targetsToRemove graph args join = some (ret, srcs))
include h

/-- What `targetsToRemove` returns, as sets. -/
theorem mem_targetsToRemove :
    (∀ l, l ∈ ret ↔ ∃ t ∈ graph.targets, t.label = l ∧ Removed graph args t) ∧
    ∀ p, p ∈ srcs ↔
      (∃ t ∈ graph.targets, Removed graph args t ∧ p ∈ allLocalSourcePaths join t) ∧
      ∀ k ∈ Kept graph args, p ∉ allLocalSourcePaths join k := by
  obtain ⟨keep, hkeep, h⟩ := bind_eq_some_iff.mp h
  obtain ⟨vs, hvs, heq⟩ := bind_eq_some_iff.mp h
  cases heq
  have hholds := holds_keepTargets hkeep
  refine ⟨fun l => ?_, fun p => ?_⟩
  · rw [mem_insertionSort, mem_map]
    constructor
    · rintro ⟨t, ht, rfl⟩
      obtain ⟨hmem, hr⟩ := (mem_victims hholds hvs).mp ht
      exact ⟨t, hmem, rfl, hr⟩
    · rintro ⟨t, ht, rfl, hr⟩
      exact ⟨t, (mem_victims hholds hvs).mpr ⟨ht, hr⟩, rfl⟩
  · rw [mem_insertionSort, mem_filter, mem_flatMap]
    refine and_congr ?_ ?_
    · refine exists_congr fun t => ?_
      rw [mem_victims hholds hvs, and_assoc]
    · simp [hholds.mem]

theorem label_mem_ret_iff (ht : t ∈ graph.targets) : t.label ∈ ret ↔ Removed graph args t := by
  rw [(mem_targetsToRemove h).1]
  constructor
  · rintro ⟨t', ht', hl, hr⟩
    rwa [← graph.eq_of_label ht' ht hl]
  · exact fun hr => ⟨t, ht, rfl, hr⟩

end

/-! ## Nothing that is kept is removed -/

variable (graph args) in
/-- Of a kept target and of the target it is a child of, the sibling is kept, is itself a child of
another target, or does not pass the filter. -/
def SiblingsKept : Prop :=
  ∀ k ∈ Kept graph args, ∀ t ∈ graph.targets, t.label = k.label ∨ t.label = k.label.parent →
    ∀ sibling, gcSibling graph t = some sibling →
      sibling ∈ Kept graph args ∨ sibling.label.hasParent = true ∨
        isIncluded sibling args.filter = false

variable (graph args) in
/-- The target stays: its sibling is kept, is a child of another target, or does not pass the
filter. -/
def Survives (t : BuildTarget) : Prop :=
  ∀ sibling, gcSibling graph t = some sibling →
    sibling ∈ Kept graph args ∨ sibling.label.hasParent = true ∨
      isIncluded sibling args.filter = false

theorem not_removed_iff : ¬ Removed graph args t ↔ Survives graph args t := by
  simp only [Removed, Survives, not_exists, not_and, Bool.not_eq_true]
  refine forall_congr' fun sibling => imp_congr_right fun _ => ?_
  constructor
  · intro h
    by_cases hk : sibling ∈ Kept graph args
    · exact .inl hk
    · cases hp : sibling.label.hasParent with
      | true => exact .inr (.inl rfl)
      | false => exact .inr (.inr (h hp hk))
  · rintro (hk | hp | hi) hp' hk'
    · exact absurd hk hk'
    · rw [hp'] at hp
      cases hp
    · exact hi

/-- Every kept target and all that it leads to stay defined exactly if the siblings of kept
targets, and of the targets these are children of, share their fate. -/
theorem kept_stays_iff {join : String → String → String} {keep : List BuildTarget}
    {ret : List BuildLabel} {srcs : List String} (hkeep : keepTargets graph args = some keep)
    (h : targetsToRemove graph args join = some (ret, srcs)) :
    (∀ k ∈ keep, ∀ d, Reaches (successors graph) k d → Stays ret d) ↔ SiblingsKept graph args := by
  have hholds := holds_keepTargets hkeep
  constructor
  · intro hstays k hk t ht hlabel
    have hk' := hstays k ((hholds.mem k).mpr hk) k .refl
    apply not_removed_iff.mp
    rw [← label_mem_ret_iff h ht]
    rcases hlabel with hl | hl
    · rw [hl]
      exact hk'.1
    · rw [hl]
      exact hk'.2
  · intro hs k hk d hd
    have hkept : d ∈ Kept graph args := hholds.closed.mem_of_reaches ((hholds.mem k).mp hk) hd
    have hout {l : BuildLabel} (hl : l = d.label ∨ l = d.label.parent) : l ∉ ret := by
      rw [(mem_targetsToRemove h).1]
      rintro ⟨t, ht, rfl, hr⟩
      exact not_removed_iff.mpr (hs d hkept t ht hl) hr
    exact ⟨hout (.inl rfl), hout (.inr rfl)⟩

/-- A target of the package `app` that is no binary. -/
def library (name : String) : BuildTarget := new ⟨"app", name, ""⟩

/-- A binary of the package `app` that depends on the target `dep` there. -/
def binary (name dep : String) : BuildTarget :=
  { new ⟨"app", name, ""⟩ with
    isBinary := true
    dependencies := [⟨⟨"app", dep, ""⟩, false, false, false, false, false⟩] }

/-- The library `gen`, with `doc` for a sibling. -/
def generated : BuildTarget := { library "gen" with labels := ["gc_sibling:doc"] }

/-- Without filter, and with nothing configured. -/
def noArgs : Args := ⟨[], [], [], [], false⟩

/-- A binary that depends on a library, and a third target `doc`. -/
def siblingGraph (gen : BuildTarget) (h : gen.label = ⟨"app", "gen", ""⟩) : PackageGraph where
  targets := [binary "bin" "gen", gen, library "doc"]
  nodup := by simp [h, binary, library, new]
  not_all := by simp [h, binary, library, new, isAllTargets]

/-- `filepath.Join` of two clean paths. -/
def joinClean (pkg file : String) : String := pkg ++ "/" ++ file

/-- The binary keeps `gen`, which is removed with its sibling `doc`. -/
theorem generated_removed :
    ∃ keep ret srcs, keepTargets (siblingGraph generated rfl) noArgs = some keep ∧
      targetsToRemove (siblingGraph generated rfl) noArgs joinClean = some (ret, srcs) ∧
      ∃ k ∈ keep, k.label ∈ ret :=
  ⟨[generated, binary "bin" "gen"], [⟨"app", "doc", ""⟩, ⟨"app", "gen", ""⟩], [], by decide,
    by decide, generated, by decide, by decide⟩

/-- Without the label, only `doc` is removed. -/
theorem kept_stays_library :
    targetsToRemove (siblingGraph (library "gen") rfl) noArgs joinClean =
      some ([⟨"app", "doc", ""⟩], []) ∧
    ((∀ k ∈ [library "gen", binary "bin" "gen"], ∀ d,
        Reaches (successors (siblingGraph (library "gen") rfl)) k d →
        Stays [⟨"app", "doc", ""⟩] d) ↔
      SiblingsKept (siblingGraph (library "gen") rfl) noArgs) := by
  have hret : targetsToRemove (siblingGraph (library "gen") rfl) noArgs joinClean =
      some ([⟨"app", "doc", ""⟩], []) := by decide
  exact ⟨hret, kept_stays_iff (by decide) hret⟩

/-! ## Files that are still used -/

/-- The local files among the data of a target. -/
def allLocalDataPaths (join : String → String → String) (target : BuildTarget) : List String :=
  target.allData.filterMap fun
    | .file file pkg => some (join pkg file)
    | _ => none

variable (graph args) in
/-- The file is used in a way that the sources of kept targets do not show: as data of a target
that stays, or as a source of a target that stays without being kept. -/
def UsedUnseen (join : String → String → String) (p : String) : Prop :=
  ∃ u ∈ graph.targets, Survives graph args u ∧
    (p ∈ allLocalDataPaths join u ∨ u ∉ Kept graph args ∧ p ∈ allLocalSourcePaths join u)

variable (graph args) in
/-- If the sibling of a target is kept by nothing, no source of the target is used unseen, unless
it is a source of a kept target too. -/
def SharedFilesSeen (join : String → String → String) : Prop :=
  ∀ t ∈ graph.targets, ∀ sibling, gcSibling graph t = some sibling →
    sibling ∉ Kept graph args → sibling.label.hasParent = false →
    isIncluded sibling args.filter = true →
    ∀ p ∈ allLocalSourcePaths join t, UsedUnseen graph args join p →
      ∃ k ∈ Kept graph args, p ∈ allLocalSourcePaths join k

/-- No file of a target that stays is removed exactly if no source of a removed target is used by
one in a way that the sources of kept targets do not show. -/
theorem used_files_stay_iff {join : String → String → String} {ret : List BuildLabel}
    {srcs : List String} (h : targetsToRemove graph args join = some (ret, srcs)) :
    (∀ p ∈ srcs, ∀ u ∈ graph.targets, u.label ∉ ret →
      p ∉ allLocalSourcePaths join u ++ allLocalDataPaths join u) ↔
      SharedFilesSeen graph args join := by
  have hsrcs := (mem_targetsToRemove h).2
  have hstays {u : BuildTarget} (hu : u ∈ graph.targets) : u.label ∉ ret ↔
      Survives graph args u := by
    rw [label_mem_ret_iff h hu, not_removed_iff]
  constructor
  · rintro hstay t ht sibling hs hk hp hi p hpt ⟨u, hu, hsurvives, huse⟩
    by_contra hnot
    push Not at hnot
    refine hstay p ((hsrcs p).mpr ⟨⟨t, ht, ⟨sibling, hs, hp, hk, hi⟩, hpt⟩, hnot⟩) u hu
      ((hstays hu).mpr hsurvives) (mem_append.mpr ?_)
    exact huse.symm.imp_left And.right
  · intro hseen p hp u hu hret huse
    obtain ⟨⟨t, ht, ⟨sibling, hs, hparent, hk, hi⟩, hpt⟩, hnot⟩ := (hsrcs p).mp hp
    have hunseen : UsedUnseen graph args join p := by
      refine ⟨u, hu, (hstays hu).mp hret, ?_⟩
      rcases mem_append.mp huse with hsrc | hdata
      · exact .inr ⟨fun hku => hnot u hku hsrc, hsrc⟩
      · exact .inl hdata
    obtain ⟨k, hkept, hpk⟩ := hseen t ht sibling hs hk hparent hi p hpt hunseen
    exact hnot k hkept hpk

/-- A binary with a data file that is the source of a library nothing needs. -/
def sharedFileGraph (data : List BuildInput) : PackageGraph where
  targets := [{ binary "bin" "gen" with dependencies := [], data },
    { library "lib" with sources := [.file "table.txt" "app"] }]
  nodup := by simp [binary, library, new]
  not_all := by simp [binary, library, new, isAllTargets]

/-- The library's source is removed, which is a data file of the binary. -/
theorem data_file_removed :
    ∃ ret srcs, targetsToRemove (sharedFileGraph [.file "table.txt" "app"]) noArgs joinClean =
        some (ret, srcs) ∧
      ∃ p ∈ srcs, ∃ u ∈ (sharedFileGraph [.file "table.txt" "app"]).targets,
        u.label ∉ ret ∧ p ∈ allLocalDataPaths joinClean u :=
  ⟨[⟨"app", "lib", ""⟩], ["app/table.txt"], by decide, "app/table.txt", by decide,
    { binary "bin" "gen" with dependencies := [], data := [.file "table.txt" "app"] },
    by decide, by decide, by decide⟩

/-- Without the data file, the source is removed rightly. -/
theorem used_files_stay_library :
    (∀ p ∈ ["app/table.txt"], ∀ u ∈ (sharedFileGraph []).targets,
      u.label ∉ [(⟨"app", "lib", ""⟩ : BuildLabel)] →
      p ∉ allLocalSourcePaths joinClean u ++ allLocalDataPaths joinClean u) ↔
      SharedFilesSeen (sharedFileGraph []) noArgs joinClean :=
  used_files_stay_iff (by decide)

/-! ## Tests on what is kept -/

section tests

variable {order : List BuildTarget} {kept : Set BuildTarget}
  {tests : List (BuildTarget × BuildTarget)}

/-- What a target is kept for: it was kept before, or an explored test or test-only dependency
leads to it. -/
theorem mem_keptAfter : t ∈ keptAfter graph kept tests ↔ t ∈ kept ∨
    ∃ before test dep after, tests = before ++ (test, dep) :: after ∧
      (dep ∈ keptAfter graph kept before ∧ graph.testOnly dep = false ∧
          Reaches (successors graph) test t ∨
        graph.testOnly dep = true ∧ Reaches (successors graph) dep t) := by
  induction tests generalizing kept with
  | nil => simp [keptAfter]
  | cons first rest ih =>
    obtain ⟨test₀, dep₀⟩ := first
    rw [keptAfter, ih]
    constructor
    · rintro ((ht | hstep) | ⟨before, test, dep, after, rfl, hstep⟩)
      · exact .inl ht
      · exact .inr ⟨[], test₀, dep₀, rest, rfl, hstep⟩
      · exact .inr ⟨(test₀, dep₀) :: before, test, dep, after, rfl, hstep⟩
    · rintro (ht | ⟨before, test, dep, after, heq, hstep⟩)
      · exact .inl (.inl ht)
      · cases before with
        | nil =>
          cases heq
          exact .inl (.inr hstep)
        | cons _ before =>
          cases heq
          exact .inr ⟨before, test, dep, after, rfl, hstep⟩

variable (graph) in
/-- The test `target` has `dep` for a public dependency, which is not test-only. -/
def TestOn (target dep : BuildTarget) : Prop :=
  target ∈ graph.targets ∧ target.isTest = true ∧ graph.testOnly dep = false ∧
    ∃ deps, publicDependencies graph (graph.targets.length + 1) target = some deps ∧ dep ∈ deps

variable (graph) in
/-- What the test-only public dependencies of tests lead to. -/
def TestOnlyKept : Set BuildTarget :=
  {t | ∃ test ∈ graph.targets, test.isTest = true ∧ ∃ deps dep,
    publicDependencies graph (graph.targets.length + 1) test = some deps ∧ dep ∈ deps ∧
      graph.testOnly dep = true ∧ Reaches (successors graph) dep t}

variable (graph) in
/-- The test is kept if it is the first to be explored: it is on something kept, or on something
that an earlier test-only dependency of its own leads to. -/
def KeptAlone (kept : Set BuildTarget) (test : BuildTarget) : Prop :=
  test ∈ graph.targets ∧ test.isTest = true ∧ ∃ before dep after,
    publicDependencies graph (graph.targets.length + 1) test = some (before ++ dep :: after) ∧
      graph.testOnly dep = false ∧
      (dep ∈ kept ∨ ∃ d ∈ before, graph.testOnly d = true ∧ Reaches (successors graph) d dep)

variable (graph args) in
/-- What is kept in every order: by the roots, as a test-only dependency, and by tests that are
kept on their own. -/
def KeptFirst : Set BuildTarget :=
  {t | t ∈ Rooted graph args ∨ t ∈ TestOnlyKept graph ∨
    ∃ test, KeptAlone graph (Rooted graph args) test ∧ Reaches (successors graph) test t}

variable (graph args) in
/-- What is kept in every order has no further tests on it. -/
def TestsSettled : Prop :=
  ∀ test dep, TestOn graph test dep → dep ∈ KeptFirst graph args → test ∈ KeptFirst graph args

variable (graph args) in
/-- In every order of the targets, the tests on what is kept are kept. -/
def TestsKept : Prop :=
  ∀ order keep, order.Perm graph.targets → keepTargetsIn graph args order = some keep →
    ∀ test dep, TestOn graph test dep → dep ∈ keep → test ∈ keep

variable (graph) in
/-- No two tests lead to one another. -/
def TestsAcyclic : Prop :=
  ∀ test test', test.isTest = true → test'.isTest = true → Reaches (successors graph) test test' →
    Reaches (successors graph) test' test → test = test'

theorem closed_rooted : Closed (successors graph) (Rooted graph args) := by
  rintro a ⟨subincludes, hsub, root, hroot, ha⟩ b hb
  exact ⟨subincludes, hsub, root, hroot, ha.tail hb⟩

theorem closed_keptFirst : Closed (successors graph) (KeptFirst graph args) := by
  rintro a (ha | ⟨test, htest, his, deps, dep, hdeps, hdep, honly, ha⟩ | ⟨test, htest, ha⟩) b hb
  · exact .inl (closed_rooted a ha b hb)
  · exact .inr (.inl ⟨test, htest, his, deps, dep, hdeps, hdep, honly, ha.tail hb⟩)
  · exact .inr (.inr ⟨test, htest, ha.tail hb⟩)

section explored

variable (horder : order.Perm graph.targets) (htests : testDependencies graph order = some tests)
include horder htests

/-- Exploring tests does not leave a set that has the roots, the test-only dependencies, and with
a target the tests on it. -/
theorem keptAfter_subset {s : Set BuildTarget} (hclosed : Closed (successors graph) s)
    (hroots : Rooted graph args ⊆ s) (honly : TestOnlyKept graph ⊆ s)
    (hon : ∀ test dep, TestOn graph test dep → dep ∈ s → test ∈ s) :
    keptAfter graph (Rooted graph args) tests ⊆ s := by
  suffices h : ∀ rest kept, rest ⊆ tests → kept ⊆ s → keptAfter graph kept rest ⊆ s from
    h tests _ (List.Subset.refl _) hroots
  intro rest
  induction rest with
  | nil => exact fun _ _ hkept => hkept
  | cons p rest ih =>
    obtain ⟨test, dep⟩ := p
    intro kept hrest hkept
    obtain ⟨⟨hmem, his⟩, deps, hdeps, hdep⟩ :=
      (mem_testDependencies htests).mp (hrest mem_cons_self)
    have htarget := horder.subset hmem
    refine ih _ (fun q hq => hrest (mem_cons_of_mem _ hq)) ?_
    rintro t (ht | ⟨hd, hno, ht⟩ | ⟨hyes, ht⟩)
    · exact hkept ht
    · exact hclosed.mem_of_reaches
        (hon test dep ⟨htarget, his, hno, deps, hdeps, hdep⟩ (hkept hd)) ht
    · exact honly ⟨test, htarget, his, deps, dep, hdeps, hdep, hyes, ht⟩

/-- The explored pairs of one test stand together. -/
theorem exists_block {test : BuildTarget} {deps : List BuildTarget} (htest : test ∈ graph.targets)
    (his : test.isTest = true)
    (hdeps : publicDependencies graph (graph.targets.length + 1) test = some deps) :
    ∃ before after, tests = before ++ deps.map (test, ·) ++ after := by
  obtain ⟨parts, hparts, heq⟩ := bind_eq_some_iff.mp htests
  cases heq
  have hmem : test ∈ order.filter (·.isTest) := mem_filter.mpr ⟨horder.mem_iff.mpr htest, his⟩
  have hpart : deps.map (test, ·) ∈ parts :=
    (mem_of_mapM_eq_some hparts).mpr ⟨test, hmem, by rw [hdeps]; rfl⟩
  obtain ⟨before, after, rfl⟩ := append_of_mem hpart
  exact ⟨before.flatten, after.flatten, by simp⟩

/-- All that is kept in every order is kept. -/
theorem keptFirst_subset :
    KeptFirst graph args ⊆ keptAfter graph (Rooted graph args) tests := by
  rintro t (ht | ⟨test, htest, his, deps, dep, hdeps, hdep, honly, ht⟩ |
    ⟨test, ⟨htest, his, pre, dep, post, hdeps, hno, hkept⟩, ht⟩)
  · exact mem_keptAfter.mpr (.inl ht)
  · obtain ⟨before, after, htests⟩ := append_of_mem ((mem_testDependencies htests).mpr
      ⟨⟨horder.mem_iff.mpr htest, his⟩, deps, hdeps, hdep⟩)
    exact mem_keptAfter.mpr (.inr ⟨before, test, dep, after, htests, .inr ⟨honly, ht⟩⟩)
  · obtain ⟨before, after, htests⟩ := exists_block horder htests htest his hdeps
    refine mem_keptAfter.mpr (.inr ⟨before ++ pre.map (test, ·), test, dep,
      post.map (test, ·) ++ after, by simp [htests], .inl ⟨?_, hno, ht⟩⟩)
    rcases hkept with hkept | ⟨d, hd, honly, hreach⟩
    · exact mem_keptAfter.mpr (.inl hkept)
    · obtain ⟨pre₁, pre₂, rfl⟩ := append_of_mem hd
      exact mem_keptAfter.mpr (.inr ⟨before ++ pre₁.map (test, ·), test, d, pre₂.map (test, ·),
        by simp, .inr ⟨honly, hreach⟩⟩)

end explored

/-- A test that is kept while its own dependencies are explored first is kept alone. -/
theorem keptAlone_of_mem {test dep : BuildTarget} (htest : test ∈ graph.targets)
    (his : test.isTest = true) (hno : graph.testOnly dep = false) {pre post : List BuildTarget}
    (hdeps : publicDependencies graph (graph.targets.length + 1) test = some (pre ++ dep :: post))
    (hmem : dep ∈ keptAfter graph kept (pre.map (test, ·))) : KeptAlone graph kept test := by
  obtain ⟨n, hn⟩ : ∃ n, pre.length ≤ n := ⟨_, le_rfl⟩
  induction n generalizing dep pre post with
  | zero =>
    rw [eq_nil_of_length_eq_zero (Nat.le_zero.mp hn)] at hdeps hmem
    exact ⟨htest, his, [], dep, post, hdeps, hno, .inl hmem⟩
  | succ n ih =>
    rcases mem_keptAfter.mp hmem with hk | ⟨before, test', d, after, heq, hstep⟩
    · exact ⟨htest, his, pre, dep, post, hdeps, hno, .inl hk⟩
    · obtain ⟨pre₁, rest, rfl, rfl, hrest⟩ := map_eq_append_iff.mp heq
      obtain ⟨d', pre₂, rfl, hd, -⟩ := map_eq_cons_iff.mp hrest
      cases hd
      rcases hstep with ⟨hd, hdno, -⟩ | ⟨honly, hreach⟩
      · rw [append_assoc, cons_append] at hdeps
        rw [length_append, length_cons] at hn
        exact ih hdno hdeps hd (by omega)
      · exact ⟨htest, his, _, dep, post, hdeps, hno, .inr ⟨d, by simp, honly, hreach⟩⟩

section kept

variable {keep : List BuildTarget} (hinclude : args.includeTests = false)
include hinclude

/-- The map in the order `order` holds what is kept after its tests have been explored. -/
theorem mem_keepTargetsIn (horder : order.Perm graph.targets)
    (hkeep : keepTargetsIn graph args order = some keep) :
    ∃ tests, testDependencies graph order = some tests ∧
      ∀ t, t ∈ keep ↔ t ∈ keptAfter graph (Rooted graph args) tests := by
  have hholds := holds_keepTargetsIn (fun _ => horder.mem_iff) hkeep
  obtain ⟨subincludes, -, h⟩ := bind_eq_some_iff.mp hkeep
  rw [if_neg (by simp [hinclude])] at h
  obtain ⟨tests, htests, -⟩ := bind_eq_some_iff.mp h
  refine ⟨tests, htests, fun t => (hholds.mem t).trans ?_⟩
  simp [KeptIn, hinclude, htests]

theorem testsKept_of_settled (h : TestsSettled graph args) : TestsKept graph args := by
  intro order keep horder hkeep test dep hon hdep
  obtain ⟨tests, htests, hmem⟩ := mem_keepTargetsIn hinclude horder hkeep
  have hsub := keptAfter_subset horder htests closed_keptFirst (fun _ => .inl)
    (fun _ ht => .inr (.inl ht)) h
  exact (hmem test).mpr (keptFirst_subset horder htests
    (h test dep hon (hsub ((hmem dep).mp hdep))))

/-- If a map is found at all, it is found in every order. -/
theorem exists_keepTargetsIn (hreturns : ∃ keep, keepTargets graph args = some keep)
    (horder : order.Perm graph.targets) : ∃ keep, keepTargetsIn graph args order = some keep := by
  obtain ⟨keep, hkeep⟩ := hreturns
  obtain ⟨subincludes, hsub, h⟩ := bind_eq_some_iff.mp hkeep
  rw [if_neg (by simp [hinclude])] at h
  obtain ⟨tests, htests, -⟩ := bind_eq_some_iff.mp h
  obtain ⟨parts, hparts, -⟩ := bind_eq_some_iff.mp htests
  have hall : ∀ t ∈ order.filter (·.isTest), ∃ part,
      (publicDependencies graph (graph.targets.length + 1) t).map (·.map (t, ·)) = some part := by
    intro t ht
    obtain ⟨ht, his⟩ := mem_filter.mp ht
    have hmem : t ∈ graph.allTargets.filter (·.isTest) :=
      mem_filter.mpr ⟨graph.mem_allTargets.mpr (horder.subset ht), his⟩
    have hsome := mapM_eq_some.mp hparts
    obtain ⟨part, -, hpart⟩ := mem_map.mp (hsome ▸ mem_map_of_mem hmem)
    exact ⟨part, hpart.symm⟩
  obtain ⟨parts', hparts'⟩ := exists_mapM_eq_some hall
  have htests' : testDependencies graph order = some parts'.flatten :=
    bind_eq_some_iff.mpr ⟨parts', hparts', rfl⟩
  simp [keepTargetsIn, hsub, hinclude, htests']

/-- If the tests on what is kept are kept in every order, the same targets are kept in every
order. -/
theorem keptAfter_eq_of_testsKept {order' : List BuildTarget}
    {tests tests' : List (BuildTarget × BuildTarget)} (h : TestsKept graph args)
    (horder : order.Perm graph.targets) (horder' : order'.Perm graph.targets)
    (hkeep : keepTargetsIn graph args order = some keep)
    (htests : testDependencies graph order = some tests)
    (htests' : testDependencies graph order' = some tests') :
    keptAfter graph (Rooted graph args) tests' ⊆ keptAfter graph (Rooted graph args) tests := by
  obtain ⟨_, heq, hmem⟩ := mem_keepTargetsIn hinclude horder hkeep
  cases htests.symm.trans heq
  have hfirst : KeptFirst graph args ⊆ _ := keptFirst_subset horder htests
  refine keptAfter_subset horder' htests' ?_ (fun _ ht => hfirst (.inl ht))
    (fun _ ht => hfirst (.inr (.inl ht))) fun test dep hon hdep => ?_
  · have hclosed := (holds_keepTargetsIn (fun _ => horder.mem_iff) hkeep).closed
    simpa [KeptIn, hinclude, htests] using hclosed
  · exact (hmem test).mp (h order keep horder hkeep test dep hon ((hmem dep).mpr hdep))

omit hinclude in
theorem testDependencies_cons {test : BuildTarget} {rest : List BuildTarget}
    (his : test.isTest = true) (h : testDependencies graph (test :: rest) = some tests) :
    ∃ deps tests', publicDependencies graph (graph.targets.length + 1) test = some deps ∧
      testDependencies graph rest = some tests' ∧ tests = deps.map (test, ·) ++ tests' := by
  obtain ⟨parts, hparts, heq⟩ := bind_eq_some_iff.mp h
  cases heq
  rw [filter_cons_of_pos (by simpa using his), mapM_cons] at hparts
  obtain ⟨part, hpart, hrest⟩ := bind_eq_some_iff.mp hparts
  obtain ⟨parts', hparts', heq⟩ := bind_eq_some_iff.mp hrest
  cases heq
  obtain ⟨deps, hdeps, rfl⟩ := Option.map_eq_some_iff.mp hpart
  exact ⟨deps, parts'.flatten, hdeps, bind_eq_some_iff.mpr ⟨parts', hparts', rfl⟩, rfl⟩

omit hinclude in
/-- The test that is explored first is kept for another reason than its own only if another test
leads to it. -/
theorem exists_leading {test : BuildTarget} {rest : List BuildTarget}
    (horder : (test :: rest).Perm graph.targets) (hnodup : (test :: rest).Nodup)
    (his : test.isTest = true) (htests : testDependencies graph (test :: rest) = some tests)
    (hmem : test ∈ keptAfter graph (Rooted graph args) tests)
    (hnot : test ∉ KeptFirst graph args) :
    ∃ test', test' ≠ test ∧ test'.isTest = true ∧ test' ∈ graph.targets ∧
      test' ∈ keptAfter graph (Rooted graph args) tests ∧ test' ∉ KeptFirst graph args ∧
      Reaches (successors graph) test' test := by
  rcases mem_keptAfter.mp hmem with hroot | ⟨before, test', dep, after, heq, hstep⟩
  · exact absurd (.inl hroot) hnot
  have hpair : (test', dep) ∈ tests := heq ▸ mem_append_right _ mem_cons_self
  obtain ⟨⟨hmem', his'⟩, deps, hdeps, hdep⟩ := (mem_testDependencies htests).mp hpair
  have htarget := horder.subset hmem'
  rcases hstep with ⟨hkept, hno, hreach⟩ | ⟨honly, hreach⟩
  swap
  · exact absurd (.inr (.inl ⟨test', htarget, his', deps, dep, hdeps, hdep, honly, hreach⟩)) hnot
  have hmem₁ : test' ∈ keptAfter graph (Rooted graph args) tests :=
    mem_keptAfter.mpr (.inr ⟨before, test', dep, after, heq, .inl ⟨hkept, hno, .refl⟩⟩)
  have hnot₁ : test' ∉ KeptFirst graph args := fun h =>
    hnot (closed_keptFirst.mem_of_reaches h hreach)
  refine ⟨test', ?_, his', htarget, hmem₁, hnot₁, hreach⟩
  -- the pairs of `test` come first, so that only pairs of its own come before this one
  rintro rfl
  obtain ⟨deps', tests', hdeps', htests', rfl⟩ := testDependencies_cons his htests
  cases hdeps.symm.trans hdeps'
  have hnot' : (test', dep) ∉ tests' := fun hin =>
    (nodup_cons.mp hnodup).1 ((mem_testDependencies htests').mp hin).1.1
  obtain ⟨mid, hmid, hafter⟩ | ⟨mid, rfl, hafter⟩ := append_eq_append_iff.mp heq.symm
  · obtain ⟨pre, post, rfl, rfl, hpost⟩ := map_eq_append_iff.mp hmid
    cases post with
    | nil =>
      cases hpost
      rw [map_nil, nil_append] at hafter
      exact hnot' (hafter ▸ mem_cons_self)
    | cons d post =>
      cases hpost
      cases hafter
      exact hnot₁ (.inr (.inr ⟨test', keptAlone_of_mem htarget his hno hdeps hkept, .refl⟩))
  · exact hnot' (hafter ▸ mem_append_right _ mem_cons_self)

/-- If the tests on what is kept are kept in every order, what is kept in every order has no
further tests on it. -/
theorem settled_of_testsKept (hreturns : ∃ keep, keepTargets graph args = some keep)
    (hacyclic : TestsAcyclic graph) (h : TestsKept graph args) : TestsSettled graph args := by
  classical
  intro test dep hon hdep
  by_contra hnot
  obtain ⟨keep, hkeep⟩ := exists_keepTargetsIn hinclude hreturns (.refl graph.targets)
  obtain ⟨tests, htests, hmem⟩ := mem_keepTargetsIn hinclude (.refl _) hkeep
  -- the tests that are kept, but not in every order
  let late := graph.targets.toFinset.filter fun t =>
    t.isTest = true ∧ t ∈ keep ∧ t ∉ KeptFirst graph args
  have hlate : test ∈ late := by
    have hkept := h _ keep (.refl _) hkeep test dep hon
      ((hmem dep).mpr (keptFirst_subset (.refl _) htests hdep))
    simp [late, hon.1, hon.2.1, hkept, hnot]
  -- one of them that the fewest of them lead to
  let leading (t : BuildTarget) := late.filter fun t' => Reaches (successors graph) t' t
  obtain ⟨first, hfirst, hleast⟩ := late.exists_min_image (fun t => (leading t).card) ⟨test, hlate⟩
  obtain ⟨hin, his, hkept, hnot'⟩ := by simpa [late] using hfirst
  have hperm : (first :: graph.targets.erase first).Perm graph.targets := (perm_cons_erase hin).symm
  obtain ⟨keep', hkeep'⟩ := exists_keepTargetsIn hinclude hreturns hperm
  obtain ⟨tests', htests', -⟩ := mem_keepTargetsIn hinclude hperm hkeep'
  have hsub := keptAfter_eq_of_testsKept hinclude h hperm (.refl _) hkeep' htests' htests
  have hsub' := keptAfter_eq_of_testsKept hinclude h (.refl _) hperm hkeep htests htests'
  obtain ⟨test', hne, his', hin', hkept', hnot₁, hreach⟩ := exists_leading hperm
    (hperm.nodup_iff.mpr (Nodup.of_map _ graph.nodup)) his htests'
      (hsub ((hmem first).mp hkept)) hnot'
  have hlate' : test' ∈ late := by
    simp [late, hin', his', hnot₁, (hmem test').mpr (hsub' hkept')]
  refine absurd (hleast test' hlate') (not_le.mpr (Finset.card_lt_card ?_))
  refine Finset.ssubset_iff_of_subset (fun t ht => ?_) |>.mpr ⟨first, ?_, fun hback => ?_⟩
  · obtain ⟨ht, hr⟩ := Finset.mem_filter.mp ht
    exact Finset.mem_filter.mpr ⟨ht, hr.trans hreach⟩
  · exact Finset.mem_filter.mpr ⟨hfirst, .refl⟩
  · exact hne (hacyclic test' first his' his hreach (Finset.mem_filter.mp hback).2)

/-- Tests on what is kept are kept, in every order of the targets, if what is kept in every order
has no further tests on it, and only then unless two tests lead to one another. -/
theorem tests_kept_iff (hreturns : ∃ keep, keepTargets graph args = some keep) :
    (TestsSettled graph args → TestsKept graph args) ∧
      (TestsAcyclic graph → (TestsKept graph args ↔ TestsSettled graph args)) :=
  ⟨testsKept_of_settled hinclude, fun hacyclic =>
    ⟨settled_of_testsKept hinclude hreturns hacyclic, testsKept_of_settled hinclude⟩⟩

end kept

/-- A test of the package `p`. -/
def testOf (name : String) (deps : List String) : BuildTarget :=
  { ruleOf name deps with test := some ⟨[], .empty⟩ }

/-- A binary on the library `lib`. -/
def bin : BuildTarget := { ruleOf "bin" ["lib"] with isBinary := true }

/-- The binary, the libraries `lib` and `other`, and two tests. -/
def testsGraph (deps : List String) : PackageGraph where
  targets := [bin, ruleOf "lib" [], ruleOf "other" [], testOf "a_test" ["other"],
    testOf "b_test" deps]
  nodup := by simp [bin, testOf, ruleOf, new]
  not_all := by simp [bin, testOf, ruleOf, new, isAllTargets]

/-- The test `b_test` brings in `other` after its test `a_test` has been passed over. -/
theorem a_test_passed_over :
    ∃ keep, keepTargets (testsGraph ["lib", "other"]) noArgs = some keep ∧
      ∃ target dep, TestOn (testsGraph ["lib", "other"]) target dep ∧ dep ∈ keep ∧ target ∉ keep :=
  ⟨[ruleOf "other" [], testOf "b_test" ["lib", "other"], ruleOf "lib" [], bin], by decide,
    testOf "a_test" ["other"], ruleOf "other" [],
    ⟨by decide, rfl, rfl, [ruleOf "other" []], by decide, by decide⟩, by decide, by decide⟩

/-- With `b_test` on `lib` alone, a map is found, and the condition decides. -/
theorem tests_kept_iff_lib :
    keepTargets (testsGraph ["lib"]) noArgs =
        some [testOf "b_test" ["lib"], ruleOf "lib" [], bin] ∧
      (TestsSettled (testsGraph ["lib"]) noArgs → TestsKept (testsGraph ["lib"]) noArgs) := by
  have hkeep : keepTargets (testsGraph ["lib"]) noArgs =
      some [testOf "b_test" ["lib"], ruleOf "lib" [], bin] := by decide
  exact ⟨hkeep, (tests_kept_iff rfl ⟨_, hkeep⟩).1⟩

end tests

end Please.Gc
