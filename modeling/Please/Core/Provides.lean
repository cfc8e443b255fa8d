import Please.Core.Target
import Please.Lib.Unfolding

/-!
# Resolving require and provide

Model of `recursivelyProvideFor` (`src/core/utils.go`): a label is replaced by what its target
provides, again and again, until it provides itself. There is no record of the labels that were met.

Specification: `ProvidesTo` is one step of this.
-/

namespace Please.Core

open Please.Lib.Unfolding BuildTarget Relation
open Please.Lib (SortedMap)
open List

/-! ## Inputs and dependencies of a target -/

/-- `BuildInput.nonOutputLabel` (build_input.go): the label of a target, not that of one output. -/
def BuildInput.nonOutputLabel : BuildInput → Option BuildLabel
  | .target l => some l
  | _ => none

namespace BuildTarget

variable (target : BuildTarget)

/-- `BuildTarget.AllTools` (lines 1723–1728). -/
def allTools : List BuildInput := combinedBuildInputs target.tools target.namedTools

/-- `BuildTarget.ExportedDependencies` (lines 663–675). -/
def exportedDependencies : List BuildLabel :=
  (target.dependencies.filter (·.exported)).map (·.label)

/-- `BuildTarget.BuildDependencies` (lines 678–690). -/
def buildDependencies : List BuildLabel :=
  (target.dependencies.filter fun dep =>
    !dep.runtime && !dep.data && !dep.internal && !dep.source).map (·.label)

end BuildTarget

/-- Three fields of a target that only the run-time dependencies depend on: `AllDebugData` (empty if
there are no debug fields), and where run-time dependencies are taken from. -/
structure RuntimeFields where
  debugData : List BuildInput := []
  fromSources : Bool := false
  fromDependencies : Bool := false

/-- `BuildGraph`, with these fields of its targets. -/
structure InputGraph extends BuildGraph where
  runtime : BuildTarget → RuntimeFields

namespace InputGraph

variable (graph : InputGraph)

/-- The labels that a target names in any of its fields but `provides`, and those that it provides
for a target of the graph. -/
def mentions (t : BuildTarget) : List BuildLabel :=
  t.declaredDependencies ++ t.runtimeDependencies ++
    (t.allSources ++ t.allTools ++ t.allData ++ (graph.runtime t).debugData).filterMap
      BuildInput.label ++ graph.targets.flatMap t.provideFor

/-- All labels that are looked up are present in the graph. -/
def AllPresent : Prop := ∀ t ∈ graph.targets, ∀ l ∈ graph.mentions t, ∃ d, graph.target l = some d

variable {graph} in
theorem allPresent_iff : graph.AllPresent ↔
    ∀ t ∈ graph.targets, ∀ l ∈ graph.mentions t, (graph.target l).isSome = true := by
  simp only [AllPresent, Option.isSome_iff_exists]

end InputGraph

variable {l : BuildLabel}

theorem InputGraph.AllPresent.provideFor {graph : InputGraph} (h : graph.AllPresent)
    {t other : BuildTarget} (ht : t ∈ graph.targets) (hother : other ∈ graph.targets)
    (hl : l ∈ t.provideFor other) : ∃ d, graph.target l = some d :=
  h t ht l (mem_append_right _ (mem_flatMap.mpr ⟨other, hother, hl⟩))

/-! ## The model -/

variable (graph : BuildGraph) (target dependency : BuildTarget)

/-- `recursivelyProvideFor` (lines 289–317), with calls nested at most `fuel` deep. -/
def recursivelyProvideFor : ℕ → BuildLabel → Option (List BuildLabel)
  | 0, _ => none
  | fuel + 1, dep => do
    let depTarget ← graph.target dep
    let ret := depTarget.provideFor dependency
    if ret = [dep] then
      -- up to the top-level target
      let ret := depTarget.provideFor target
      if ret = [dep] then some [dep]
      else (ret.mapM fun r =>
        if r = dep then some [r] else recursivelyProvideFor fuel r).map List.flatten
    else (ret.mapM fun r =>
      if r = dep then some [r] else recursivelyProvideFor fuel r).map List.flatten

/-- What a label is replaced by in one step. -/
def provideStep (dep : BuildLabel) : Option (List BuildLabel) :=
  (graph.target dep).map fun depTarget =>
    if depTarget.provideFor dependency = [dep] then depTarget.provideFor target
    else depTarget.provideFor dependency

/-- One step leads from `l` to another label `l'`. -/
def ProvidesTo (l l' : BuildLabel) : Prop := Leads (provideStep graph target dependency) l l'

/-- The resolution of `l` ends, and `l'` is among the results. -/
def ResolvesTo (l l' : BuildLabel) : Prop :=
  ∃ fuel ls, recursivelyProvideFor graph target dependency fuel l = some ls ∧ l' ∈ ls

/-- No label leads back to itself through others, whatever the targets that it is resolved for. -/
def ProvidesAcyclic : Prop :=
  ∀ target ∈ graph.targets, ∀ dependency ∈ graph.targets, ∀ l,
    ¬TransGen (ProvidesTo graph target dependency) l l

variable {graph target dependency} {ls : List BuildLabel}

/-- What the targets of some labels provide. -/
theorem mem_provided {provided : List (List BuildLabel)}
    (h : (ls.mapM fun l => (graph.target l).map (·.provideFor target)) = some provided)
    {p : BuildLabel} : p ∈ provided.flatten ↔
      ∃ l ∈ ls, ∃ dep, graph.target l = some dep ∧ p ∈ dep.provideFor target := by
  simp [Lib.Except.mem_flatten_of_mapM_eq_some h]

theorem recursivelyProvideFor_eq_unfolding {fuel : ℕ} {dep : BuildLabel} :
    recursivelyProvideFor graph target dependency fuel dep =
      unfolding (provideStep graph target dependency) fuel dep := by
  induction fuel generalizing dep with
  | zero => rfl
  | succ _ ih =>
    rw [recursivelyProvideFor, unfolding, provideStep]
    cases graph.target dep with
    | none => rfl
    | some =>
      simp only [Option.bind_eq_bind, Option.bind_some, Option.map_some, ih]
      split
      case isTrue =>
        split
        case isTrue hself => simp [hself]
        case isFalse => rfl
      case isFalse => rfl

/-! ## When the resolution ends -/

theorem recursivelyProvideFor_mono {n m : ℕ}
    (h : recursivelyProvideFor graph target dependency n l = some ls) (hle : n ≤ m) :
    recursivelyProvideFor graph target dependency m l = some ls := by
  rw [recursivelyProvideFor_eq_unfolding] at h ⊢
  exact unfolding_mono h hle

theorem mem_of_resolvesTo {l' : BuildLabel} (h : ResolvesTo graph target dependency l l') :
    ∃ d ∈ graph.targets, d.label = l' := by
  obtain ⟨fuel, ls, hls, hmem⟩ := h
  rw [recursivelyProvideFor_eq_unfolding] at hls
  obtain ⟨-, bs, hbs, -⟩ := (mem_unfolding hls).mp hmem
  obtain ⟨d, hd, -⟩ := Option.map_eq_some_iff.mp hbs
  exact ⟨d, graph.target_mem hd, graph.target_label hd⟩

/-- What the resolution of a label gives with a bound, it gives with any. -/
theorem resolvesTo_iff {n : ℕ} {l' : BuildLabel}
    (h : recursivelyProvideFor graph target dependency n l = some ls) :
    ResolvesTo graph target dependency l l' ↔ l' ∈ ls := by
  constructor
  · rintro ⟨m, ls', hls', hmem⟩
    rw [recursivelyProvideFor_eq_unfolding] at h hls'
    rwa [unfolding_unique h hls']
  · exact fun hmem => ⟨n, ls, h, hmem⟩

/-- Nothing leads back if what a target provides, other than itself, has a larger rank. -/
theorem providesAcyclic_of_rank (rank : BuildLabel → ℕ)
    (h : ∀ t ∈ graph.targets, ∀ other ∈ graph.targets, ∀ l ∈ t.provideFor other,
      l = t.label ∨ rank t.label < rank l) :
    ProvidesAcyclic graph := by
  intro target htarget dependency hdependency l hcycle
  have hstep {l l' : BuildLabel} (hl : ProvidesTo graph target dependency l l') :
      rank l < rank l' := by
    obtain ⟨ls, hls, hmem, hne⟩ := hl
    obtain ⟨t, ht, rfl⟩ := Option.map_eq_some_iff.mp hls
    have hprovided : l' = t.label ∨ rank t.label < rank l' := by
      split at hmem
      · exact h t (graph.target_mem ht) target htarget l' hmem
      · exact h t (graph.target_mem ht) dependency hdependency l' hmem
    rw [graph.target_label ht] at hprovided
    exact hprovided.resolve_left hne
  have hlt {l l' : BuildLabel} (hl : TransGen (ProvidesTo graph target dependency) l l') :
      rank l < rank l' := by
    induction hl with
    | single hl => exact hstep hl
    | tail _ hl ih => exact ih.trans (hstep hl)
  exact lt_irrefl _ (hlt hcycle)

section present

variable {graph : InputGraph} (hpresent : graph.AllPresent)
include hpresent

variable {t : BuildTarget} (htarget : target ∈ graph.targets)
    (hdependency : dependency ∈ graph.targets)
include htarget hdependency

theorem exists_provideStep (ht : t ∈ graph.targets) :
    ∃ ls, provideStep graph.toBuildGraph target dependency t.label = some ls ∧
      ∀ l ∈ ls, ∃ d ∈ graph.targets, d.label = l := by
  have hmem {other : BuildTarget} (hother : other ∈ graph.targets) {l : BuildLabel}
      (hl : l ∈ t.provideFor other) : ∃ d ∈ graph.targets, d.label = l := by
    obtain ⟨d, hd⟩ := hpresent.provideFor ht hother hl
    exact ⟨d, graph.target_mem hd, graph.target_label hd⟩
  rw [provideStep, graph.target_eq_some.mpr ⟨ht, rfl⟩, Option.map_some]
  refine ⟨_, rfl, fun l hl => ?_⟩
  split at hl
  · exact hmem htarget hl
  · exact hmem hdependency hl

theorem providesTo_mem (ht : t ∈ graph.targets) {l : BuildLabel}
    (h : ProvidesTo graph.toBuildGraph target dependency t.label l) :
    ∃ d ∈ graph.targets, d.label = l := by
  obtain ⟨ls, hls, hl, -⟩ := h
  obtain ⟨ls', hls', hmem⟩ := exists_provideStep hpresent htarget hdependency ht
  obtain rfl := Option.some.inj (hls.symm.trans hls')
  exact hmem l hl

theorem exists_recursivelyProvideFor
    (hcycle : ∀ l, ¬TransGen (ProvidesTo graph.toBuildGraph target dependency) l l)
    (ht : t ∈ graph.targets) :
    ∃ fuel ls, recursivelyProvideFor graph.toBuildGraph target dependency fuel t.label =
      some ls := by
  let u : Finset BuildLabel := (graph.targets.map label).toFinset
  have hmem {l : BuildLabel} : l ∈ u ↔ ∃ d ∈ graph.targets, d.label = l := by simp [u]
  have hclosed : ∀ l ∈ u, ∀ l', ProvidesTo graph.toBuildGraph target dependency l l' → l' ∈ u := by
    intro l hl l' hl'
    obtain ⟨d, hd, rfl⟩ := hmem.mp hl
    exact hmem.mpr (providesTo_mem hpresent htarget hdependency hd hl')
  have hacc : Acc (flip (ProvidesTo graph.toBuildGraph target dependency)) t.label :=
    acc_of_finite hclosed (fun l _ => hcycle l) (hmem.mpr ⟨t, ht, rfl⟩)
  simp only [recursivelyProvideFor_eq_unfolding]
  refine exists_unfolding hacc fun l hl => ?_
  have hlu : l ∈ u := by
    induction hl with
    | refl => exact hmem.mpr ⟨t, ht, rfl⟩
    | tail _ hstep ih => exact hclosed _ ih _ hstep
  obtain ⟨d, hd, rfl⟩ := hmem.mp hlu
  obtain ⟨ls, hls, -⟩ := exists_provideStep hpresent htarget hdependency hd
  exact ⟨ls, hls⟩

omit htarget hdependency in
/-- The resolution ends for every label of the graph, and whatever it is resolved for, if and only
if no label leads back to itself through others. -/
theorem exists_recursivelyProvideFor_iff :
    (∀ target ∈ graph.targets, ∀ dependency ∈ graph.targets, ∀ t ∈ graph.targets,
      ∃ fuel ls, recursivelyProvideFor graph.toBuildGraph target dependency fuel t.label
        = some ls) ↔
      ProvidesAcyclic graph.toBuildGraph := by
  constructor
  · intro h target ht dependency hd l hcycle
    obtain ⟨l', hstep, -⟩ := TransGen.head'_iff.mp hcycle
    obtain ⟨ls, hls, -⟩ := hstep
    obtain ⟨d, hl, -⟩ := Option.map_eq_some_iff.mp hls
    obtain ⟨fuel, ls, hls⟩ := h target ht dependency hd d (graph.target_mem hl)
    rw [recursivelyProvideFor_eq_unfolding, graph.target_label hl] at hls
    exact not_transGen_of_acc (acc_of_unfolding hls) .refl hcycle
  · intro h target ht dependency hd t ht'
    exact exists_recursivelyProvideFor hpresent ht hd (h target ht dependency hd) ht'

omit htarget hdependency in
/-- One bound for the labels of a list. -/
theorem exists_forall_recursivelyProvideFor (hacyclic : ProvidesAcyclic graph.toBuildGraph)
    (ht : target ∈ graph.targets) (hd : dependency ∈ graph.targets) {ls : List BuildLabel}
    (hls : ∀ l ∈ ls, ∃ d, graph.target l = some d) :
    ∃ n, ∀ m, n ≤ m → ∀ l ∈ ls,
      ∃ rs, recursivelyProvideFor graph.toBuildGraph target dependency m l = some rs := by
  refine exists_forall_of_forall_exists fun l hl => ?_
  obtain ⟨d, hd'⟩ := hls l hl
  obtain ⟨n, rs, hrs⟩ := exists_recursivelyProvideFor hpresent ht hd
    (hacyclic target ht dependency hd)
    (graph.target_mem hd')
  rw [graph.target_label hd'] at hrs
  exact ⟨n, fun m hm => ⟨rs, recursivelyProvideFor_mono hrs hm⟩⟩

end present

end Please.Core
