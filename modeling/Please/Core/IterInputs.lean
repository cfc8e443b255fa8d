import Please.Core.Package
import Please.Core.Provides
import Please.Lib.Reach

/-!
# The inputs of a target

Model of `IterAllRuntimeDependencies` (`src/core/build_target.go`) and of `IterInputs` and
`IterSources` (`src/core/utils.go`). A result `none` stands for a crash (`TargetOrDie`), or for
calls that are nested too deep for the bound of the model. What a consumer does not ask for any more
is not left out.

Specification: `InputEdge` is a step of the walk over the dependencies of a target.

* `mem_walk_iff`: the walk ends, and yields what can be reached from the target, once each.
-/

namespace Please.Core

open Please.Lib.Unfolding InputGraph BuildTarget BuildGraph Relation
open Please.Lib.Reach
open Please.Lib.Except List
open Option (bind_eq_bind bind_some map_some)
open Prod (fst snd)

/-! ## Run-time dependencies -/

section runtime

variable (graph : InputGraph)

/-- The labels that are looked up for a target, in order, and whether what they provide is yielded
(build_target.go, lines 738–795). -/
def runtimeLookups (t : BuildTarget) : List (BuildLabel × Bool) :=
  t.runtimeDependencies.map (·, true) ++
    ((t.allData ++ (graph.runtime t).debugData).filterMap BuildInput.label).map (·, false) ++
    (t.dependencies.flatMap fun dep =>
      (if (graph.runtime t).fromSources && dep.source then [dep.label] else []) ++
      if (graph.runtime t).fromDependencies && !dep.exported && !dep.source && !dep.internal &&
          !dep.runtime then
        dep.label :: (graph.target dep.label).elim [] exportedDependencies
      else []).map (·, false)

/-- The keys of `done`, and what was yielded. -/
structure RuntimeState where
  done : List BuildLabel := []
  yielded : List BuildLabel := []

/-- `push` (lines 733–798), with calls nested at most `fuel` deep. -/
def pushRuntime : ℕ → RuntimeState → BuildTarget → Option RuntimeState
  | 0, _, _ => none
  | fuel + 1, st, t =>
    if t.label ∈ st.done then some st
    else (runtimeLookups graph t).foldlM (fun st lookup => do
      let dep ← graph.target lookup.1
      (dep.provideFor t).foldlM (fun st providedDep => do
        let t' ← graph.target providedDep
        pushRuntime fuel
          (if lookup.2 then { st with yielded := st.yielded ++ [providedDep] } else st) t') st)
      { st with done := t.label :: st.done }

/-- `BuildTarget.IterAllRuntimeDependencies` (lines 729–801). -/
def iterAllRuntimeDependencies (fuel : ℕ) (target : BuildTarget) : Option (List BuildLabel) :=
  (pushRuntime graph fuel {} target).map (·.yielded)

/-- The labels of the targets of a graph. -/
def labelSet (graph : BuildGraph) : Finset BuildLabel :=
  (graph.targets.map label).toFinset

variable {graph}

theorem mem_labelSet {graph : BuildGraph} {l : BuildLabel} :
    l ∈ labelSet graph ↔ ∃ t ∈ graph.targets, t.label = l := by
  simp [labelSet]

theorem card_labelSet_le (graph : BuildGraph) : (labelSet graph).card ≤ graph.targets.length :=
  (toFinset_card_le _).trans (by simp)

variable (hpresent : graph.AllPresent) {t : BuildTarget} (ht : t ∈ graph.targets)
include hpresent ht

theorem runtimeLookups_present {lookup : BuildLabel × Bool} (h : lookup ∈ runtimeLookups graph t) :
    ∃ d, graph.target lookup.1 = some d := by
  have hdep {d : BuildTarget} (hd : d ∈ graph.targets) {dep : DeclaredDependency}
      (hdep : dep ∈ d.dependencies) : ∃ d', graph.target dep.label = some d' := by
    refine hpresent d hd _ ?_
    simp only [mentions, mem_append]
    exact .inl (.inl (.inl (mem_map_of_mem hdep)))
  simp only [runtimeLookups, mem_append, mem_map, mem_flatMap] at h
  rcases h with (⟨l, hl, rfl⟩ | ⟨l, hl, rfl⟩) | ⟨l, ⟨dep, hmem, hl⟩, rfl⟩
  · refine hpresent t ht l ?_
    simp only [mentions, mem_append]
    exact .inl (.inl (.inr hl))
  · refine hpresent t ht l ?_
    simp only [mentions, mem_append, filterMap_append] at hl ⊢
    rcases hl with hl | hl
    · exact .inl (.inr (.inl (.inr hl)))
    · exact .inl (.inr (.inr hl))
  · rcases hl with hl | hl
    · split at hl
      · obtain rfl := mem_singleton.mp hl
        exact hdep ht hmem
      · cases hl
    · split at hl
      · rcases mem_cons.mp hl with rfl | hl
        · exact hdep ht hmem
        · obtain ⟨d, hd⟩ := hdep ht hmem
          rw [hd, Option.elim_some, exportedDependencies, mem_map] at hl
          obtain ⟨dep', hdep', rfl⟩ := hl
          exact hdep (graph.target_mem hd) (mem_filter.mp hdep').1
      · cases hl

theorem exists_pushRuntime {fuel : ℕ} {st : RuntimeState}
    (hfuel : unmarked (labelSet graph.toBuildGraph) st.done < fuel) :
    ∃ st', pushRuntime graph fuel st t = some st' ∧ ∀ l ∈ st.done, l ∈ st'.done := by
  induction fuel generalizing st t with
  | zero => omega
  | succ fuel ih =>
    rw [pushRuntime]
    split
    case isTrue => exact ⟨st, rfl, fun _ h => h⟩
    case isFalse hnew =>
      have hlt := unmarked_cons_lt (mem_labelSet.mpr ⟨t, ht, rfl⟩) hnew
      -- what is done stays done, so that the bound stays enough
      let I (st' : RuntimeState) : Prop := ∀ l ∈ t.label :: st.done, l ∈ st'.done
      refine (exists_foldlM_of_forall (I := I) (fun lookup hlookup st₁ h₁ => ?_) fun _ h => h).imp
        fun st' h => ⟨h.1, fun l hl => h.2 l (mem_cons_of_mem _ hl)⟩
      obtain ⟨dep, hdep⟩ := runtimeLookups_present hpresent ht hlookup
      simp only [hdep, bind_eq_bind, bind_some]
      refine exists_foldlM_of_forall (fun p hp st₂ h₂ => ?_) h₁
      obtain ⟨t', ht'⟩ := hpresent.provideFor (graph.target_mem hdep) ht hp
      have hdone : (if lookup.2 then { st₂ with yielded := st₂.yielded ++ [p] } else st₂).done =
          st₂.done := by
        split <;> rfl
      have hbound : unmarked (labelSet graph.toBuildGraph)
          (if lookup.2 then { st₂ with yielded := st₂.yielded ++ [p] } else st₂).done < fuel := by
        rw [hdone]
        exact (unmarked_le h₂).trans_lt (by omega)
      obtain ⟨st₃, hst₃, hkept⟩ := ih (graph.target_mem ht') hbound
      rw [hdone] at hkept
      exact ⟨st₃, by simpa only [ht', bind_some] using hst₃, fun l hl => hkept l (h₂ l hl)⟩

theorem exists_iterAllRuntimeDependencies {fuel : ℕ} (hfuel : graph.targets.length < fuel) :
    ∃ ls, iterAllRuntimeDependencies graph fuel t = some ls := by
  have hbound : unmarked (labelSet graph.toBuildGraph) ({} : RuntimeState).done < fuel :=
    ((Finset.card_le_card Finset.sdiff_subset).trans (card_labelSet_le _)).trans_lt hfuel
  obtain ⟨st, hst, -⟩ := exists_pushRuntime hpresent ht hbound
  exact ⟨st.yielded, by rw [iterAllRuntimeDependencies, hst, map_some]⟩

end runtime

/-! ## Inputs -/

section inputs

variable (graph : InputGraph) (target : BuildTarget)

/-- A label and its run-time dependencies (utils.go, lines 208–215). -/
def withRuntimeDependencies (fuel : ℕ) (p : BuildLabel) : Option (List BuildInput) := do
  let t ← graph.target p
  let runDeps ← iterAllRuntimeDependencies graph fuel t
  some (.target p :: runDeps.map .target)

/-- `recursivelyProvideSource` (utils.go, lines 205–220): what is yielded for a source or a tool. -/
def recursivelyProvideSource (fuel : ℕ) (src : BuildInput) : Option (List BuildInput) :=
  match src.nonOutputLabel with
  | none => some [src]
  | some label => do
    let ps ← recursivelyProvideFor graph.toBuildGraph target target fuel label
    let yields ← ps.mapM (withRuntimeDependencies graph fuel)
    some yields.flatten

/-- The labels that `inner` comes to from `dependency` (lines 236–272), whether they are done or
not. -/
def nextInputs (fuel : ℕ) (dependency : BuildTarget) : Option (List BuildLabel) :=
  if target = dependency || (target.needsTransitiveDependencies && !dependency.outputIsComplete)
      then do
    let provided ← dependency.buildDependencies.mapM fun dep =>
      (graph.target dep).map (·.provideFor dependency)
    let deps := provided.flatten.insertionSort labelLe
    let resolved ← deps.mapM (recursivelyProvideFor graph.toBuildGraph target dependency fuel)
    some (resolved.flatten.filter fun dep2 => !dependency.isTool dep2)
  else do
    let resolved ← dependency.exportedDependencies.mapM
      (recursivelyProvideFor graph.toBuildGraph target dependency fuel)
    some resolved.flatten

/-- The keys of `done`, and what was yielded: each label with the run-time dependencies after it. -/
structure WalkState where
  done : List BuildLabel := []
  walk : List (BuildLabel × List BuildLabel) := []

/-- What has been yielded after a target that `inner` comes to (lines 223–232). -/
def yieldDependency (fuel : ℕ) (walk : List (BuildLabel × List BuildLabel))
    (dependency : BuildTarget) : Option (List (BuildLabel × List BuildLabel)) :=
  if dependency = target then some walk
  else (iterAllRuntimeDependencies graph fuel dependency).map fun runDeps =>
    walk ++ [(dependency.label, runDeps)]

/-- `inner` (lines 221–274), with calls nested at most `fuel` deep. -/
def inner : ℕ → WalkState → BuildTarget → Option WalkState
  | 0, _, _ => none
  | fuel + 1, st, dependency => do
    let walk ← yieldDependency graph target fuel st.walk dependency
    let deps ← nextInputs graph target fuel dependency
    deps.foldlM (fun st dep2 =>
      if dep2 ∈ st.done then some st
      else (graph.target dep2).bind (inner fuel st)) ⟨dependency.label :: st.done, walk⟩

/-- What `IterInputs` yields: for the sources and tools, and by the walk over the dependencies. -/
structure Inputs where
  provided : List BuildInput
  walk : List (BuildLabel × List BuildLabel)

/-- `IterInputs` (lines 202–286). -/
def iterInputs (fuel : ℕ) (includeTools sourcesOnly : Bool) : Option Inputs := do
  let sources ← target.allSources.mapM (recursivelyProvideSource graph target fuel)
  let tools ← if includeTools then target.allTools.mapM (recursivelyProvideSource graph target fuel)
    else some []
  let walk ← if sourcesOnly then some [] else (inner graph target fuel {} target).map (·.walk)
  some ⟨sources.flatten ++ tools.flatten, walk⟩

/-- `IterSources` (lines 181–199) on what `IterInputs` yields. `paths` are the pairs of
`BuildInput.FullPaths` and `BuildInput.Paths`, `join` is `path.Join` with the temporary
directory. -/
def iterSources (paths : BuildInput → List (String × String)) (join : String → String)
    (inputs : List BuildInput) : List (String × String) :=
  (inputs.flatMap paths).foldl (fun yielded p =>
    if join p.2 ∈ yielded.map snd then yielded else yielded ++ [(p.1, join p.2)]) []

end inputs

/-! ## Specification -/

section specification

variable (graph : InputGraph) (target : BuildTarget)

/-- The walk goes on from `d` to its own dependencies, not only to those that it exports. -/
def GoesOn (d : BuildTarget) : Prop :=
  d = target ∨ (target.needsTransitiveDependencies = true ∧ d.outputIsComplete = false)

/-- A step of the walk. -/
def InputEdge (d d' : BuildTarget) : Prop :=
  d' ∈ graph.targets ∧
    ((GoesOn target d ∧ d.isTool d'.label = false ∧
        ∃ l ∈ d.buildDependencies, ∃ dep, graph.target l = some dep ∧
          ∃ p ∈ dep.provideFor d, ResolvesTo graph.toBuildGraph target d p d'.label) ∨
      (¬GoesOn target d ∧ ∃ l ∈ d.exportedDependencies,
        ResolvesTo graph.toBuildGraph target d l d'.label))

end specification

/-! ## The walk -/

section walk

variable {graph : InputGraph} {target t : BuildTarget} {l : BuildLabel}

theorem buildDependencies_subset (h : l ∈ t.buildDependencies) : l ∈ t.declaredDependencies := by
  obtain ⟨dep, hdep, rfl⟩ := mem_map.mp h
  exact mem_map_of_mem (mem_filter.mp hdep).1

theorem exportedDependencies_subset
    (h : l ∈ t.exportedDependencies) : l ∈ t.declaredDependencies := by
  obtain ⟨dep, hdep, rfl⟩ := mem_map.mp h
  exact mem_map_of_mem (mem_filter.mp hdep).1

theorem InputGraph.AllPresent.declared (hpresent : graph.AllPresent)
    (ht : t ∈ graph.targets) (hl : l ∈ t.declaredDependencies) :
    ∃ d, graph.target l = some d := by
  refine hpresent t ht l ?_
  simp only [mentions, mem_append]
  exact .inl (.inl (.inl hl))

variable (hpresent : graph.AllPresent) (hacyclic : ProvidesAcyclic graph.toBuildGraph)
  (htarget : target ∈ graph.targets)
include hpresent hacyclic htarget

variable {d : BuildTarget}

/-- From some bound on, labels resolve to the same labels. -/
theorem exists_mapM_recursivelyProvideFor (hd : d ∈ graph.targets)
    {ls : List BuildLabel} (hls : ∀ l ∈ ls, ∃ t, graph.target l = some t) :
    ∃ n rs, (∀ m, n ≤ m → ls.mapM (recursivelyProvideFor graph.toBuildGraph target d m) = some rs) ∧
      ∀ l', l' ∈ rs.flatten ↔ ∃ l ∈ ls, ResolvesTo graph.toBuildGraph target d l l' := by
  obtain ⟨n, hn⟩ := exists_forall_recursivelyProvideFor hpresent hacyclic htarget hd hls
  obtain ⟨rs, hrs⟩ := exists_mapM_eq_some (hn n le_rfl)
  refine ⟨n, rs, fun m hm => ?_, fun l' => ?_⟩
  · rw [mapM_eq_some, ← mapM_eq_some.mp hrs]
    refine map_congr_left fun l hl => ?_
    obtain ⟨r, hr⟩ := hn n le_rfl l hl
    rw [hr, recursivelyProvideFor_mono hr hm]
  · rw [mem_flatten_of_mapM_eq_some hrs]
    refine exists_congr fun l => and_congr_right fun hl => ?_
    obtain ⟨r, hr⟩ := hn n le_rfl l hl
    simp [hr, resolvesTo_iff hr]

/-- From some bound on, the labels that the walk comes to are those of the edges. -/
theorem exists_nextInputs (hd : d ∈ graph.targets) :
    ∃ n ls, (∀ m, n ≤ m → nextInputs graph target m d = some ls) ∧
      ∀ l, l ∈ ls ↔ ∃ d', d'.label = l ∧ InputEdge graph target d d' := by
  by_cases hgo : GoesOn target d
  · have hcond : (target = d || (target.needsTransitiveDependencies && !d.outputIsComplete))
        = true := by
      rcases hgo with rfl | ⟨h₁, h₂⟩
      · simp
      · simp [h₁, h₂]
    obtain ⟨provided, hprovided⟩ : ∃ provided, (d.buildDependencies.mapM fun dep =>
        (graph.target dep).map (·.provideFor d)) = some provided := by
      refine exists_mapM_eq_some fun l hl => ?_
      obtain ⟨dep, hdep⟩ := hpresent.declared hd (buildDependencies_subset hl)
      exact ⟨dep.provideFor d, by rw [hdep, map_some]⟩
    have hmem (p : BuildLabel) : p ∈ provided.flatten.insertionSort labelLe ↔
        ∃ l ∈ d.buildDependencies, ∃ dep, graph.target l = some dep ∧ p ∈ dep.provideFor d := by
      rw [mem_insertionSort, mem_provided hprovided]
    have hls : ∀ p ∈ provided.flatten.insertionSort labelLe,
        ∃ t, graph.target p = some t := by
      intro p hp
      obtain ⟨l, hl, dep, hdep, hp⟩ := (hmem p).mp hp
      exact hpresent.provideFor (graph.target_mem hdep) hd hp
    obtain ⟨n, rs, hrs, hflat⟩ := exists_mapM_recursivelyProvideFor hpresent hacyclic htarget hd hls
    refine ⟨n, rs.flatten.filter fun dep2 => !d.isTool dep2, fun m hm => ?_, fun l => ?_⟩
    · rw [nextInputs, hcond, if_pos rfl, hprovided]
      simp [hrs m hm]
    · rw [mem_filter, hflat]
      simp only [hmem, Bool.not_eq_true']
      constructor
      · rintro ⟨⟨p, ⟨l', hl', dep, hdep, hp⟩, hresolves⟩, htool⟩
        obtain ⟨d', hd', rfl⟩ := mem_of_resolvesTo hresolves
        exact ⟨d', rfl, hd', .inl ⟨hgo, htool, l', hl', dep, hdep, p, hp, hresolves⟩⟩
      · rintro ⟨d', rfl, hd', ⟨-, htool, l', hl', dep, hdep, p, hp, hresolves⟩ | ⟨hno, -⟩⟩
        · exact ⟨⟨p, ⟨l', hl', dep, hdep, hp⟩, hresolves⟩, htool⟩
        · exact absurd hgo hno
  · have hcond : (target = d || (target.needsTransitiveDependencies && !d.outputIsComplete))
        = false := by
      rw [GoesOn, not_or, not_and] at hgo
      have hne : ¬target = d := fun h => hgo.1 h.symm
      cases htrans : target.needsTransitiveDependencies with
      | false => simp [hne]
      | true => simpa [hne] using hgo.2 htrans
    have hls : ∀ l ∈ d.exportedDependencies, ∃ t, graph.target l = some t := fun l hl =>
      hpresent.declared hd (exportedDependencies_subset hl)
    obtain ⟨n, rs, hrs, hflat⟩ := exists_mapM_recursivelyProvideFor hpresent hacyclic htarget hd hls
    refine ⟨n, rs.flatten, fun m hm => ?_, fun l => ?_⟩
    · rw [nextInputs, hcond]
      simp [hrs m hm]
    · rw [hflat]
      constructor
      · rintro ⟨l', hl', hresolves⟩
        obtain ⟨d', hd', rfl⟩ := mem_of_resolvesTo hresolves
        exact ⟨d', rfl, hd', .inr ⟨hgo, l', hl', hresolves⟩⟩
      · rintro ⟨d', rfl, hd', ⟨hyes, -⟩ | ⟨-, l', hl', hresolves⟩⟩
        · exact absurd hyes hgo
        · exact ⟨l', hl', hresolves⟩

/-- One bound from which on every step of the walk is known. -/
theorem exists_next : ∃ n, ∃ next : BuildTarget → List BuildLabel, ∀ d ∈ graph.targets,
    (∀ m, n ≤ m → nextInputs graph target m d = some (next d)) ∧
      ∀ l, l ∈ next d ↔ ∃ d', d'.label = l ∧ InputEdge graph target d d' := by
  have hall : ∀ d ∈ graph.targets, ∃ n, ∀ k, n ≤ k →
      ∃ ls, (∀ m, k ≤ m → nextInputs graph target m d = some ls) ∧
        ∀ l, l ∈ ls ↔ ∃ d', d'.label = l ∧ InputEdge graph target d d' := by
    intro d hd
    obtain ⟨n, ls, hls, hmem⟩ := exists_nextInputs hpresent hacyclic htarget hd
    exact ⟨n, fun k hk => ⟨ls, fun m hm => hls m (hk.trans hm), hmem⟩⟩
  obtain ⟨n, hn⟩ := exists_forall_of_forall_exists hall
  refine ⟨n, fun d => (nextInputs graph target n d).getD [], fun d hd => ?_⟩
  obtain ⟨ls, hls, hmem⟩ := hn n le_rfl d hd
  simp only [hls n le_rfl, Option.getD_some]
  exact ⟨hls, hmem⟩

omit hpresent hacyclic htarget

/-- What the walk comes to from a label. -/
def labelsFrom (graph : InputGraph) (next : BuildTarget → List BuildLabel) (l : BuildLabel) :
    List BuildLabel :=
  (graph.target l).elim [] next

/-- The state says what is marked; everything but the target has been yielded, in this order. -/
structure Yields (target : BuildTarget) (st : WalkState) (marked : List BuildLabel) : Prop where
  done : st.done = marked
  walk : st.walk.map fst = (marked.filter (· ≠ target.label)).reverse

theorem labelsFrom_eq {next : BuildTarget → List BuildLabel}
    (hd : d ∈ graph.targets) : labelsFrom graph next d.label = next d := by
  rw [labelsFrom, graph.target_eq_some.mpr ⟨hd, rfl⟩, Option.elim_some]

include hpresent htarget in
/-- What `inner` yields for a target keeps the state in step with the marks. -/
theorem exists_yieldDependency {fuel : ℕ} (hfuel : graph.targets.length < fuel) {st : WalkState}
    {marked : List BuildLabel} (hst : Yields target st marked)
    (hd : d ∈ graph.targets) :
    ∃ walk, yieldDependency graph target fuel st.walk d = some walk ∧
      Yields target ⟨d.label :: st.done, walk⟩ (d.label :: marked) := by
  obtain ⟨runDeps, hrun⟩ := exists_iterAllRuntimeDependencies hpresent hd hfuel
  by_cases hdt : d = target
  · exact ⟨st.walk, if_pos hdt, by rw [hst.done], by simp [hdt, hst.walk]⟩
  · have hlabel : d.label ≠ target.label := fun h => hdt (graph.eq_of_label hd htarget h)
    refine ⟨st.walk ++ [(d.label, runDeps)], ?_, by rw [hst.done], by simp [hlabel, hst.walk]⟩
    rw [yieldDependency, if_neg hdt, hrun, map_some]

section next

variable {next : BuildTarget → List BuildLabel} {n₀ : ℕ}
  (hnext : ∀ d ∈ graph.targets, (∀ m, n₀ ≤ m → nextInputs graph target m d = some (next d)) ∧
    ∀ l, l ∈ next d ↔ ∃ d', d'.label = l ∧ InputEdge graph target d d')
include hnext

theorem closed_labelsFrom : Closed (labelsFrom graph next) (labelSet graph.toBuildGraph) := by
  intro l hl l' hl'
  obtain ⟨d, hd, rfl⟩ := mem_labelSet.mp hl
  rw [labelsFrom_eq hd] at hl'
  obtain ⟨d', rfl, hedge⟩ := ((hnext d hd).2 l').mp hl'
  exact mem_labelSet.mpr ⟨d', hedge.1, rfl⟩

/-- Along labels what can be reached is what can be reached along edges. -/
theorem reaches_labelsFrom_iff (htarget : target ∈ graph.targets) {l : BuildLabel} :
    Reaches (labelsFrom graph next) target.label l ↔ ∃ d ∈ graph.targets, d.label = l ∧
      ReflTransGen (InputEdge graph target) target d := by
  constructor
  · intro h
    induction h with
    | refl => exact ⟨target, htarget, rfl, .refl⟩
    | tail _ hedge ih =>
      obtain ⟨d, hd, rfl, hreach⟩ := ih
      rw [Edge, labelsFrom_eq hd] at hedge
      obtain ⟨d', rfl, hinput⟩ := ((hnext d hd).2 _).mp hedge
      exact ⟨d', hinput.1, rfl, hreach.tail hinput⟩
  · rintro ⟨d, -, rfl, hreach⟩
    have hmem : d ∈ graph.targets ∧ Reaches (labelsFrom graph next) target.label d.label := by
      induction hreach with
      | refl => exact ⟨htarget, .refl⟩
      | @tail d d' _ hedge ih =>
        refine ⟨hedge.1, ih.2.tail ?_⟩
        rw [Edge, labelsFrom_eq ih.1]
        exact ((hnext d ih.1).2 _).mpr ⟨d', rfl, hedge⟩
    exact hmem.2

include hpresent htarget

/-- `inner`, for a target that is not done, and with enough calls left. -/
theorem inner_eq_visit {n fuel : ℕ} (hfuel : n + n₀ + graph.targets.length < fuel) {st : WalkState}
    {marked : List BuildLabel} (hst : Yields target st marked)
    (hn : unmarked (labelSet graph.toBuildGraph) marked ≤ n) {d : BuildTarget}
    (hd : d ∈ graph.targets) (hnew : d.label ∉ marked) :
    ∃ st', inner graph target fuel st d = some st' ∧
      Yields target st' (visit (labelsFrom graph next) n marked d.label) := by
  induction n generalizing fuel st marked d with
  | zero => exact absurd (mem_of_unmarked_eq_zero (mem_labelSet.mpr ⟨d, hd, rfl⟩) hn) hnew
  | succ n ih =>
    obtain ⟨fuel, rfl⟩ : ∃ k, fuel = k + 1 := ⟨fuel - 1, by omega⟩
    obtain ⟨walk, hwalk, hyields⟩ :=
      exists_yieldDependency hpresent htarget (show _ < fuel by omega) hst hd
    have hlt := unmarked_cons_lt (mem_labelSet.mpr ⟨d, hd, rfl⟩) hnew
    rw [inner, hwalk, (hnext d hd).1 fuel (by omega), visit, if_neg hnew, labelsFrom_eq hd]
    -- the marks only grow, so that the number of calls that are left stays enough
    let R (st : WalkState) (marked : List BuildLabel) : Prop :=
      Yields target st marked ∧ unmarked (labelSet graph.toBuildGraph) marked ≤ n
    refine (exists_foldlM_eq_foldl (R := R) (fun l hl st₁ marked₁ h₁ => ?_)
      ⟨hyields, by omega⟩).imp fun st' h => ⟨h.1, h.2.1⟩
    obtain ⟨d', rfl, hedge⟩ := ((hnext d hd).2 l).mp hl
    have hmarks := marks_visit (closed_labelsFrom hnext) (mem_labelSet.mpr ⟨d', hedge.1, rfl⟩) h₁.2
    have hbound := (unmarked_le (u := labelSet graph.toBuildGraph) hmarks.kept).trans h₁.2
    by_cases hmem : d'.label ∈ marked₁
    · have hskip : visit (labelsFrom graph next) n marked₁ d'.label = marked₁ := by
        cases n with
        | zero => rfl
        | succ => rw [visit, if_pos hmem]
      refine ⟨st₁, by rw [h₁.1.done, if_pos hmem], ?_⟩
      rw [hskip]
      exact h₁
    · obtain ⟨st₂, hst₂, h₂⟩ :=
        ih (show n + n₀ + graph.targets.length < fuel by omega) h₁.1 h₁.2 hedge.1
        hmem
      refine ⟨st₂, ?_, h₂, hbound⟩
      rw [h₁.1.done, if_neg hmem, graph.target_eq_some.mpr ⟨hedge.1, rfl⟩]
      exact hst₂

end next

/-! ## What is yielded -/

include hpresent hacyclic htarget in
theorem exists_recursivelyProvideSource (srcs : List BuildInput)
    (hsrcs : ∀ src ∈ srcs, src ∈ target.allSources ++ target.allTools) :
    ∃ n, ∀ m, n ≤ m → ∃ ys, srcs.mapM (recursivelyProvideSource graph target m) = some ys := by
  have hall : ∀ src ∈ srcs, ∃ n, ∀ m, n ≤ m →
      ∃ ys, recursivelyProvideSource graph target m src = some ys := by
    intro src hsrc
    cases hlabel : src.nonOutputLabel with
    | none => exact ⟨0, fun m _ => ⟨[src], by rw [recursivelyProvideSource, hlabel]⟩⟩
    | some label =>
      have hmention : label ∈ graph.mentions target := by
        have hsome : src.label = some label := by
          cases src <;> cases hlabel
          rfl
        have hmem := mem_filterMap.mpr ⟨src, hsrcs src hsrc, hsome⟩
        simp only [mentions, mem_append, filterMap_append] at hmem ⊢
        exact .inl (.inr (.inl (.inl hmem)))
      have hpres := hpresent target htarget label hmention
      obtain ⟨n, hn⟩ := exists_forall_recursivelyProvideFor hpresent hacyclic htarget htarget
        (forall_mem_singleton.mpr hpres)
      refine ⟨max n (graph.targets.length + 1), fun m hm => ?_⟩
      obtain ⟨ps, hps⟩ := hn m ((le_max_left _ _).trans hm) label mem_cons_self
      obtain ⟨ys, hys⟩ : ∃ ys, ps.mapM (withRuntimeDependencies graph m) = some ys := by
        refine exists_mapM_eq_some fun p hp => ?_
        obtain ⟨t, ht, rfl⟩ := mem_of_resolvesTo ((resolvesTo_iff hps).mpr hp)
        obtain ⟨runDeps, hrun⟩ := exists_iterAllRuntimeDependencies hpresent ht
          (show graph.targets.length < m from (le_max_right _ _).trans hm)
        exact ⟨_, by rw [withRuntimeDependencies, graph.target_eq_some.mpr ⟨ht, rfl⟩,
          bind_eq_bind, bind_some, hrun, bind_eq_bind, bind_some]⟩
      refine ⟨ys.flatten, ?_⟩
      simp only [recursivelyProvideSource, hlabel, hps, hys, bind_eq_bind, bind_some]
  obtain ⟨n, hn⟩ := exists_forall_of_forall_exists hall
  exact ⟨n, fun m hm => exists_mapM_eq_some (hn m hm)⟩

include hpresent hacyclic htarget in
/-- The walk from a target, with any bound that is large enough. -/
theorem exists_inner : ∃ n, ∀ m, n ≤ m → ∃ st, inner graph target m {} target = some st ∧
    (st.walk.map fst).Nodup ∧
    ∀ l, l ∈ st.walk.map fst ↔ ∃ d ∈ graph.targets, d.label = l ∧ d ≠ target ∧
      ReflTransGen (InputEdge graph target) target d := by
  obtain ⟨n₀, next, hnext⟩ := exists_next hpresent hacyclic htarget
  let n := graph.targets.length
  refine ⟨n + n₀ + n + 1, fun m hm => ?_⟩
  have hempty : Yields target {} [] := ⟨rfl, rfl⟩
  obtain ⟨st, hst, hyields⟩ := inner_eq_visit hpresent htarget hnext (show n + n₀ + n < m by omega)
    hempty ((Finset.card_le_card Finset.sdiff_subset).trans (card_labelSet_le _)) htarget
    not_mem_nil
  have hmarked (l : BuildLabel) : l ∈ visit (labelsFrom graph next) n [] target.label ↔
      ∃ d ∈ graph.targets, d.label = l ∧ ReflTransGen (InputEdge graph target) target d := by
    have hvisit : l ∈ visitAll (labelsFrom graph next) n [] [target.label] ↔ _ :=
      mem_visitAll (closed_labelsFrom hnext)
        (forall_mem_singleton.mpr (mem_labelSet.mpr ⟨target, htarget, rfl⟩))
        (card_labelSet_le _) (forall_mem_nil _)
    rw [← reaches_labelsFrom_iff hnext htarget]
    simpa [visitAll] using hvisit
  refine ⟨st, hst, ?_, fun l => ?_⟩
  · rw [hyields.walk, nodup_reverse]
    exact (nodup_visit nodup_nil).filter _
  · rw [hyields.walk, mem_reverse, mem_filter, hmarked]
    simp only [ne_eq, decide_eq_true_eq]
    constructor
    · rintro ⟨⟨d, hd, rfl, hreach⟩, hne⟩
      exact ⟨d, hd, rfl, fun h => hne (by rw [h]), hreach⟩
    · rintro ⟨d, hd, rfl, hne, hreach⟩
      exact ⟨⟨d, hd, rfl, hreach⟩, fun h => hne (graph.eq_of_label hd htarget h)⟩

/-- A temporary path is yielded once. -/
theorem nodup_iterSources (paths : BuildInput → List (String × String)) (join : String → String)
    (inputs : List BuildInput) : ((iterSources paths join inputs).map snd).Nodup := by
  refine foldlRecOn (motive := fun ys : List (_ × _) => (ys.map snd).Nodup) _ _ nodup_nil
    fun yielded h p _ => ?_
  split
  · exact h
  case isFalse hnew =>
    rw [map_append, nodup_append]
    refine ⟨h, by simp, fun t ht t' ht' => ?_⟩
    obtain rfl : t' = join p.2 := by simpa using ht'
    exact fun heq => hnew (heq ▸ ht)

include hpresent hacyclic htarget in
/-- `IterInputs` ends, and its walk is that of `inner`. -/
theorem exists_iterInputs : ∃ n, ∀ fuel, n ≤ fuel → ∀ includeTools sourcesOnly, ∃ inputs,
    iterInputs graph target fuel includeTools sourcesOnly = some inputs ∧
      (sourcesOnly = false → ∃ st, inner graph target fuel {} target = some st ∧
        inputs.walk = st.walk) := by
  obtain ⟨n₁, h₁⟩ := exists_recursivelyProvideSource hpresent hacyclic htarget
    target.allSources fun src h => mem_append_left _ h
  obtain ⟨n₂, h₂⟩ := exists_recursivelyProvideSource hpresent hacyclic htarget
    target.allTools fun src h => mem_append_right _ h
  obtain ⟨n₃, h₃⟩ := exists_inner hpresent hacyclic htarget
  refine ⟨max n₁ (max n₂ n₃), fun fuel hfuel includeTools sourcesOnly => ?_⟩
  obtain ⟨sources, hsources⟩ := h₁ fuel (by omega)
  obtain ⟨tools, htools⟩ := h₂ fuel (by omega)
  obtain ⟨st, hst, -⟩ := h₃ fuel (by omega)
  refine ⟨⟨sources.flatten ++ (if includeTools then tools else []).flatten,
    if sourcesOnly then [] else st.walk⟩, ?_, fun hall => ⟨st, hst, by rw [hall]; rfl⟩⟩
  cases includeTools <;> cases sourcesOnly <;> simp [iterInputs, hsources, htools, hst]

/-- `IterInputs` ends; by its walk it yields the targets that can be reached from the target, other
than that itself, once each. And `IterSources` yields no temporary path twice. -/
theorem mem_walk_iff (hpresent : graph.AllPresent) (hacyclic : ProvidesAcyclic graph.toBuildGraph)
    (htarget : target ∈ graph.targets) (includeTools : Bool) :
    (∃ n, ∀ fuel, n ≤ fuel → ∃ inputs,
      iterInputs graph target fuel includeTools false = some inputs ∧
      (inputs.walk.map fst).Nodup ∧
      ∀ l, l ∈ inputs.walk.map fst ↔ ∃ d ∈ graph.targets, d.label = l ∧ d ≠ target ∧
        ReflTransGen (InputEdge graph target) target d) ∧
      ∀ paths join inputs, ((iterSources paths join inputs).map snd).Nodup := by
  refine ⟨?_, nodup_iterSources⟩
  obtain ⟨n₁, h₁⟩ := exists_iterInputs hpresent hacyclic htarget
  obtain ⟨n₂, h₂⟩ := exists_inner hpresent hacyclic htarget
  refine ⟨max n₁ n₂, fun fuel hfuel => ?_⟩
  obtain ⟨inputs, hinputs, hwalk⟩ := h₁ fuel (by omega) includeTools false
  obtain ⟨st, hst, heq⟩ := hwalk rfl
  obtain ⟨st', hst', hspec⟩ := h₂ fuel (by omega)
  obtain rfl := Option.some.inj (hst.symm.trans hst')
  exact ⟨inputs, hinputs, by rwa [heq]⟩

end walk

/-- `a` depends on `d`, which provides `p` for it, and that depends on `q`. -/
def transitiveGraph : InputGraph where
  targets :=
    [{ ruleOf "a" ["d"] with requires := ["go"], needsTransitiveDependencies := true },
     { ruleOf "d" [] with provides := some (.insert .empty "go" [⟨"p", "p", ""⟩]) },
     ruleOf "p" ["q"], ruleOf "q" []]
  runtime := fun _ => {}

theorem mem_walk_transitiveGraph :
    (∃ n, ∀ fuel, n ≤ fuel → ∃ inputs, iterInputs transitiveGraph
        { ruleOf "a" ["d"] with requires := ["go"], needsTransitiveDependencies := true }
        fuel true false = some inputs ∧
      (inputs.walk.map fst).Nodup ∧
      ∀ l, l ∈ inputs.walk.map fst ↔ ∃ d ∈ transitiveGraph.targets, d.label = l ∧
        d ≠ { ruleOf "a" ["d"] with requires := ["go"], needsTransitiveDependencies := true } ∧
        ReflTransGen (InputEdge transitiveGraph
          { ruleOf "a" ["d"] with requires := ["go"], needsTransitiveDependencies := true })
          { ruleOf "a" ["d"] with requires := ["go"], needsTransitiveDependencies := true } d) ∧
      ∀ paths join inputs, ((iterSources paths join inputs).map snd).Nodup := by
  have hpresent : transitiveGraph.AllPresent := allPresent_iff.mpr (by decide +kernel)
  have hacyclic : ProvidesAcyclic transitiveGraph.toBuildGraph :=
    providesAcyclic_of_rank (fun l => if l.name = "p" then 1 else 0) (by decide +kernel)
  exact mem_walk_iff hpresent hacyclic (by decide +kernel) true

end Please.Core
