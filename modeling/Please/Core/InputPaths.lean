import Please.Core.IterInputs

/-!
# The input paths of a target

Model of `IterInputPaths` (`src/core/utils.go`). A target is marked as done when everything below it
has been gone through, not before: a cycle of inputs is gone round without end, although the marks
are there "to protect us from dep-graph loops".

Specification: `PathEdge` is a step from a target to one of its inputs.

* `provides_terminate_iff`: when the resolution of labels and both walks end, for all targets of a
  graph.
-/

namespace Please.Core

open Please.Lib.Unfolding Relation InputGraph
open Please.Lib.Except List
open Option (bind_eq_bind bind_eq_some_iff bind_some map_eq_some_iff map_some some.inj)

/-! ## The model -/

section model

variable (graph : InputGraph) (fullPaths : BuildInput → List String)

/-- The input is a `SubrepoFileLabel`. -/
def BuildInput.isSubrepoFile : BuildInput → Bool
  | .subrepoFile _ _ _ => true
  | _ => false

/-- What is done for an input: its paths are yielded, or its label is followed. -/
abbrev PathInput := List String ⊕ BuildLabel

/-- A source or data input with the label that it is followed by, if any (lines 456–471,
483–498). -/
def pathInput (label : BuildInput → Option BuildLabel) (input : BuildInput) : Option PathInput :=
  match label input with
  | some l => some (.inr l)
  | none => if input.isSubrepoFile then none else some (.inl (fullPaths input))

/-- The inputs of a target in the order of the walk: sources, data, then what the dependencies
provide (lines 454–518). -/
def pathInputs (target : BuildTarget) : Option (List PathInput) := do
  let provided ← target.declaredDependencies.mapM fun dep =>
    (graph.target dep).map (·.provideFor target)
  let deps := provided.flatten.insertionSort BuildGraph.labelLe
  some (target.allSources.filterMap (pathInput fullPaths BuildInput.nonOutputLabel) ++
    target.allData.filterMap (pathInput fullPaths BuildInput.label) ++ deps.map .inr)

/-- The labels of the targets that are done, and the paths that were yielded. -/
structure PathsState where
  doneTargets : List BuildLabel := []
  yielded : List String := []

/-- Yield the paths that have not been yielded. -/
def PathsState.yield (st : PathsState) (paths : List String) : PathsState :=
  { st with yielded := paths.foldl (fun ys p => if p ∈ ys then ys else ys ++ [p]) st.yielded }

/-- The labels that a label is followed to (lines 472, 499, 520). -/
def followed (fuel : ℕ) (target : BuildTarget) (l : BuildLabel) : Option (List BuildLabel) :=
  (graph.target l).bind fun t =>
    recursivelyProvideFor graph.toBuildGraph target t fuel t.label

/-- `inner` (lines 450–528), with calls nested at most `fuel` deep. -/
def innerPaths : ℕ → PathsState → BuildTarget → Option PathsState
  | 0, _, _ => none
  | fuel + 1, st, target =>
    if target.label ∈ st.doneTargets then some st
    else do
      let inputs ← pathInputs graph fullPaths target
      let st ← inputs.foldlM (fun st input =>
          input.elim (fun paths => some (st.yield paths)) fun l => do
        let ds ← followed graph fuel target l
        ds.foldlM (fun st d => (graph.target d).bind (innerPaths fuel st)) st) st
      some { st with doneTargets := target.label :: st.doneTargets }

/-- `IterInputPaths` (lines 443–531). -/
def iterInputPaths (fuel : ℕ) (target : BuildTarget) : Option (List String) :=
  (innerPaths graph fullPaths fuel {} target).map (·.yielded)

end model

/-! ## Specification -/

section specification

variable (graph : InputGraph)

/-- The labels that the walk follows from a target. -/
def followedLabels (t : BuildTarget) : List BuildLabel :=
  t.allSources.filterMap BuildInput.nonOutputLabel ++ t.allData.filterMap BuildInput.label ++
    t.declaredDependencies.flatMap fun l => (graph.target l).elim [] (·.provideFor t)

/-- A label that `l` is replaced by, in some number of steps, and that provides itself. -/
def Settles (target dependency : BuildTarget) (l l' : BuildLabel) : Prop :=
  ReflTransGen (ProvidesTo graph.toBuildGraph target dependency) l l' ∧
    Stays (provideStep graph.toBuildGraph target dependency) l'

/-- A step from a target to one that a label which it follows stands for. -/
def PathEdge (t d : BuildTarget) : Prop :=
  d ∈ graph.targets ∧ ∃ l ∈ followedLabels graph t, ∃ t', graph.target l = some t' ∧
    Settles graph t t' l d.label

end specification

/-! ## When the walk ends -/

section walk

variable {graph : InputGraph} {fullPaths : BuildInput → List String} {target : BuildTarget}
  {l : BuildLabel}

theorem mem_pathInputs {inputs : List PathInput}
    (h : pathInputs graph fullPaths target = some inputs) :
    .inr l ∈ inputs ↔ l ∈ followedLabels graph target := by
  obtain ⟨provided, hprovided, hinputs⟩ := bind_eq_some_iff.mp h
  obtain rfl := (some.inj hinputs).symm
  have hinput {label : BuildInput → Option BuildLabel} {inputs : List BuildInput} :
      .inr l ∈ inputs.filterMap (pathInput fullPaths label) ↔ l ∈ inputs.filterMap label := by
    rw [mem_filterMap, mem_filterMap]
    refine exists_congr fun input => and_congr_right fun _ => ?_
    rw [pathInput]
    cases label input with
    | none =>
      dsimp only
      split <;> simp
    | some => simp
  have hdeps : l ∈ provided.flatten ↔
      l ∈ target.declaredDependencies.flatMap fun l =>
        (graph.target l).elim [] (·.provideFor target) := by
    rw [mem_provided hprovided, mem_flatMap]
    refine exists_congr fun dep => and_congr_right fun _ => ?_
    cases graph.target dep <;> simp
  simp only [followedLabels, mem_append, hinput, mem_map, mem_insertionSort,
    Sum.inr.injEq, exists_eq_right, hdeps]

theorem mem_followed_iff {fuel : ℕ} {ds : List BuildLabel}
    (h : followed graph fuel target l = some ds) {l' : BuildLabel} :
    l' ∈ ds ↔ ∃ t', graph.target l = some t' ∧ Settles graph target t' l l' := by
  obtain ⟨t, ht, hds⟩ := bind_eq_some_iff.mp h
  rw [graph.target_label ht, recursivelyProvideFor_eq_unfolding] at hds
  rw [mem_unfolding hds]
  constructor
  · exact fun hsettles => ⟨t, ht, hsettles⟩
  · rintro ⟨t', ht', hsettles⟩
    rwa [some.inj (ht.symm.trans ht')]

/-- What the walk has come back from leads to no cycle. -/
def DoneAcc (graph : InputGraph) (st : PathsState) : Prop :=
  ∀ t ∈ graph.targets, t.label ∈ st.doneTargets → Acc (flip (PathEdge graph)) t

/-- If the walk from a target ends, the target is accessible. -/
theorem acc_of_innerPaths {fuel : ℕ} {st st' : PathsState}
    (ht : target ∈ graph.targets) (hst : DoneAcc graph st)
    (h : innerPaths graph fullPaths fuel st target = some st') :
    DoneAcc graph st' ∧ Acc (flip (PathEdge graph)) target := by
  induction fuel generalizing st st' target with
  | zero => cases h
  | succ _ ih =>
    rw [innerPaths] at h
    split at h
    case isTrue hdone =>
      obtain rfl := some.inj h
      exact ⟨hst, hst target ht hdone⟩
    case isFalse =>
      obtain ⟨inputs, hinputs, h⟩ := bind_eq_some_iff.mp h
      obtain ⟨st₁, hst₁, h⟩ := bind_eq_some_iff.mp h
      obtain rfl := some.inj h
      -- every target that an input leads to has been gone through
      have hfold : DoneAcc graph st₁ ∧ ∀ input ∈ inputs, ∀ l, input = .inr l →
          ∀ t', graph.target l = some t' → ∀ d ∈ graph.targets,
            Settles graph target t' l d.label → Acc (flip (PathEdge graph)) d := by
        refine foldlM_eq_some_spec (fun input _ s s' hs hstep => ?_) hst hst₁
        cases input with
        | inl =>
          obtain rfl := some.inj hstep
          refine ⟨hs, ?_⟩
          rintro l ⟨⟩
        | inr =>
          obtain ⟨ds, hds, hrest⟩ := bind_eq_some_iff.mp hstep
          obtain ⟨hs', hall⟩ : DoneAcc graph s' ∧ ∀ l' ∈ ds, ∀ d ∈ graph.targets, d.label = l' →
              Acc (flip (PathEdge graph)) d := by
            refine foldlM_eq_some_spec (fun l' _ s s' hs hstep => ?_) hs hrest
            obtain ⟨d, hd, hinner⟩ := bind_eq_some_iff.mp hstep
            obtain ⟨hs', hacc⟩ := ih (graph.target_mem hd) hs hinner
            refine ⟨hs', fun d' hd' hlabel => ?_⟩
            rwa [graph.eq_of_label hd' (graph.target_mem hd)
              (hlabel.trans (graph.target_label hd).symm)]
          refine ⟨hs', ?_⟩
          rintro _ ⟨⟩ t' ht' d hd hsettles
          exact hall d.label ((mem_followed_iff hds).mpr ⟨t', ht', hsettles⟩) d hd rfl
      have hacc : Acc (flip (PathEdge graph)) target := by
        refine ⟨_, fun d hedge => ?_⟩
        obtain ⟨hd, l, hl, t', ht', hsettles⟩ := hedge
        exact hfold.2 _ ((mem_pathInputs hinputs).mpr hl) l rfl t' ht' d hd hsettles
      refine ⟨fun t ht' hmem => ?_, hacc⟩
      rcases mem_cons.mp hmem with heq | hmem
      · rwa [graph.eq_of_label ht' ht heq]
      · exact hfold.1 t ht' hmem

/-- A walk that ends has resolved the labels that it follows from its first target. -/
theorem followed_of_iterInputPaths {fuel : ℕ} {t : BuildTarget} {paths : List String}
    (h : iterInputPaths graph fullPaths fuel t = some paths)
    (hl : l ∈ followedLabels graph t) : ∃ n ds, followed graph n t l = some ds := by
  obtain ⟨st, hst, -⟩ := map_eq_some_iff.mp h
  cases fuel with
  | zero => cases hst
  | succ fuel =>
    obtain ⟨inputs, hinputs, hst⟩ := bind_eq_some_iff.mp hst
    obtain ⟨st₁, hst₁, -⟩ := bind_eq_some_iff.mp hst
    obtain ⟨-, hall⟩ : True ∧ ∀ input ∈ inputs, ∀ l, input = .inr l →
        ∃ n ds, followed graph n t l = some ds := by
      refine foldlM_eq_some_spec (I := fun _ => True) (fun input _ s s' _ hstep => ?_) trivial hst₁
      refine ⟨trivial, ?_⟩
      rintro l rfl
      obtain ⟨ds, hds, -⟩ := bind_eq_some_iff.mp hstep
      exact ⟨fuel, ds, hds⟩
    exact hall _ ((mem_pathInputs hinputs).mpr hl) l rfl

section present

variable (hpresent : graph.AllPresent)
include hpresent

variable {t : BuildTarget}

variable (fullPaths) in
theorem exists_pathInputs (ht : t ∈ graph.targets) :
    ∃ inputs, pathInputs graph fullPaths t = some inputs := by
  obtain ⟨provided, hprovided⟩ : ∃ provided, (t.declaredDependencies.mapM fun dep =>
      (graph.target dep).map (·.provideFor t)) = some provided := by
    refine exists_mapM_eq_some fun l hl => ?_
    obtain ⟨dep, hdep⟩ := hpresent.declared ht hl
    exact ⟨dep.provideFor t, by rw [hdep, map_some]⟩
  exact ⟨_, by rw [pathInputs, hprovided, bind_eq_bind, bind_some]⟩

theorem followedLabels_present (ht : t ∈ graph.targets) {l : BuildLabel}
    (hl : l ∈ followedLabels graph t) : ∃ d, graph.target l = some d := by
  have hmention {input : BuildInput} (hinput : input ∈ t.allSources ++ t.allTools ++ t.allData)
      (hlabel : input.label = some l) : ∃ d, graph.target l = some d := by
    refine hpresent t ht l ?_
    have hmem := mem_filterMap.mpr ⟨input, hinput, hlabel⟩
    simp only [mentions, mem_append, filterMap_append] at hmem ⊢
    exact .inl (.inr (.inl hmem))
  simp only [followedLabels, mem_append, mem_filterMap, mem_flatMap] at hl
  rcases hl with (⟨input, hinput, hlabel⟩ | ⟨input, hinput, hlabel⟩) | ⟨dep, hdep, hl⟩
  · have hsome : input.label = some l := by
      cases input <;> cases hlabel
      rfl
    exact hmention (by simp [hinput]) hsome
  · exact hmention (by simp [hinput]) hlabel
  · obtain ⟨d, hd⟩ := hpresent.declared ht hdep
    rw [hd, Option.elim_some] at hl
    exact hpresent.provideFor (graph.target_mem hd) ht hl

variable (hacyclic : ProvidesAcyclic graph.toBuildGraph)
include hacyclic

/-- From some bound on, all labels that the walk follows from a target are resolved. -/
theorem exists_followed (ht : t ∈ graph.targets) :
    ∃ n, ∀ m, n ≤ m → ∀ l ∈ followedLabels graph t, ∃ ds, followed graph m t l = some ds := by
  refine exists_forall_of_forall_exists fun l hl => ?_
  obtain ⟨d, hd⟩ := followedLabels_present hpresent ht hl
  have hself : graph.target d.label = some d := graph.target_eq_some.mpr ⟨graph.target_mem hd, rfl⟩
  obtain ⟨n, hn⟩ := exists_forall_recursivelyProvideFor hpresent hacyclic ht (graph.target_mem hd)
    (forall_mem_singleton.mpr ⟨d, hself⟩)
  refine ⟨n, fun m hm => ?_⟩
  obtain ⟨ds, hds⟩ := hn m hm d.label mem_cons_self
  exact ⟨ds, by rw [followed, hd, bind_some, hds]⟩

omit hpresent hacyclic in
theorem exists_foldlM_innerPaths {m : ℕ} {l : BuildLabel} {ds : List BuildLabel}
    (hl : l ∈ followedLabels graph t) (hds : followed graph m t l = some ds)
    (h : ∀ d ∈ graph.targets, PathEdge graph t d →
      ∀ st, ∃ st', innerPaths graph fullPaths m st d = some st') (st : PathsState) :
    ∃ st', ds.foldlM (fun st d => (graph.target d).bind (innerPaths graph fullPaths m st)) st =
      some st' := by
  refine exists_foldlM_of_total (fun l' hl' st => ?_) st
  obtain ⟨t', ht', hsettles⟩ := (mem_followed_iff hds).mp hl'
  obtain ⟨bs, hbs, -⟩ := hsettles.2
  obtain ⟨d, hd, -⟩ := map_eq_some_iff.mp hbs
  obtain rfl := graph.target_label hd
  obtain ⟨st', hst'⟩ := h d (graph.target_mem hd)
    ⟨graph.target_mem hd, l, hl, t', ht', hsettles⟩ st
  exact ⟨st', by rw [hd, bind_some, hst']⟩

/-- The walk from an accessible target ends, whatever was done before. -/
theorem exists_innerPaths (fullPaths : BuildInput → List String)
    (hacc : Acc (flip (PathEdge graph)) t) (ht : t ∈ graph.targets) :
    ∃ n, ∀ m, n ≤ m → ∀ st, ∃ st', innerPaths graph fullPaths m st t = some st' := by
  induction hacc with
  | intro t _ ih =>
    obtain ⟨n₁, h₁⟩ := exists_followed hpresent hacyclic ht
    obtain ⟨n₂, h₂⟩ : ∃ n, ∀ m, n ≤ m → ∀ d ∈ graph.targets, PathEdge graph t d →
        ∀ st, ∃ st', innerPaths graph fullPaths m st d = some st' := by
      refine exists_forall_of_forall_exists fun d hd => ?_
      by_cases hedge : PathEdge graph t d
      · obtain ⟨n, hn⟩ := ih d hedge hd
        exact ⟨n, fun m hm _ => hn m hm⟩
      · exact ⟨0, fun _ _ h => absurd h hedge⟩
    refine ⟨max n₁ n₂ + 1, fun m hm st => ?_⟩
    obtain ⟨m, rfl⟩ : ∃ k, m = k + 1 := ⟨m - 1, by omega⟩
    rw [innerPaths]
    split
    · exact ⟨st, rfl⟩
    case isFalse =>
      obtain ⟨inputs, hinputs⟩ := exists_pathInputs fullPaths hpresent ht
      have hfold : ∃ st', inputs.foldlM (fun st input => input.elim
          (fun paths => some (st.yield paths)) fun l => do
            let ds ← followed graph m t l
            ds.foldlM (fun st d => (graph.target d).bind (innerPaths graph fullPaths m st)) st) st =
          some st' := by
        refine exists_foldlM_of_total (fun input hinput st => ?_) st
        cases input with
        | inl paths => exact ⟨st.yield paths, rfl⟩
        | inr l =>
          have hl := (mem_pathInputs hinputs).mp hinput
          obtain ⟨ds, hds⟩ := h₁ m (by omega) l hl
          obtain ⟨st', hst'⟩ := exists_foldlM_innerPaths hl hds (h₂ m (by omega)) st
          exact ⟨st', by rw [Sum.elim_inr, hds, bind_eq_bind, bind_some, hst']⟩
      obtain ⟨st', hst'⟩ := hfold
      exact ⟨{ st' with doneTargets := t.label :: st'.doneTargets }, by
        rw [hinputs, bind_eq_bind, bind_some, hst', bind_eq_bind, bind_some]⟩

omit hacyclic in
/-- The resolution of labels and both walks end, for all targets of a graph, if and only if provided
labels lead to no cycle and the inputs do not. -/
theorem provides_terminate_iff :
    ((∀ target ∈ graph.targets, ∀ dependency ∈ graph.targets, ∀ t ∈ graph.targets, ∃ fuel ls,
        recursivelyProvideFor graph.toBuildGraph target dependency fuel t.label = some ls) ∧
      (∀ target ∈ graph.targets, ∀ includeTools sourcesOnly, ∃ fuel inputs,
        iterInputs graph target fuel includeTools sourcesOnly = some inputs) ∧
      ∀ target ∈ graph.targets, ∃ fuel paths,
        iterInputPaths graph fullPaths fuel target = some paths) ↔
      ProvidesAcyclic graph.toBuildGraph ∧
        ∀ t ∈ graph.targets, ¬TransGen (PathEdge graph) t t := by
  constructor
  · rintro ⟨hprovide, -, hpaths⟩
    refine ⟨(exists_recursivelyProvideFor_iff hpresent).mp hprovide, fun t ht => ?_⟩
    obtain ⟨fuel, paths, h⟩ := hpaths t ht
    obtain ⟨st, hst, -⟩ := map_eq_some_iff.mp h
    have hempty : DoneAcc graph {} := fun _ _ hmem => absurd hmem not_mem_nil
    exact not_transGen_of_acc (acc_of_innerPaths ht hempty hst).2 .refl
  · rintro ⟨hacyclic, hcycle⟩
    refine ⟨(exists_recursivelyProvideFor_iff hpresent).mpr hacyclic, ?_, fun target ht => ?_⟩
    · intro target ht includeTools sourcesOnly
      obtain ⟨n, hn⟩ := exists_iterInputs hpresent hacyclic ht
      obtain ⟨inputs, hinputs, -⟩ := hn n le_rfl includeTools sourcesOnly
      exact ⟨n, inputs, hinputs⟩
    · have hmem {t : BuildTarget} : t ∈ graph.targets.toFinset ↔ t ∈ graph.targets :=
        mem_toFinset
      have hacc : Acc (flip (PathEdge graph)) target :=
        acc_of_finite (u := graph.targets.toFinset) (fun _ _ d hedge => hmem.mpr hedge.1)
          (fun t ht => hcycle t (hmem.mp ht)) (hmem.mpr ht)
      obtain ⟨n, hn⟩ := exists_innerPaths hpresent hacyclic fullPaths hacc ht
      obtain ⟨st, hst⟩ := hn n le_rfl {}
      exact ⟨n, st.yielded, by rw [iterInputPaths, hst, map_some]⟩

end present

end walk

/-- `IterInputs` resolves what the build dependencies of its target provide. -/
theorem recursivelyProvideFor_of_iterInputs {graph : InputGraph} {target : BuildTarget} {fuel : ℕ}
    {includeTools : Bool} {inputs : Inputs}
    (h : iterInputs graph target fuel includeTools false = some inputs) {l p : BuildLabel}
    {dep : BuildTarget} (hl : l ∈ target.buildDependencies) (hdep : graph.target l = some dep)
    (hp : p ∈ dep.provideFor target) :
    ∃ n ls, recursivelyProvideFor graph.toBuildGraph target target n p = some ls := by
  have hinner : ∃ st, inner graph target fuel {} target = some st := by
    cases hst : inner graph target fuel {} target with
    | none => cases includeTools <;> simp [iterInputs, hst] at h
    | some st => exact ⟨st, rfl⟩
  obtain ⟨st, hst⟩ := hinner
  cases fuel with
  | zero => cases hst
  | succ fuel =>
    obtain ⟨walk, -, hst⟩ := bind_eq_some_iff.mp hst
    obtain ⟨next, hnext, -⟩ := bind_eq_some_iff.mp hst
    rw [nextInputs, if_pos (by simp)] at hnext
    obtain ⟨provided, hprovided, hnext⟩ := bind_eq_some_iff.mp hnext
    obtain ⟨resolved, hresolved, -⟩ := bind_eq_some_iff.mp hnext
    have hmem : p ∈ provided.flatten.insertionSort BuildGraph.labelLe := by
      rw [mem_insertionSort, mem_provided hprovided]
      exact ⟨l, hl, dep, hdep, hp⟩
    have hsome := mem_map_of_mem
      (f := recursivelyProvideFor graph.toBuildGraph target target fuel) hmem
    rw [mapM_eq_some.mp hresolved] at hsome
    obtain ⟨ls, -, hls⟩ := mem_map.mp hsome
    exact ⟨fuel, ls, hls.symm⟩

theorem provides_terminate_transitiveGraph :
    ((∀ target ∈ transitiveGraph.targets, ∀ dependency ∈ transitiveGraph.targets,
        ∀ t ∈ transitiveGraph.targets, ∃ fuel ls,
        recursivelyProvideFor transitiveGraph.toBuildGraph target dependency fuel t.label
          = some ls) ∧
      (∀ target ∈ transitiveGraph.targets, ∀ includeTools sourcesOnly, ∃ fuel inputs,
        iterInputs transitiveGraph target fuel includeTools sourcesOnly = some inputs) ∧
      ∀ target ∈ transitiveGraph.targets, ∃ fuel paths,
        iterInputPaths transitiveGraph (fun _ => []) fuel target = some paths) ↔
      ProvidesAcyclic transitiveGraph.toBuildGraph ∧
        ∀ t ∈ transitiveGraph.targets, ¬TransGen (PathEdge transitiveGraph) t t :=
  provides_terminate_iff (allPresent_iff.mpr (by decide +kernel))

/-- A target that provides another for Go. -/
def goProvider (name other : String) : BuildTarget :=
  { ruleOf name [] with provides := some (.insert .empty "go" [⟨"p", other, ""⟩]) }

/-- A target that requires Go and depends on `a`. -/
def goConsumer : BuildTarget := { ruleOf "c" ["a"] with requires := ["go"] }

/-- `a` and `b` provide each other, and `c` depends on `a`. -/
def mutualGraph : InputGraph where
  targets := [goProvider "a" "b", goProvider "b" "a", goConsumer]
  runtime := fun _ => {}

theorem not_provides_terminate_mutualGraph :
    mutualGraph.AllPresent ∧
      (¬∃ fuel ls, recursivelyProvideFor mutualGraph.toBuildGraph goConsumer goConsumer fuel
        ⟨"p", "b", ""⟩ = some ls) ∧
      (¬∃ fuel inputs, iterInputs mutualGraph goConsumer fuel false false = some inputs) ∧
      ¬∃ fuel paths, iterInputPaths mutualGraph (fun _ => []) fuel goConsumer = some paths := by
  have hstep : ∀ d ∈ mutualGraph.targets,
      provideStep mutualGraph.toBuildGraph goConsumer d ⟨"p", "b", ""⟩ = some [⟨"p", "a", ""⟩] ∧
      provideStep mutualGraph.toBuildGraph goConsumer d ⟨"p", "a", ""⟩ = some [⟨"p", "b", ""⟩] := by
    decide +kernel
  have hcycle (d : BuildTarget) (hd : d ∈ mutualGraph.targets) : ¬∃ fuel ls,
      recursivelyProvideFor mutualGraph.toBuildGraph goConsumer d fuel ⟨"p", "b", ""⟩ =
        some ls := by
    rintro ⟨fuel, ls, hls⟩
    rw [recursivelyProvideFor_eq_unfolding] at hls
    obtain ⟨hba, hab⟩ := hstep d hd
    refine not_transGen_of_acc (acc_of_unfolding hls) .refl ?_
    exact .head ⟨_, hba, mem_cons_self, by decide⟩
      (.single ⟨_, hab, mem_cons_self, by decide⟩)
  have hconsumer : goConsumer ∈ mutualGraph.targets := by decide +kernel
  have hprovider : mutualGraph.target ⟨"p", "a", ""⟩ = some (goProvider "a" "b") := by
    decide +kernel
  refine ⟨allPresent_iff.mpr (by decide +kernel), hcycle _ hconsumer, ?_, ?_⟩
  · rintro ⟨fuel, inputs, hinputs⟩
    exact hcycle _ hconsumer (recursivelyProvideFor_of_iterInputs hinputs
      (by decide +kernel) hprovider
      (by decide +kernel))
  · rintro ⟨fuel, paths, hpaths⟩
    have hfollowed : ⟨"p", "b", ""⟩ ∈ followedLabels mutualGraph goConsumer := by decide +kernel
    obtain ⟨n, ds, hds⟩ := followed_of_iterInputPaths hpaths hfollowed
    obtain ⟨d, hd, hds⟩ := bind_eq_some_iff.mp hds
    rw [mutualGraph.target_label hd] at hds
    exact hcycle d (mutualGraph.target_mem hd) ⟨n, ds, hds⟩

end Please.Core
