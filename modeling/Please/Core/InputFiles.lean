import Please.Core.InputPaths
import Please.Build.Incrementality
import Please.Lib.Walk

/-!
# What the input paths of a target are

What `IterInputPaths` (`src/core/utils.go`, lines 443–531) yields, and models of `Outputs`,
`NamedOutputs` (`src/core/build_target.go`) and `FullPaths` (`src/core/build_input.go`).

A target is marked when everything below it has been gone through, so that only graphs without
cycles of inputs are gone through at all, and then each target once. A source that names an output
of a target is not followed, as data is: `nonOutputLabel` is none for it, and its path is yielded.

* `exists_innerPaths_once_iff`: when it ends.
* `iterInputPaths_source_iff`: when it yields files only that are not outputs.
-/

namespace Please.Core

open Please.Lib.Unfolding Relation PathsState InputGraph BuildInput
open Please.Lib.Except
open Please.Lib.Walk List
open Option (bind_eq_some_iff some.inj)

/-! ## What is yielded for a target -/

section own

variable (fullPaths : BuildInput → List String)

/-- The inputs of a target whose paths are yielded. -/
def ownInputs (t : BuildTarget) : List BuildInput :=
  (t.allSources.filter (·.nonOutputLabel.isNone) ++ t.allData.filter (·.label.isNone)).filter
    (!·.isSubrepoFile)

/-- The paths that are yielded for a target. -/
def ownPaths (t : BuildTarget) : Set String := {p | ∃ input ∈ ownInputs t, p ∈ fullPaths input}

variable {fullPaths} {graph : InputGraph}

theorem pathInput_eq_inl {label : BuildInput → Option BuildLabel} {input : BuildInput}
    {paths : List String} : pathInput fullPaths label input = some (.inl paths) ↔
      label input = none ∧ input.isSubrepoFile = false ∧ fullPaths input = paths := by
  rw [pathInput]
  cases label input with
  | some => simp
  | none => cases input.isSubrepoFile <;> simp

theorem mem_ownPaths {t : BuildTarget} {inputs : List PathInput}
    (h : pathInputs graph fullPaths t = some inputs) {p : String} :
    p ∈ ownPaths fullPaths t ↔ ∃ paths, .inl paths ∈ inputs ∧ p ∈ paths := by
  obtain ⟨provided, -, hinputs⟩ := bind_eq_some_iff.mp h
  obtain rfl := (some.inj hinputs).symm
  simp only [ownPaths, ownInputs, Set.mem_ofPred_eq, mem_filter, mem_append,
    mem_filterMap, pathInput_eq_inl, mem_map, reduceCtorEq, and_false, exists_false,
    or_false, Option.isNone_iff_eq_none, Bool.not_eq_true']
  constructor
  · rintro ⟨input, ⟨⟨hmem, hlabel⟩ | ⟨hmem, hlabel⟩, hsub⟩, hp⟩
    · exact ⟨_, .inl ⟨input, hmem, hlabel, hsub, rfl⟩, hp⟩
    · exact ⟨_, .inr ⟨input, hmem, hlabel, hsub, rfl⟩, hp⟩
  · rintro ⟨_, ⟨input, hmem, hlabel, hsub, rfl⟩ | ⟨input, hmem, hlabel, hsub, rfl⟩, hp⟩
    · exact ⟨input, ⟨.inl ⟨hmem, hlabel⟩, hsub⟩, hp⟩
    · exact ⟨input, ⟨.inr ⟨hmem, hlabel⟩, hsub⟩, hp⟩

theorem PathsState.mem_yield {st : PathsState} {paths : List String} {p : String} :
    p ∈ (st.yield paths).yielded ↔ p ∈ st.yielded ∨ p ∈ paths :=
  mem_foldl_absent

end own

/-! ## The walk -/

section walk

/-- The targets that are done. -/
def PathsState.done (graph : InputGraph) (st : PathsState) : Set BuildTarget :=
  {t | t ∈ graph.targets ∧ t.label ∈ st.doneTargets}

/-- The paths that were yielded. -/
def PathsState.paths (st : PathsState) : Set String := {p | p ∈ st.yielded}

/-- No target was marked twice, and no path yielded twice. -/
def PathsState.Once (st : PathsState) : Prop := st.doneTargets.Nodup ∧ st.yielded.Nodup

/-- A part of the walk, in which nothing is marked or yielded twice. -/
def PathsWalks (graph : InputGraph) (fullPaths : BuildInput → List String) (S T : Set BuildTarget)
    (st st' : PathsState) : Prop :=
  Walks (PathEdge graph) (ownPaths fullPaths) (done graph) paths S T st st' ∧
    (st.Once → st'.Once)

variable {graph : InputGraph} {fullPaths : BuildInput → List String} {S T S' T' : Set BuildTarget}

theorem PathsWalks.refl {st : PathsState} : PathsWalks graph fullPaths S T st st := ⟨.refl, id⟩

theorem PathsWalks.trans {st st₁ st' : PathsState} (h : PathsWalks graph fullPaths S T st st₁)
    (h' : PathsWalks graph fullPaths S T st₁ st') : PathsWalks graph fullPaths S T st st' :=
  ⟨h.1.trans h'.1, h'.2 ∘ h.2⟩

theorem PathsWalks.yield {t : BuildTarget} {paths : List String}
    (hown : ∀ p ∈ paths, p ∈ ownPaths fullPaths t) (ht : t ∈ T) (st : PathsState) :
    PathsWalks graph fullPaths S T st (st.yield paths) := by
  refine ⟨.collect (a := t) rfl (fun p hp => ?_) (fun p hp => ?_) ht, fun h => ?_⟩
  · exact mem_yield.mpr (.inl hp)
  · exact (mem_yield.mp hp).imp_right (hown p)
  · exact ⟨h.1, nodup_foldl_absent h.2⟩

/-- A target is marked after everything below it. -/
theorem PathsWalks.mark {t : BuildTarget} {st st₁ : PathsState} (ht : t ∈ graph.targets)
    (h : PathsWalks graph fullPaths S T st st₁) (hnew : t.label ∉ st₁.doneTargets) (hS : S ⊆ S')
    (htS : t ∈ S') (hown : ownPaths fullPaths t ⊆ st₁.paths)
    (hnext : ∀ d, PathEdge graph t d → d ∈ st₁.done graph) :
    PathsWalks graph fullPaths S' T st { st₁ with doneTargets := t.label :: st₁.doneTargets } := by
  have hdone := graph.setOf_label_mem_cons ht st₁.doneTargets
  refine ⟨(h.1.mono hS Set.Subset.rfl).mark_last hdone rfl htS hown hnext, fun hst => ?_⟩
  obtain ⟨hnodup, hyielded⟩ := h.2 hst
  exact ⟨nodup_cons.mpr ⟨hnew, hnodup⟩, hyielded⟩

theorem walks_innerPaths {fuel : ℕ} {st st' : PathsState} {target : BuildTarget}
    (ht : target ∈ graph.targets) (hacc : Acc (flip (PathEdge graph)) target)
    (h : innerPaths graph fullPaths fuel st target = some st') :
    PathsWalks graph fullPaths {t | ReflTransGen (PathEdge graph) target t}
      {t | ReflTransGen (PathEdge graph) target t} st st' ∧ target ∈ st'.done graph := by
  induction fuel generalizing st st' target with
  | zero => cases h
  | succ _ ih =>
    rw [innerPaths] at h
    split at h
    case isTrue hdone =>
      obtain rfl := some.inj h
      exact ⟨.refl, ht, hdone⟩
    case isFalse hdone =>
      obtain ⟨inputs, hinputs, h⟩ := bind_eq_some_iff.mp h
      obtain ⟨st₁, hst₁, h⟩ := bind_eq_some_iff.mp h
      obtain rfl := some.inj h
      -- until the target itself is marked, only targets strictly below it are
      let S : Set BuildTarget := {t | TransGen (PathEdge graph) target t}
      let T : Set BuildTarget := {t | ReflTransGen (PathEdge graph) target t}
      obtain ⟨hwalk, hall⟩ : PathsWalks graph fullPaths S T st st₁ ∧ ∀ input ∈ inputs,
          (∀ paths, input = .inl paths → ∀ p ∈ paths, p ∈ st₁.paths) ∧
            ∀ l, input = .inr l → ∀ t', graph.target l = some t' → ∀ d ∈ graph.targets,
              Settles graph target t' l d.label → d ∈ st₁.done graph := by
        refine foldlM_eq_some_rel (R := PathsWalks graph fullPaths S T)
          (P := fun (input : PathInput) s =>
            (∀ paths, input = .inl paths → ∀ p ∈ paths, p ∈ s.paths) ∧
            ∀ l, input = .inr l → ∀ t', graph.target l = some t' → ∀ d ∈ graph.targets,
              Settles graph target t' l d.label → d ∈ s.done graph) (fun _ => .refl)
          (fun h h' => h.trans h')
          (fun hR hP => ⟨fun ps h p hp => hR.1.out_subset (hP.1 ps h p hp),
            fun l h t' ht' d hd hs => hR.1.done_subset (hP.2 l h t' ht' d hd hs)⟩)
          (fun input hinput s s' hstep => ?_) hst₁
        cases input with
        | inl paths =>
          obtain rfl := some.inj hstep
          have hown : ∀ p ∈ paths, p ∈ ownPaths fullPaths target :=
            fun p hp => (mem_ownPaths hinputs).mpr ⟨paths, hinput, hp⟩
          refine ⟨.yield hown .refl s, ?_, ?_⟩
          · rintro _ ⟨⟩ p hp
            exact mem_yield.mpr (.inr hp)
          · rintro l ⟨⟩
        | inr l =>
          obtain ⟨ds, hds, hstep⟩ := bind_eq_some_iff.mp hstep
          have hfold : PathsWalks graph fullPaths S T s s' ∧ ∀ l' ∈ ds, ∀ d ∈ graph.targets,
              d.label = l' → d ∈ s'.done graph := by
            refine foldlM_eq_some_rel (R := PathsWalks graph fullPaths S T)
              (P := fun l' s => ∀ d ∈ graph.targets, d.label = l' → d ∈ s.done graph)
              (fun _ => .refl) (fun h h' => h.trans h')
              (fun hR hP d hd hl => hR.1.done_subset (hP d hd hl))
                (fun l' hl' s s' hstep => ?_) hstep
            obtain ⟨d, hd, hinner⟩ := bind_eq_some_iff.mp hstep
            have hedge : PathEdge graph target d := by
              obtain ⟨t', ht', hsettles⟩ := (mem_followed_iff hds).mp hl'
              refine ⟨graph.target_mem hd, l, (mem_pathInputs hinputs).mp hinput, t', ht', ?_⟩
              rwa [graph.target_label hd]
            obtain ⟨hwalk, hdone⟩ := ih (graph.target_mem hd) (hacc.inv hedge) hinner
            refine ⟨⟨hwalk.1.mono (fun t h => .head' hedge h) (fun t h => .head hedge h),
              hwalk.2⟩, ?_⟩
            intro d' hd' hl
            rwa [graph.eq_of_label hd' (graph.target_mem hd)
              (hl.trans (graph.target_label hd).symm)]
          refine ⟨hfold.1, by rintro _ ⟨⟩, ?_⟩
          rintro _ ⟨⟩ t' ht' d hd hsettles
          exact hfold.2 _ ((mem_followed_iff hds).mpr ⟨t', ht', hsettles⟩) d hd rfl
      have hnew : target.label ∉ st₁.doneTargets := by
        intro hmem
        rcases hwalk.1.done_new target ⟨ht, hmem⟩ with hmem | hcycle
        · exact hdone hmem.2
        · exact not_transGen_of_acc hacc .refl hcycle
      refine ⟨.mark ht hwalk hnew (fun t h => h.to_reflTransGen) .refl (fun p hp => ?_) ?_,
        ht, mem_cons_self⟩
      · obtain ⟨paths, hmem, hp⟩ := (mem_ownPaths hinputs).mp hp
        exact (hall _ hmem).1 paths rfl p hp
      · rintro d ⟨hd, l, hl, t', ht', hsettles⟩
        exact (hall _ ((mem_pathInputs hinputs).mpr hl)).2 l rfl t' ht' d hd hsettles

/-- The walk from a target from which no cycle can be reached ends, with any large enough bound, and
yields what belongs to the targets that can be reached, once each. -/
theorem exists_innerPaths_of_acyclic (hpresent : graph.AllPresent)
    (hacyclic : ProvidesAcyclic graph.toBuildGraph) (fullPaths : BuildInput → List String)
    {target : BuildTarget} (ht : target ∈ graph.targets)
    (hcycle : ∀ t, ReflTransGen (PathEdge graph) target t →
      ¬TransGen (PathEdge graph) t t) :
    ∃ fuel st, innerPaths graph fullPaths fuel {} target = some st ∧ st.Once ∧
      ∀ p, p ∈ st.yielded ↔
        ∃ t, ReflTransGen (PathEdge graph) target t ∧ p ∈ ownPaths fullPaths t := by
  classical
  have hacc : Acc (flip (PathEdge graph)) target := by
    let u := graph.targets.toFinset.filter (ReflTransGen (PathEdge graph) target ·)
    have hmem {t : BuildTarget} : t ∈ u ↔
        t ∈ graph.targets ∧ ReflTransGen (PathEdge graph) target t := by
      simp [u]
    exact acc_of_finite (u := u) (fun t h d hedge => hmem.mpr ⟨hedge.1, (hmem.mp h).2.tail hedge⟩)
      (fun t h => hcycle t (hmem.mp h).2) (hmem.mpr ⟨ht, .refl⟩)
  obtain ⟨fuel, hfuel⟩ := exists_innerPaths hpresent hacyclic fullPaths hacc ht
  obtain ⟨st, hst⟩ := hfuel fuel le_rfl {}
  obtain ⟨hwalk, hdone⟩ := walks_innerPaths ht hacc hst
  refine ⟨fuel, st, hst, hwalk.2 ⟨nodup_nil, nodup_nil⟩, fun p => ?_⟩
  refine mem_out_iff hwalk.1 ?_ ?_ hdone
  · exact Set.eq_empty_of_forall_notMem fun t h => not_mem_nil h.2
  · exact Set.eq_empty_of_forall_notMem fun p h => not_mem_nil h

/-- The walk ends, with each target marked and each path yielded once, if and only if it leads to no
cycle. -/
theorem exists_innerPaths_once_iff (hpresent : graph.AllPresent)
    (hacyclic : ProvidesAcyclic graph.toBuildGraph) {target : BuildTarget}
    (ht : target ∈ graph.targets) :
    (∃ fuel st, innerPaths graph fullPaths fuel {} target = some st ∧ st.doneTargets.Nodup ∧
        st.yielded.Nodup) ↔
      ∀ t, ReflTransGen (PathEdge graph) target t →
        ¬TransGen (PathEdge graph) t t := by
  constructor
  · rintro ⟨fuel, st, hst, -⟩ t hreach
    have hempty : DoneAcc graph {} := fun _ _ hmem => absurd hmem not_mem_nil
    exact not_transGen_of_acc (acc_of_innerPaths ht hempty hst).2 hreach
  · intro hcycle
    obtain ⟨fuel, st, hst, honce, -⟩ :=
      exists_innerPaths_of_acyclic hpresent hacyclic fullPaths ht hcycle
    exact ⟨fuel, st, hst, honce⟩

/-- Two targets that depend on each other. -/
def mutualRules : InputGraph where
  targets := [ruleOf "a" ["b"], ruleOf "b" ["a"]]
  runtime := fun _ => {}

theorem exists_innerPaths_once_iff_mutualRules :
    (∃ fuel st, innerPaths mutualRules (fun _ => []) fuel {} (ruleOf "a" ["b"]) = some st ∧
        st.doneTargets.Nodup ∧ st.yielded.Nodup) ↔
      ∀ t, ReflTransGen (PathEdge mutualRules) (ruleOf "a" ["b"]) t →
        ¬TransGen (PathEdge mutualRules) t t :=
  exists_innerPaths_once_iff (allPresent_iff.mpr (by decide +kernel))
    (providesAcyclic_of_rank (fun _ => 0) (by decide)) mem_cons_self

theorem not_exists_iterInputPaths_mutualRules :
    mutualRules.AllPresent ∧ ¬∃ fuel paths,
      iterInputPaths mutualRules (fun _ => []) fuel (ruleOf "a" ["b"]) = some paths := by
  refine ⟨allPresent_iff.mpr (by decide +kernel), ?_⟩
  rintro ⟨fuel, paths, hpaths⟩
  obtain ⟨st, hst, -⟩ := Option.map_eq_some_iff.mp hpaths
  have hab : PathEdge mutualRules (ruleOf "a" ["b"]) (ruleOf "b" ["a"]) :=
    ⟨by decide, ⟨"p", "b", ""⟩, by decide +kernel, ruleOf "b" ["a"], by decide +kernel, .refl,
      [⟨"p", "b", ""⟩], by decide +kernel, mem_cons_self⟩
  have hba : PathEdge mutualRules (ruleOf "b" ["a"]) (ruleOf "a" ["b"]) :=
    ⟨by decide, ⟨"p", "a", ""⟩, by decide +kernel, ruleOf "a" ["b"], by decide +kernel, .refl,
      [⟨"p", "a", ""⟩], by decide +kernel, mem_cons_self⟩
  have hempty : DoneAcc mutualRules {} := fun _ _ hmem => absurd hmem not_mem_nil
  exact not_transGen_of_acc (acc_of_innerPaths mem_cons_self hempty hst).2 .refl
    (.head hab (.single hba))

end walk

/-! ## Outputs -/

section outputs

/-- Where files of the system are: `fs.ExpandHomePath`, and `LookPath`, which may fail. -/
structure SystemPaths where
  expandHome : String → String
  lookPath : String → List String → Option String

/-- The first of the `LocalPaths` of an input that names no target. -/
def BuildInput.localPath (sys : SystemPaths) : BuildInput → Option String
  | .file f _ => some f
  | .subrepoFile f _ _ => some f
  | .systemFile path => some (sys.expandHome path)
  | .systemPath name _ => some name
  | _ => none

/-- The name of the outputs that the input stands for, if it names them. -/
def BuildInput.outputName : BuildInput → Option String
  | .annotatedOutput _ name => some name
  | _ => none

variable (graph : InputGraph) (sys : SystemPaths)

/-- `filegroupOutputs` (lines 876–894), from the outputs of targets, all of them or those with a
name. -/
def filegroupOutputs (outputs : BuildTarget → Option String → Option (List String))
    (target : BuildTarget) (srcs : List BuildInput) : Option (List String) := do
  let outs ← srcs.mapM fun src =>
    match src.label with
    | none => (src.localPath sys).map ([·])
    | some l => do
      let dep ← graph.target l
      let outs ← (dep.provideFor target).mapM fun d => do
        let t ← graph.target d
        outputs t src.outputName
      some outs.flatten
  some outs.flatten

/-- `Outputs` (lines 897–913), and `NamedOutputs` (lines 940–957) with a name, with calls nested at
most `fuel` deep. -/
def outputsOf : ℕ → BuildTarget → Option String → Option (List String)
  | 0, _, _ => none
  | fuel + 1, t, none =>
    (if t.isFilegroup then filegroupOutputs graph sys (outputsOf fuel) t t.allSources
      else some t.outputs).map fun outs =>
        (outs ++ t.namedOutputs.values.flatten).insertionSort (· ≤ ·)
  | fuel + 1, t, some name =>
    if t.isFilegroup then
      filegroupOutputs graph sys (outputsOf fuel) t ((t.namedSources.lookup name).getD [])
    else some ((t.namedOutputs.lookup name).getD [])

/-- The outputs of a target in its output directory. -/
def outputPaths (fuel : ℕ) (l : BuildLabel) (name : BuildTarget → Option String) :
    Option (List String) := do
  let t ← graph.target l
  let outs ← outputsOf graph sys fuel t (name t)
  some (outs.map (t.outDir ++ "/" ++ ·))

/-- `BuildInput.FullPaths`; a name that is an entry point stands for all outputs. -/
def BuildInput.fullPaths (fuel : ℕ) : BuildInput → Option (List String)
  | .file f pkg => some [if pkg = "" then f else pkg ++ "/" ++ f]
  | .subrepoFile f _ full => some [full ++ "/" ++ f]
  | .systemFile path => some [sys.expandHome path]
  | .systemPath name path => (sys.lookPath name path).map ([·])
  | .target l => outputPaths graph sys fuel l fun _ => none
  | .annotatedOutput l name => outputPaths graph sys fuel l fun t =>
      if (t.entryPoints.lookup name).isSome then none else some name
  | .url _ => some []

/-- The path is that of an output of a target of the graph. -/
def IsOutput (p : String) : Prop :=
  ∃ t ∈ graph.targets, ∃ fuel name outs, outputsOf graph sys fuel t name = some outs ∧
    ∃ o ∈ outs, p = t.outDir ++ "/" ++ o

variable {graph sys}

/-- What an input stands for that names a target are outputs. -/
theorem isOutput_of_label {fuel : ℕ} {input : BuildInput} {l : BuildLabel} {paths : List String}
    (hl : input.label = some l) (h : input.fullPaths graph sys fuel = some paths) {p : String}
    (hp : p ∈ paths) : IsOutput graph sys p := by
  obtain ⟨name, h⟩ : ∃ name, outputPaths graph sys fuel l name = some paths := by
    cases input <;> cases hl <;> exact ⟨_, h⟩
  obtain ⟨t, ht, h⟩ := bind_eq_some_iff.mp h
  obtain ⟨outs, houts, h⟩ := bind_eq_some_iff.mp h
  obtain rfl := some.inj h
  obtain ⟨o, ho, rfl⟩ := mem_map.mp hp
  exact ⟨t, graph.target_mem ht, fuel, name t, outs, houts, o, ho, rfl⟩

/-- The walk yields no output if and only if no source names an output that there is, and no file
stands where an output is. Whatever else names a target is followed. -/
theorem iterInputPaths_source_iff (hpresent : graph.AllPresent)
    (hacyclic : ProvidesAcyclic graph.toBuildGraph) {fullPaths : BuildInput → List String}
    {target : BuildTarget} (ht : target ∈ graph.targets)
    (hcycle : ∀ t, ReflTransGen (PathEdge graph) target t →
      ¬TransGen (PathEdge graph) t t)
    (hpaths : ∀ t ∈ graph.targets, ∀ input ∈ ownInputs t,
      ∃ fuel, input.fullPaths graph sys fuel = some (fullPaths input)) :
    ∃ fuel paths, iterInputPaths graph fullPaths fuel target = some paths ∧
      ((∀ p ∈ paths, ¬IsOutput graph sys p) ↔
        ∀ t, ReflTransGen (PathEdge graph) target t → ∀ input ∈ ownInputs t,
          (input.label ≠ none → fullPaths input = []) ∧
            (input.label = none → ∀ p ∈ fullPaths input, ¬IsOutput graph sys p)) ∧
      ∀ t, ReflTransGen (PathEdge graph) target t →
        ∀ l ∈ t.allSources.filterMap nonOutputLabel ++ t.allData.filterMap label,
          ∀ t', graph.target l = some t' → ∀ d ∈ graph.targets, Settles graph t t' l d.label →
            ∀ input ∈ ownInputs d, ∀ p ∈ fullPaths input, p ∈ paths := by
  obtain ⟨fuel, st, hst, -, hmem⟩ :=
    exists_innerPaths_of_acyclic hpresent hacyclic fullPaths ht hcycle
  refine ⟨fuel, st.yielded, by rw [iterInputPaths, hst, Option.map_some], ?_, ?_⟩
  · have hreached {t : BuildTarget} (hreach : ReflTransGen (PathEdge graph) target t) :
        t ∈ graph.targets := by
      rcases hreach.cases_tail with rfl | ⟨_, -, hedge⟩
      · exact ht
      · exact hedge.1
    constructor
    · intro h t hreach input hinput
      have hnot {p : String} (hp : p ∈ fullPaths input) : ¬IsOutput graph sys p :=
        h p ((hmem p).mpr ⟨t, hreach, input, hinput, hp⟩)
      refine ⟨fun hlabel => eq_nil_iff_forall_not_mem.mpr fun p hp => hnot hp ?_, fun _ p => hnot⟩
      obtain ⟨l, hl⟩ := Option.ne_none_iff_exists'.mp hlabel
      obtain ⟨n, hn⟩ := hpaths t (hreached hreach) input hinput
      exact isOutput_of_label hl hn hp
    · intro h p hp
      obtain ⟨t, hreach, input, hinput, hp⟩ := (hmem p).mp hp
      obtain ⟨hsome, hnone⟩ := h t hreach input hinput
      by_cases hlabel : input.label = none
      · exact hnone hlabel p hp
      · rw [hsome hlabel] at hp
        cases hp
  · intro t hreach l hl t' ht' d hd hsettles input hinput p hp
    have hedge : PathEdge graph t d := ⟨hd, l, mem_append_left _ hl, t', ht', hsettles⟩
    exact (hmem p).mpr ⟨d, hreach.tail hedge, input, hinput, hp⟩

/-- A target with a source, and the dependency that comes with it. -/
def withSource (src : BuildInput) : BuildTarget :=
  { ruleOf "c" (if src.label = none then [] else ["gen"]) with sources := [src] }

/-- A target with a header among its outputs. -/
def headerRule : BuildTarget :=
  { ruleOf "gen" [] with namedOutputs := .insert .empty "hdrs" ["x.h"] }

/-- The header, and a target with one source. -/
def headerGraph (src : BuildInput) : InputGraph where
  targets := [withSource src, headerRule]
  nodup := by simp [withSource, headerRule, ruleOf, BuildTarget.new]
  not_all := by simp [withSource, headerRule, ruleOf, BuildTarget.new, BuildLabel.isAllTargets]
  runtime := fun _ => {}

/-- The source is a file. -/
abbrev fileGraph : InputGraph := headerGraph (.file "x.c" "p")

/-- No file of the system is asked for. -/
def noSystem : SystemPaths := ⟨id, fun _ _ => none⟩

theorem iterInputPaths_source_file :
    ∃ fuel paths, iterInputPaths fileGraph (fun _ => ["p/x.c"]) fuel
        (withSource (.file "x.c" "p")) = some paths ∧
      ((∀ p ∈ paths, ¬IsOutput fileGraph noSystem p) ↔
        ∀ t, ReflTransGen (PathEdge fileGraph) (withSource (.file "x.c" "p")) t →
          ∀ input ∈ ownInputs t, (input.label ≠ none → ["p/x.c"] = []) ∧
            (input.label = none → ∀ p ∈ ["p/x.c"], ¬IsOutput fileGraph noSystem p)) ∧
      ∀ t, ReflTransGen (PathEdge fileGraph) (withSource (.file "x.c" "p")) t →
        ∀ l ∈ t.allSources.filterMap nonOutputLabel ++ t.allData.filterMap label,
          ∀ t', fileGraph.target l = some t' → ∀ d ∈ fileGraph.targets,
            Settles fileGraph t t' l d.label → ∀ input ∈ ownInputs d, ∀ p ∈ ["p/x.c"],
              p ∈ paths := by
  have hfollowed : ∀ t ∈ fileGraph.targets, followedLabels fileGraph t = [] := by decide +kernel
  have hpaths : ∀ t ∈ fileGraph.targets, ∀ input ∈ ownInputs t,
      input.fullPaths fileGraph noSystem 1 = some ["p/x.c"] := by
    decide +kernel
  refine iterInputPaths_source_iff
    (allPresent_iff.mpr (by decide +kernel))
    (providesAcyclic_of_rank (fun _ => 0) (by decide +kernel)) mem_cons_self ?_
    fun t ht input hinput => ⟨1, hpaths t ht input hinput⟩
  intro t _ hcycle
  obtain ⟨t', -, ht, -⟩ := TransGen.tail'_iff.mp hcycle
  obtain ⟨d, ⟨-, l, hl, -⟩, -⟩ := TransGen.head'_iff.mp hcycle
  rw [hfollowed t ht] at hl
  cases hl

/-- The source is an output of a target. -/
abbrev annotatedGraph : InputGraph := headerGraph (.annotatedOutput headerRule.label "hdrs")

theorem iterInputPaths_annotated_source :
    annotatedGraph.AllPresent ∧
      iterInputPaths annotatedGraph
        (fun input => (input.fullPaths annotatedGraph noSystem 1).getD []) 2
        (withSource (.annotatedOutput headerRule.label "hdrs")) = some ["plz-out/gen/p/x.h"] ∧
      IsOutput annotatedGraph noSystem "plz-out/gen/p/x.h" :=
  ⟨allPresent_iff.mpr (by decide +kernel), by decide +kernel, headerRule,
    by decide +kernel, 1, some "hdrs", ["x.h"], by decide +kernel, "x.h", mem_cons_self,
    by decide +kernel⟩

end outputs

end Please.Core
