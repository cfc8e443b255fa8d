import Please.Core.IterInputs
import Please.Lib.Walk

/-!
# The run-time dependencies of a target

What `IterAllRuntimeDependencies` (`src/core/build_target.go`, lines 727–801) yields. Labels are
yielded for one of the five kinds of labels that are followed.

Specification: `RuntimeEdge` is a step along any of them, and `ProvidedRuntime` are the labels that
are yielded for a target.

* `iterAllRuntimeDependencies_exact`: it ends, and yields exactly what belongs to the targets that
  can be reached.
-/

namespace Please.Core

open Please.Lib.Except Relation RuntimeState
open Please.Lib.Walk List

/-! ## Specification -/

section specification

variable (graph : InputGraph)

/-- The labels that the run-time dependencies of a target are taken from. -/
inductive RuntimeSource (t : BuildTarget) : BuildLabel → Prop
  | runtime {l : BuildLabel} (h : l ∈ t.runtimeDependencies) : RuntimeSource t l
  | data {input : BuildInput} {l : BuildLabel} (h : input ∈ t.allData) (hl : input.label = some l) :
    RuntimeSource t l
  | debugData {input : BuildInput} {l : BuildLabel} (h : input ∈ (graph.runtime t).debugData)
    (hl : input.label = some l) : RuntimeSource t l
  | source {dep : DeclaredDependency} (hfrom : (graph.runtime t).fromSources = true)
    (h : dep ∈ t.dependencies) (hsource : dep.source = true) : RuntimeSource t dep.label
  | dependency {dep : DeclaredDependency} (hfrom : (graph.runtime t).fromDependencies = true)
    (h : dep ∈ t.dependencies)
    (hkind : dep.exported = false ∧ dep.source = false ∧ dep.internal = false ∧
      dep.runtime = false) :
    RuntimeSource t dep.label
  | exported {dep : DeclaredDependency} {d : BuildTarget} {l : BuildLabel}
    (hfrom : (graph.runtime t).fromDependencies = true) (h : dep ∈ t.dependencies)
    (hkind : dep.exported = false ∧ dep.source = false ∧ dep.internal = false ∧ dep.runtime = false)
    (hd : graph.target dep.label = some d) (hl : l ∈ d.exportedDependencies) : RuntimeSource t l

/-- `p` is provided for `t` by the target with the label `l`. -/
def ProvidedBy (t : BuildTarget) (l p : BuildLabel) : Prop :=
  ∃ dep, graph.target l = some dep ∧ p ∈ dep.provideFor t

/-- A step to a target that is provided for `t`. -/
def RuntimeEdge (t t' : BuildTarget) : Prop :=
  t' ∈ graph.targets ∧ ∃ l, RuntimeSource graph t l ∧ ProvidedBy graph t l t'.label

/-- The provided run-time dependencies of a target. -/
def ProvidedRuntime (t : BuildTarget) : Set BuildLabel :=
  {p | ∃ l ∈ t.runtimeDependencies, ProvidedBy graph t l p}

end specification

/-! ## What is looked up -/

variable {graph : InputGraph} {t : BuildTarget}

theorem mem_runtimeLookups_true {l : BuildLabel} :
    (l, true) ∈ runtimeLookups graph t ↔ l ∈ t.runtimeDependencies := by
  simp [runtimeLookups]

theorem mem_runtimeLookups {l : BuildLabel} :
    (∃ yields, (l, yields) ∈ runtimeLookups graph t) ↔ RuntimeSource graph t l := by
  constructor
  · rintro ⟨yields, h⟩
    simp only [runtimeLookups, mem_append, mem_map, mem_flatMap, mem_filterMap, Prod.mk.injEq] at h
    rcases h with (⟨l, h, rfl, -⟩ | ⟨l, ⟨input, h | h, hl⟩, rfl, -⟩) | ⟨l, ⟨dep, h, hl⟩, rfl, -⟩
    · exact .runtime h
    · exact .data h hl
    · exact .debugData h hl
    · rcases hl with hl | hl
      · split at hl
        case isTrue hfrom =>
          rw [Bool.and_eq_true] at hfrom
          obtain rfl := mem_singleton.mp hl
          exact .source hfrom.1 h hfrom.2
        case isFalse => cases hl
      · split at hl
        case isTrue hfrom =>
          simp only [Bool.and_eq_true, Bool.not_eq_true'] at hfrom
          obtain ⟨⟨⟨⟨hfrom, hexported⟩, hsource⟩, hinternal⟩, hruntime⟩ := hfrom
          rcases mem_cons.mp hl with rfl | hl
          · exact .dependency hfrom h ⟨hexported, hsource, hinternal, hruntime⟩
          · cases hd : graph.target dep.label with
            | none =>
              rw [hd] at hl
              cases hl
            | some =>
              rw [hd] at hl
              exact .exported hfrom h ⟨hexported, hsource, hinternal, hruntime⟩ hd hl
        case isFalse => cases hl
  · intro h
    suffices h : (l, true) ∈ runtimeLookups graph t ∨ (l, false) ∈ runtimeLookups graph t from
      h.elim (⟨_, ·⟩) (⟨_, ·⟩)
    cases h with
    | runtime h => exact .inl (mem_runtimeLookups_true.mpr h)
    | data h hl =>
      refine .inr (mem_append_left _ (mem_append_right _ ?_))
      exact mem_map_of_mem (mem_filterMap.mpr ⟨_, mem_append_left _ h, hl⟩)
    | debugData h hl =>
      refine .inr (mem_append_left _ (mem_append_right _ ?_))
      exact mem_map_of_mem (mem_filterMap.mpr ⟨_, mem_append_right _ h, hl⟩)
    | source hfrom h hsource =>
      refine .inr (mem_append_right _ (mem_map_of_mem (mem_flatMap.mpr ⟨_, h, ?_⟩)))
      simp [hfrom, hsource]
    | dependency hfrom h hkind =>
      refine .inr (mem_append_right _ (mem_map_of_mem (mem_flatMap.mpr ⟨_, h, ?_⟩)))
      simp [hfrom, hkind]
    | exported hfrom h hkind hd hl =>
      refine .inr (mem_append_right _ (mem_map_of_mem (mem_flatMap.mpr ⟨_, h, ?_⟩)))
      simp [hfrom, hkind, hd, hl]

/-! ## The walk -/

/-- The targets that are done. -/
def RuntimeState.doneTargets (graph : InputGraph) (st : RuntimeState) : Set BuildTarget :=
  {t | t ∈ graph.targets ∧ t.label ∈ st.done}

/-- The labels that were yielded. -/
def RuntimeState.yields (st : RuntimeState) : Set BuildLabel := {l | l ∈ st.yielded}

/-- A part of the walk. -/
abbrev RuntimeWalks (graph : InputGraph) (S : Set BuildTarget) : RuntimeState →
    RuntimeState → Prop :=
  Walks (RuntimeEdge graph) (ProvidedRuntime graph) (doneTargets graph)
    yields S S

/-- What `p` stands for is done, and `p` has been yielded if it is to be. -/
def RuntimeState.Covers (graph : InputGraph) (yields : Bool) (p : BuildLabel) (st : RuntimeState) :
    Prop :=
  (∀ t ∈ graph.targets, t.label = p → t ∈ st.doneTargets graph) ∧ (yields = true → p ∈ st.yields)

theorem RuntimeState.Covers.mono {S : Set BuildTarget} {yields : Bool} {p : BuildLabel}
    {st st' : RuntimeState} (h : st.Covers graph yields p) (hwalk : RuntimeWalks graph S st st') :
    st'.Covers graph yields p :=
  ⟨fun t ht hl => hwalk.done_subset (h.1 t ht hl), fun hl => hwalk.out_subset (h.2 hl)⟩

theorem doneTargets_cons (ht : t ∈ graph.targets) (st : RuntimeState) :
    doneTargets graph { st with done := t.label :: st.done } =
      insert t (st.doneTargets graph) :=
  graph.setOf_label_mem_cons ht st.done

/-- A label is yielded for the run-time dependencies of a target. -/
theorem walks_yield {lookup : BuildLabel × Bool} {p : BuildLabel}
    (hlookup : lookup ∈ runtimeLookups graph t) (hp : ProvidedBy graph t lookup.1 p)
    (st : RuntimeState) :
    RuntimeWalks graph {t' | ReflTransGen (RuntimeEdge graph) t t'} st
      (if lookup.2 then { st with yielded := st.yielded ++ [p] } else st) := by
  split
  case isTrue hl =>
    have hmem : (lookup.1, true) ∈ runtimeLookups graph t := by
      rw [← hl]
      exact hlookup
    refine .collect (a := t) rfl (fun o ho => mem_append_left _ ho) (fun o ho => ?_) .refl
    rcases mem_append.mp ho with ho | ho
    · exact .inl ho
    · obtain rfl := mem_singleton.mp ho
      exact .inr ⟨lookup.1, mem_runtimeLookups_true.mp hmem, hp⟩
  case isFalse => exact .refl

theorem walks_pushRuntime {fuel : ℕ} {st st' : RuntimeState} (ht : t ∈ graph.targets)
    (h : pushRuntime graph fuel st t = some st') :
    RuntimeWalks graph {t' | ReflTransGen (RuntimeEdge graph) t t'} st st' ∧
      t ∈ st'.doneTargets graph := by
  induction fuel generalizing st st' t with
  | zero => cases h
  | succ _ ih =>
    rw [pushRuntime] at h
    split at h
    case isTrue hdone =>
      obtain rfl := Option.some.inj h
      exact ⟨.refl, ht, hdone⟩
    case isFalse =>
      let S : Set BuildTarget := {t' | ReflTransGen (RuntimeEdge graph) t t'}
      obtain ⟨hwalk, hall⟩ : RuntimeWalks graph S { st with done := t.label :: st.done } st' ∧
          ∀ lookup ∈ runtimeLookups graph t, ∀ p, ProvidedBy graph t lookup.1 p →
            st'.Covers graph lookup.2 p := by
        refine foldlM_eq_some_rel (R := RuntimeWalks graph S)
          (P := fun (lookup : BuildLabel × Bool) s => ∀ p, ProvidedBy graph t lookup.1 p →
            s.Covers graph lookup.2 p) (fun _ => .refl)
          (fun h h' => h.trans h') (fun hR hP p hp => (hP p hp).mono hR)
          (fun lookup hlookup s s' hstep => ?_) h
        obtain ⟨dep, hdep, hstep⟩ := Option.bind_eq_some_iff.mp hstep
        have hfold : RuntimeWalks graph S s s' ∧ ∀ p ∈ dep.provideFor t,
            s'.Covers graph lookup.2 p := by
          refine foldlM_eq_some_rel (R := RuntimeWalks graph S)
            (P := fun p s => s.Covers graph lookup.2 p) (fun _ => .refl) (fun h h' => h.trans h')
            (fun hR hP => hP.mono hR) (fun p hp s s' hstep => ?_) hstep
          obtain ⟨t', ht', hpush⟩ := Option.bind_eq_some_iff.mp hstep
          obtain ⟨hwalk, hdone⟩ := ih (graph.target_mem ht') hpush
          have hprovided : ProvidedBy graph t lookup.1 p := ⟨dep, hdep, hp⟩
          have hedge : RuntimeEdge graph t t' := by
            refine ⟨graph.target_mem ht', lookup.1, mem_runtimeLookups.mp ⟨lookup.2, hlookup⟩, ?_⟩
            rwa [graph.target_label ht']
          have hsub : {t'' | ReflTransGen (RuntimeEdge graph) t' t''} ⊆ S :=
            fun _ h => .head hedge h
          refine ⟨(walks_yield hlookup hprovided s).trans (hwalk.mono hsub hsub),
            fun t'' ht'' hl => ?_, fun hl => ?_⟩
          · rwa [graph.eq_of_label ht'' (graph.target_mem ht')
            (hl.trans (graph.target_label ht').symm)]
          · apply hwalk.out_subset
            rw [if_pos hl]
            exact mem_append_right _ (mem_singleton.mpr rfl)
        refine ⟨hfold.1, fun p hp => ?_⟩
        obtain ⟨dep', hdep', hp⟩ := hp
        obtain rfl := Option.some.inj (hdep.symm.trans hdep')
        exact hfold.2 p hp
      refine ⟨.mark_first (doneTargets_cons ht st) rfl hwalk .refl ?_ ?_,
        hwalk.done_subset (doneTargets_cons ht st ▸ .inl rfl)⟩
      · rintro p ⟨l, hl, hp⟩
        exact (hall _ (mem_runtimeLookups_true.mpr hl) p hp).2 rfl
      · rintro t' ⟨ht', l, hl, hp⟩
        obtain ⟨yields, hmem⟩ := mem_runtimeLookups.mpr hl
        exact (hall _ hmem _ hp).1 t' ht' rfl

/-- The walk ends with any bound from the number of targets on, and yields exactly the provided
run-time dependencies of the targets that can be reached. -/
theorem iterAllRuntimeDependencies_exact (hpresent : graph.AllPresent) {target : BuildTarget}
    (ht : target ∈ graph.targets) {fuel : ℕ} (hfuel : graph.targets.length < fuel) :
    ∃ ls, iterAllRuntimeDependencies graph fuel target = some ls ∧
      ∀ l, l ∈ ls ↔ ∃ t, ReflTransGen (RuntimeEdge graph) target t ∧
        ∃ dep ∈ t.runtimeDependencies, ProvidedBy graph t dep l := by
  obtain ⟨ls, hls⟩ := exists_iterAllRuntimeDependencies hpresent ht hfuel
  obtain ⟨st, hst, rfl⟩ := Option.map_eq_some_iff.mp hls
  obtain ⟨hwalk, hdone⟩ := walks_pushRuntime ht hst
  refine ⟨st.yielded, hls, fun l => mem_out_iff hwalk ?_ ?_ hdone⟩
  · exact Set.eq_empty_of_forall_notMem fun t h => not_mem_nil h.2
  · exact Set.eq_empty_of_forall_notMem fun l h => not_mem_nil h

/-- A target with one run-time dependency. -/
def pluginOf (name dep : String) : BuildTarget :=
  { ruleOf name [] with runtimeDependencies := [⟨"p", dep, ""⟩] }

/-- Two targets that depend on each other at run time. -/
def runtimeCycle : InputGraph where
  targets := [pluginOf "a" "b", pluginOf "b" "a"]
  runtime := fun _ => {}

theorem iterAllRuntimeDependencies_runtimeCycle :
    ∃ ls, iterAllRuntimeDependencies runtimeCycle 3 (pluginOf "a" "b") = some ls ∧
      ∀ l, l ∈ ls ↔ ∃ t, ReflTransGen (RuntimeEdge runtimeCycle) (pluginOf "a" "b") t ∧
        ∃ dep ∈ t.runtimeDependencies, ProvidedBy runtimeCycle t dep l :=
  iterAllRuntimeDependencies_exact (InputGraph.allPresent_iff.mpr (by decide +kernel))
    mem_cons_self (by decide)

end Please.Core
