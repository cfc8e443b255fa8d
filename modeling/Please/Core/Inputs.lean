import Please.Core.Target
import Mathlib.Data.List.Induction

/-!
# Adding inputs to a target

Model of the methods of `src/core/build_target.go` with which a target gets its
sources, tools, data and dependencies: `addSource` and its callers (lines
1352–1391), `AddTool`, `AddNamedTool`, `AddDatum`, `AddNamedDatum` (1403–1473,
1503–1511) and `AddMaybeExportedDependency` (1759–1786). `log.Fatalf` and a
panic are `none`.
-/

namespace Please.Core

open Please.Lib List BuildTarget

/-! ## The methods -/

/-- A write through the pointer that `dependencyInfo` returns: to the first
record of the label. -/
def modifyInfo (label : BuildLabel) (f : DeclaredDependency → DeclaredDependency) :
    List DeclaredDependency → List DeclaredDependency
  | [] => []
  | info :: infos => if info.label = label then f info :: infos
      else info :: modifyInfo label f infos

namespace BuildTarget

variable (target : BuildTarget)

/-- `BuildTarget.dependencyInfo` (lines 1169–1176). -/
def dependencyInfo (label : BuildLabel) : Option DeclaredDependency :=
  target.dependencies.find? fun info => info.label = label

/-- `BuildTarget.AddMaybeExportedDependency`. -/
def addMaybeExportedDependency (dep : BuildLabel) (exported source internal runtime : Bool) :
    Option BuildTarget :=
  if dep = target.label then none
  else if runtime && !target.isBinary then none
  else
    let target := if runtime then
      { target with runtimeDependencies := target.runtimeDependencies ++ [dep] } else target
    match target.dependencyInfo dep with
    | none => some { target with
        dependencies := target.dependencies ++ [⟨dep, exported, internal, runtime, source, false⟩] }
    | some _ => some { target with
        dependencies := modifyInfo dep (fun info => { info with
          exported := info.exported || exported
          source := info.source && source
          internal := info.internal && internal
          runtime := info.runtime && runtime
          -- It's not *only* data any more.
          data := false }) target.dependencies }

/-- `BuildTarget.AddDependency` (lines 1750–1752). -/
def addDependency (dep : BuildLabel) : Option BuildTarget :=
  target.addMaybeExportedDependency dep false false false false

/-- `target.dependencyInfo(label).Data = true`. -/
def setData (label : BuildLabel) : BuildTarget :=
  { target with
    dependencies := modifyInfo label (fun info => { info with data := true }) target.dependencies }

/-- `BuildTarget.addSource`: the target and the new list. Comparing two system
paths panics. -/
def addSourceTo (sources : List BuildInput) (source : BuildInput) :
    Option (BuildTarget × List BuildInput) :=
  if source.isSystemPath && sources.any BuildInput.isSystemPath then none
  else if source ∈ sources then some (target, sources)
  else match source.label with
    | some label =>
      (target.addMaybeExportedDependency label false true false false).map (·, sources ++ [source])
    | none => some (target, sources ++ [source])

/-- `BuildTarget.AddSource`. -/
def addSource (source : BuildInput) : Option BuildTarget :=
  (target.addSourceTo target.sources source).map fun (t, sources) => { t with sources := sources }

/-- The named sources under a name. -/
def sourcesNamed (name : String) : List BuildInput := (target.namedSources.lookup name).getD []

/-- `BuildTarget.AddNamedSource`. -/
def addNamedSource (name : String) (source : BuildInput) : Option BuildTarget :=
  (target.addSourceTo (target.sourcesNamed name) source).map fun (t, sources) =>
    { t with namedSources := t.namedSources.insert name sources }

/-- `if label, ok := input.Label(); ok { target.AddDependency(label) }` -/
def addLabelOf (input : BuildInput) : Option BuildTarget :=
  match input.label with
  | some label => target.addDependency label
  | none => some target

/-- The same, and the dependency is marked as data. -/
def addDataLabelOf (input : BuildInput) : Option BuildTarget :=
  match input.label with
  | some label => (target.addDependency label).map (·.setData label)
  | none => some target

/-- `BuildTarget.AddTool`. -/
def addTool (tool : BuildInput) : Option BuildTarget :=
  { target with tools := target.tools ++ [tool] }.addLabelOf tool

/-- `BuildTarget.AddNamedTool`. -/
def addNamedTool (name : String) (tool : BuildInput) : Option BuildTarget :=
  { target with
    namedTools := target.namedTools.insert name
      ((target.namedTools.lookup name).getD [] ++ [tool]) }.addLabelOf tool

/-- `BuildTarget.AddDatum`. -/
def addDatum (datum : BuildInput) : Option BuildTarget :=
  { target with data := target.data ++ [datum] }.addDataLabelOf datum

/-- `BuildTarget.AddNamedDatum`. -/
def addNamedDatum (name : String) (datum : BuildInput) : Option BuildTarget :=
  { target with
    namedData := target.namedData.insert name
      ((target.namedData.lookup name).getD [] ++ [datum]) }.addDataLabelOf datum

end BuildTarget

/-- A call of one of these methods; `dependency` is `AddMaybeExportedDependency`
with `runtime` false. -/
inductive AddCall
  | source (input : BuildInput)
  | namedSource (name : String) (input : BuildInput)
  | tool (input : BuildInput)
  | namedTool (name : String) (input : BuildInput)
  | datum (input : BuildInput)
  | namedDatum (name : String) (input : BuildInput)
  | dependency (dep : BuildLabel) (exported source internal : Bool)
deriving DecidableEq

namespace AddCall

def run (target : BuildTarget) : AddCall → Option BuildTarget
  | .source input => target.addSource input
  | .namedSource name input => target.addNamedSource name input
  | .tool input => target.addTool input
  | .namedTool name input => target.addNamedTool name input
  | .datum input => target.addDatum input
  | .namedDatum name input => target.addNamedDatum name input
  | .dependency dep exported src internal =>
    target.addMaybeExportedDependency dep exported src internal false

/-- The label that a call is about. -/
def label : AddCall → Option BuildLabel
  | .source input => input.label
  | .namedSource _ input => input.label
  | .tool input => input.label
  | .namedTool _ input => input.label
  | .datum input => input.label
  | .namedDatum _ input => input.label
  | .dependency dep _ _ _ => some dep

/-- The call adds data. -/
def isData : AddCall → Bool
  | .datum _ => true
  | .namedDatum _ _ => true
  | _ => false

/-- The call adds a source. -/
def isSource : AddCall → Bool
  | .source _ => true
  | .namedSource _ _ => true
  | _ => false

end AddCall

/-- A sequence of calls. -/
def BuildTarget.addAll (target : BuildTarget) (calls : List AddCall) : Option BuildTarget :=
  calls.foldlM AddCall.run target

/-! ## The records of dependencies -/

/-- One record for a label, none of them for run time. -/
structure BuildTarget.DepsOk (target : BuildTarget) : Prop where
  nodup : target.declaredDependencies.Nodup
  runtime : ∀ info ∈ target.dependencies, info.runtime = false

/-- The `Data` flag of a label, if it has been added. -/
def BuildTarget.dataFlag (target : BuildTarget) (label : BuildLabel) : Option Bool :=
  (target.dependencyInfo label).map (·.data)

section modifyInfo

variable {f : DeclaredDependency → DeclaredDependency} (hf : ∀ info, (f info).label = info.label)
include hf

theorem map_label_modifyInfo (label : BuildLabel) (infos : List DeclaredDependency) :
    (modifyInfo label f infos).map (·.label) = infos.map (·.label) := by
  induction infos with
  | nil => rfl
  | cons _ _ ih =>
    unfold modifyInfo
    split
    · rw [map_cons, map_cons, hf]
    · rw [map_cons, map_cons, ih]

theorem find_modifyInfo (label k : BuildLabel) (infos : List DeclaredDependency) :
    (modifyInfo label f infos).find? (fun info => info.label = k) =
      if k = label then (infos.find? fun info => info.label = k).map f
      else infos.find? fun info => info.label = k := by
  induction infos with
  | nil => exact (ite_self _).symm
  | cons info _ ih =>
    unfold modifyInfo
    by_cases h : info.label = label <;> by_cases hk : k = label
    · simp [h, hk, hf]
    · have hne : info.label ≠ k := fun e => hk (e.symm.trans h)
      simp [h, hk, hf, Ne.symm hk]
    · subst hk
      simp [h, ih]
    · simp only [if_neg h, if_neg hk, find?_cons, ih]

omit hf in
theorem mem_modifyInfo {label : BuildLabel} {infos : List DeclaredDependency}
    {x : DeclaredDependency}
    (h : x ∈ modifyInfo label f infos) : x ∈ infos ∨ ∃ info ∈ infos, x = f info := by
  induction infos with
  | nil => cases h
  | cons info _ ih =>
    unfold modifyInfo at h
    split at h
    · rcases mem_cons.mp h with rfl | h
      · exact .inr ⟨info, mem_cons_self, rfl⟩
      · exact .inl (mem_cons_of_mem _ h)
    · rcases mem_cons.mp h with rfl | h
      · exact .inl mem_cons_self
      · rcases ih h with h | ⟨info', hmem, hx⟩
        · exact .inl (mem_cons_of_mem _ h)
        · exact .inr ⟨info', mem_cons_of_mem _ hmem, hx⟩

end modifyInfo

/-! ## What a call does -/

/-- The records after a call about `label?`: its flag is `data`, the flags of all
other labels and the rest of the target are as before. -/
structure Updates (t t' : BuildTarget) (label? : Option BuildLabel) (data : Bool) : Prop where
  depsOk : t.DepsOk → t'.DepsOk
  dataFlag : ∀ label, t'.dataFlag label = if label? = some label then some data
      else t.dataFlag label
  frame : t' = { t with dependencies := t'.dependencies }

variable {t t' : BuildTarget}

theorem Updates.refl (t : BuildTarget) (data : Bool) : Updates t t none data :=
  ⟨id, fun _ => (if_neg nofun).symm, rfl⟩

theorem Updates.trans {t₁ t₂ : BuildTarget} {label? : Option BuildLabel} {d₁ d₂ : Bool}
    (h₁ : Updates t t₁ label? d₁) (h₂ : Updates t₁ t₂ label? d₂) : Updates t t₂ label? d₂ where
  depsOk hok := h₂.depsOk (h₁.depsOk hok)
  dataFlag label := by
    rw [h₂.dataFlag, h₁.dataFlag]
    split_ifs <;> rfl
  frame := by
    rw [h₂.frame, h₁.frame]

variable {info : DeclaredDependency}

/-- A write to the record of a label that has one. -/
theorem updates_modify {dep : BuildLabel} {f : DeclaredDependency → DeclaredDependency}
    {data : Bool}
    (hinfo : t.dependencyInfo dep = some info)
    (hlabel : ∀ info, (f info).label = info.label) (hdata : ∀ info, (f info).data = data)
    (hruntime : ∀ info, info.runtime = false → (f info).runtime = false) :
    Updates t { t with dependencies := modifyInfo dep f t.dependencies } (some dep) data where
  depsOk hok := by
    refine ⟨?_, fun x hx => ?_⟩
    · unfold declaredDependencies
      rw [map_label_modifyInfo hlabel]
      exact hok.nodup
    · rcases mem_modifyInfo hx with hx | ⟨info, hmem, rfl⟩
      · exact hok.runtime x hx
      · exact hruntime info (hok.runtime info hmem)
  dataFlag label := by
    unfold dataFlag dependencyInfo
    rw [find_modifyInfo hlabel]
    by_cases h : label = dep
    · subst h
      unfold dependencyInfo at hinfo
      rw [if_pos rfl, if_pos rfl, hinfo, Option.map_some, Option.map_some, hdata]
    · rw [if_neg h, if_neg fun e => h (Option.some.inj e).symm]
  frame := rfl

theorem updates_append (hnone : t.dependencyInfo info.label = none)
    (hruntime : info.runtime = false) :
    Updates t { t with dependencies := t.dependencies ++ [info] } (some info.label) info.data where
  depsOk hok := by
    refine ⟨?_, fun x hx => ?_⟩
    · unfold declaredDependencies
      rw [map_append]
      refine hok.nodup.append (nodup_singleton _) ?_
      intro label hmem hlabel
      obtain ⟨x, hx, rfl⟩ := mem_map.mp hmem
      have := find?_eq_none.mp hnone x hx
      simp only [map_cons, map_nil, mem_singleton] at hlabel
      exact this (decide_eq_true hlabel)
    · rcases mem_append.mp hx with hx | hx
      · exact hok.runtime x hx
      · rw [mem_singleton.mp hx]
        exact hruntime
  dataFlag label := by
    unfold dataFlag dependencyInfo
    rw [find?_append]
    by_cases h : info.label = label
    · subst h
      unfold dependencyInfo at hnone
      rw [hnone, if_pos rfl]
      simp
    · rw [if_neg fun e => h (Option.some.inj e)]
      simp [h]
  frame := rfl

theorem updates_addMaybeExportedDependency {dep : BuildLabel} {exported source internal : Bool}
    (h : t.addMaybeExportedDependency dep exported source internal false = some t') :
    Updates t t' (some dep) false := by
  unfold addMaybeExportedDependency at h
  simp only [Bool.false_and, Bool.false_eq_true, if_false] at h
  split at h
  · cases h
  · split at h
    · rename_i hnone
      cases h
      exact updates_append hnone rfl
    · rename_i info hinfo
      cases h
      exact updates_modify hinfo (fun _ => rfl) (fun _ => rfl) (fun _ _ => Bool.and_false _)

theorem updates_addLabelOf {input : BuildInput} (h : t.addLabelOf input = some t') :
    Updates t t' input.label false := by
  unfold addLabelOf at h
  cases hl : input.label with
  | none =>
    simp only [hl] at h
    cases h
    exact .refl t false
  | some =>
    simp only [hl] at h
    exact updates_addMaybeExportedDependency h

theorem updates_addDataLabelOf {input : BuildInput} (h : t.addDataLabelOf input = some t') :
    Updates t t' input.label true := by
  unfold addDataLabelOf at h
  cases hl : input.label with
  | none =>
    simp only [hl] at h
    cases h
    exact .refl t true
  | some label =>
    simp only [hl] at h
    obtain ⟨t₁, h₁, rfl⟩ := Option.map_eq_some_iff.mp h
    have hu := updates_addMaybeExportedDependency h₁
    -- the record is there, because it has just been added
    have hflag : t₁.dataFlag label = some false := (hu.dataFlag label).trans (if_pos rfl)
    obtain ⟨info, hinfo, _⟩ := Option.map_eq_some_iff.mp hflag
    exact hu.trans (updates_modify hinfo (fun _ => rfl) (fun _ => rfl) fun _ h => h)

/-- A source that the list has is ignored. -/
theorem addSourceTo_cases {sources sources' : List BuildInput} {source : BuildInput}
    (h : t.addSourceTo sources source = some (t', sources')) :
    source ∈ sources ∧ t' = t ∧ sources' = sources ∨
    source ∉ sources ∧ Updates t t' source.label false ∧ sources' = sources ++ [source] := by
  unfold addSourceTo at h
  split at h
  · cases h
  · split at h
    · rename_i hmem
      cases h
      exact .inl ⟨hmem, rfl, rfl⟩
    · rename_i hmem
      refine .inr ⟨hmem, ?_⟩
      cases hl : source.label with
      | none =>
        simp only [hl] at h
        cases h
        exact ⟨.refl t false, rfl⟩
      | some =>
        simp only [hl] at h
        obtain ⟨t₁, h₁, h⟩ := Option.map_eq_some_iff.mp h
        cases h
        exact ⟨updates_addMaybeExportedDependency h₁, rfl⟩

/-- The target has the source that the call adds, in the list it adds it to. -/
def AddCall.Present (target : BuildTarget) : AddCall → Prop
  | .source input => input ∈ target.sources
  | .namedSource name input => input ∈ target.sourcesNamed name
  | _ => False

instance (target : BuildTarget) : DecidablePred (AddCall.Present target)
  | .source input => inferInstanceAs (Decidable (input ∈ target.sources))
  | .namedSource name input => inferInstanceAs (Decidable (input ∈ target.sourcesNamed name))
  | .tool _ => .isFalse id
  | .namedTool _ _ => .isFalse id
  | .datum _ => .isFalse id
  | .namedDatum _ _ => .isFalse id
  | .dependency _ _ _ _ => .isFalse id

/-- **What one call does.** A call that adds a source that is there does nothing; any
other one sets the flag of its label. -/
structure AddCall.Spec (c : AddCall) (t t' : BuildTarget) : Prop where
  depsOk : t.DepsOk → t'.DepsOk
  dataFlag : ∀ label, t'.dataFlag label =
    if ¬ c.Present t ∧ c.label = some label then some c.isData else t.dataFlag label
  present : ∀ c', c'.Present t' ↔ c'.Present t ∨ c'.isSource ∧ c' = c

theorem BuildTarget.DepsOk.of_eq (h : t.DepsOk) (hdeps : t'.dependencies = t.dependencies) :
    t'.DepsOk := by
  refine ⟨?_, ?_⟩
  · unfold declaredDependencies
    rw [hdeps]
    exact h.nodup
  · rw [hdeps]
    exact h.runtime

theorem BuildTarget.dataFlag_of_eq (hdeps : t'.dependencies = t.dependencies) (label : BuildLabel) :
    t'.dataFlag label = t.dataFlag label := by
  unfold dataFlag dependencyInfo
  rw [hdeps]

variable {c : AddCall}

/-- A call that adds no source, and leaves the sources alone. -/
theorem AddCall.Spec.of_updates {t₀ : BuildTarget} (hu : Updates t₀ t' c.label c.isData)
    (hc : c.isSource = false) (hdeps : t₀.dependencies = t.dependencies)
    (hsources : t₀.sources = t.sources) (hnamed : t₀.namedSources = t.namedSources) :
    c.Spec t t' := by
  have hnot : ¬ c.Present t := by
    cases c with
    | source input | namedSource name input => cases hc
    | _ => exact not_false
  refine ⟨fun hok => hu.depsOk (hok.of_eq hdeps), fun label => ?_, fun c' => ?_⟩
  · rw [hu.dataFlag, dataFlag_of_eq hdeps]
    simp [hnot]
  · have hsrc : t'.sources = t.sources := by rw [hu.frame, ← hsources]
    have hnam : t'.namedSources = t.namedSources := by rw [hu.frame, ← hnamed]
    have hiff : c'.Present t' ↔ c'.Present t := by
      unfold AddCall.Present sourcesNamed
      rw [hsrc, hnam]
    rw [hiff, or_iff_left]
    rintro ⟨hs, rfl⟩
    rw [hc] at hs
    cases hs

theorem AddCall.isData_of_isSource (h : c.isSource) : c.isData = false := by
  cases c with
  | source => rfl
  | namedSource => rfl
  | _ => cases h

/-- A call that adds a source the target does not have. -/
theorem AddCall.Spec.of_added (hc : c.isSource) {t₁ : BuildTarget} (hu : Updates t t₁ c.label false)
    (hnot : ¬ c.Present t) (hdeps : t'.dependencies = t₁.dependencies)
    (hpresent : ∀ c', c'.Present t' ↔ c'.Present t ∨ c'.isSource ∧ c' = c) : c.Spec t t' := by
  refine ⟨fun hok => (hu.depsOk hok).of_eq hdeps, fun label => ?_, hpresent⟩
  rw [dataFlag_of_eq hdeps, hu.dataFlag, AddCall.isData_of_isSource hc]
  simp [hnot]

/-- A call that adds a source the target has. -/
theorem AddCall.Spec.of_present (h : c.Present t) (hdeps : t'.dependencies = t.dependencies)
    (hpresent : ∀ c' : AddCall, c'.Present t' ↔ c'.Present t) : c.Spec t t' := by
  refine ⟨fun hok => hok.of_eq hdeps, fun label => ?_, fun c' => ?_⟩
  · rw [dataFlag_of_eq hdeps, if_neg fun hn => hn.1 h]
  · rw [hpresent, iff_self_or]
    rintro ⟨_, rfl⟩
    exact h

theorem AddCall.run_spec (h : c.run t = some t') : c.Spec t t' := by
  cases c with
  | source =>
    obtain ⟨⟨t₁, sources⟩, h₁, rfl⟩ := Option.map_eq_some_iff.mp h
    rcases addSourceTo_cases h₁ with ⟨hmem, rfl, rfl⟩ | ⟨hmem, hu, rfl⟩
    · exact .of_present hmem rfl fun c' => .rfl
    · refine .of_added rfl hu hmem rfl fun c' => ?_
      have hnam : t₁.namedSources = t.namedSources := by rw [hu.frame]
      cases c' with
      | source => simp [AddCall.Present, AddCall.isSource]
      | _ => simp [AddCall.Present, AddCall.isSource, sourcesNamed, hnam]
  | namedSource name =>
    obtain ⟨⟨t₁, sources⟩, h₁, rfl⟩ := Option.map_eq_some_iff.mp h
    have hlookup : ∀ n, sourcesNamed
        { t₁ with namedSources := t₁.namedSources.insert name sources } n =
        if n = name then sources else t₁.sourcesNamed n := by
      intro n
      unfold sourcesNamed
      rw [SortedMap.lookup_insert]
      split_ifs <;> rfl
    rcases addSourceTo_cases h₁ with ⟨hmem, rfl, rfl⟩ | ⟨hmem, hu, rfl⟩
    · refine .of_present hmem rfl fun c' => ?_
      cases c' with
      | namedSource =>
        unfold AddCall.Present
        dsimp only
        rw [hlookup]
        split_ifs with hn
        · rw [hn]
        · rfl
      | _ => exact .rfl
    · refine .of_added rfl hu hmem rfl fun c' => ?_
      have hsrc : t₁.sources = t.sources := by rw [hu.frame]
      have hnam : ∀ n, t₁.sourcesNamed n = t.sourcesNamed n := by
        intro n
        unfold sourcesNamed
        rw [hu.frame]
      cases c' with
      | namedSource n =>
        unfold AddCall.Present
        dsimp only
        rw [hlookup, hnam]
        by_cases hn : n = name
        · simp [hn, AddCall.isSource]
        · simp [hn, AddCall.isSource]
      | _ => simp [AddCall.Present, AddCall.isSource, hsrc]
  | tool input | namedTool name input =>
    have hu := updates_addLabelOf (show addLabelOf _ input = some t' from h)
    exact .of_updates hu rfl rfl rfl rfl
  | datum input | namedDatum name input =>
    have hu := updates_addDataLabelOf (show addDataLabelOf _ input = some t' from h)
    exact .of_updates hu rfl rfl rfl rfl
  | dependency => exact .of_updates (updates_addMaybeExportedDependency h) rfl rfl rfl rfl

/-! ## Sequences of calls -/

/-- Every data call about the label is followed by one that is not a data call,
and that does not repeat the addition of a source. -/
def StaysBuildTime (calls : List AddCall) (label : BuildLabel) : Prop :=
  ∀ before d after, calls = before ++ d :: after → d.isData → d.label = some label →
    ∃ mid c rest, after = mid ++ c :: rest ∧ c.isData = false ∧ c.label = some label ∧
      (c.isSource → c ∉ before ++ d :: mid)

section StaysBuildTime

variable {calls : List AddCall} {c : AddCall} {label : BuildLabel}

theorem not_staysBuildTime_data (hd : c.isData) (hl : c.label = some label) :
    ¬ StaysBuildTime (calls ++ [c]) label := by
  intro h
  obtain ⟨mid, c', rest, heq, _⟩ := h calls c [] rfl hd hl
  simp at heq

/-- Where the last call of a sequence is in a split of it. -/
theorem append_singleton_split {before after : List AddCall} {d : AddCall}
    (h : calls ++ [c] = before ++ d :: after) :
    after = [] ∧ d = c ∧ before = calls ∨ ∃ after', after = after' ++ [c] ∧ calls = before ++
      d :: after' := by
  rcases eq_nil_or_concat after with rfl | ⟨after', c', rfl⟩
  · obtain ⟨hcalls, hlast⟩ := append_inj' h rfl
    cases hlast
    exact .inl ⟨rfl, rfl, hcalls.symm⟩
  · rw [concat_eq_append, ← cons_append, ← append_assoc] at h
    obtain ⟨h₁, h₂⟩ := append_inj' h rfl
    cases h₂
    exact .inr ⟨after', concat_eq_append, h₁⟩

theorem staysBuildTime_fresh (hd : c.isData = false) (hl : c.label = some label)
    (hfresh : c.isSource → c ∉ calls) : StaysBuildTime (calls ++ [c]) label := by
  intro before d after heq hdata _
  rcases append_singleton_split heq with ⟨_, rfl, _⟩ | ⟨after', rfl, rfl⟩
  · rw [hd] at hdata
    cases hdata
  · exact ⟨after', c, [], rfl, hd, hl, hfresh⟩

/-- A call that is not about the label, or repeats the addition of a source. -/
theorem staysBuildTime_skip (hskip : c.label = some label → c.isSource ∧ c ∈ calls) :
    StaysBuildTime (calls ++ [c]) label ↔ StaysBuildTime calls label := by
  constructor
  · intro h before d after heq hdata hl
    obtain ⟨mid, c', rest, hafter, hd', hl', hfresh⟩ :=
      h before d (after ++ [c]) (by rw [heq, append_assoc, cons_append]) hdata hl
    rcases append_singleton_split hafter with ⟨_, rfl, rfl⟩ | ⟨rest', _, rfl⟩
    · obtain ⟨hs, hmem⟩ := hskip hl'
      rw [heq] at hmem
      exact absurd hmem (hfresh hs)
    · exact ⟨mid, c', rest', rfl, hd', hl', hfresh⟩
  · intro h before d after heq hdata hl
    rcases append_singleton_split heq with ⟨_, rfl, _⟩ | ⟨after', rfl, hcalls⟩
    · obtain ⟨hs, _⟩ := hskip hl
      rw [AddCall.isData_of_isSource hs] at hdata
      cases hdata
    · obtain ⟨mid, c', rest, rfl, hd', hl', hfresh⟩ := h before d after' hcalls hdata hl
      exact ⟨mid, c', rest ++ [c], by rw [append_assoc, cons_append], hd', hl', hfresh⟩

end StaysBuildTime

/-- What the calls say about the target they lead to. -/
structure CallsOk (calls : List AddCall) (t : BuildTarget) : Prop where
  depsOk : t.DepsOk
  present : ∀ c, c.Present t ↔ c.isSource ∧ c ∈ calls
  none_iff : ∀ label, t.dataFlag label = none ↔ ∀ c ∈ calls, c.label ≠ some label
  stays_iff : ∀ label, t.dataFlag label ≠ none →
    (t.dataFlag label = some false ↔ StaysBuildTime calls label)

theorem callsOk_new (label : BuildLabel) : CallsOk [] (new label) where
  depsOk := ⟨nodup_nil, forall_mem_nil _⟩
  present c := by
    cases c <;> simp [AddCall.Present, new, sourcesNamed, SortedMap.lookup_empty]
  none_iff _ := ⟨fun _ _ h => absurd h not_mem_nil, fun _ => rfl⟩
  stays_iff _ h := absurd rfl h

variable {calls : List AddCall}

/-- What one more call preserves. -/
theorem CallsOk.step (hok : CallsOk calls t) (hc : c.Spec t t') : CallsOk (calls ++ [c]) t' := by
  have hpresent : ∀ c', c'.Present t' ↔ c'.isSource ∧ c' ∈ calls ++ [c] := by
    intro c'
    rw [hc.present, hok.present, mem_append, mem_singleton, ← and_or_left]
  refine ⟨hc.depsOk hok.depsOk, hpresent, fun label => ?_, fun label => ?_⟩
  · rw [hc.dataFlag, forall_mem_append, forall_mem_singleton, ← hok.none_iff]
    split_ifs with h
    · exact ⟨nofun, fun hn => absurd h.2 hn.2⟩
    · refine ⟨fun hn => ⟨hn, fun hl => ?_⟩, And.left⟩
      -- a source that is there has been added before
      have hmem := (hok.present c).mp (not_not.mp fun hp => h ⟨hp, hl⟩)
      exact (hok.none_iff label).mp hn c hmem.2 hl
  · rw [hc.dataFlag]
    split_ifs with h
    · intro _
      cases hd : c.isData with
      | true => exact ⟨nofun, fun hs => absurd hs (not_staysBuildTime_data hd h.2)⟩
      | false =>
        refine ⟨fun _ => staysBuildTime_fresh hd h.2 fun hs hmem => ?_, fun _ => rfl⟩
        exact h.1 ((hok.present c).mpr ⟨hs, hmem⟩)
    · intro hne
      rw [hok.stays_iff label hne, staysBuildTime_skip]
      intro hl
      exact (hok.present c).mp (not_not.mp fun hp => h ⟨hp, hl⟩)

/-- **The target after any sequence of calls**, by induction on the sequence. -/
theorem callsOk_addAll {label : BuildLabel}
    (h : (new label).addAll calls = some t) : CallsOk calls t := by
  induction calls using reverseRecOn generalizing t with
  | nil =>
    cases h
    exact callsOk_new label
  | append_singleton _ c ih =>
    unfold addAll at h
    rw [foldlM_append] at h
    obtain ⟨t₁, h₁, h⟩ := Option.bind_eq_some_iff.mp h
    obtain ⟨t₂, h₂, h⟩ := Option.bind_eq_some_iff.mp h
    cases h
    exact (ih h₁).step (AddCall.run_spec h₂)

/-- A label that is no run-time dependency is yielded iff its flag is false. -/
theorem BuildTarget.DepsOk.mem_buildDependencyLabels (hok : t.DepsOk) {label : BuildLabel} :
    label ∈ t.buildDependencyLabels ↔ t.dataFlag label = some false := by
  unfold buildDependencyLabels dataFlag
  rw [mem_map, Option.map_eq_some_iff]
  constructor
  · rintro ⟨info, hmem, rfl⟩
    obtain ⟨hmem, hflags⟩ := mem_filter.mp hmem
    refine ⟨info, (find_key_eq_some hok.nodup).mpr ⟨hmem, rfl⟩, ?_⟩
    simpa [hok.runtime info hmem] using hflags
  · rintro ⟨info, hfind, hdata⟩
    obtain ⟨hmem, hlabel⟩ := (find_key_eq_some hok.nodup).mp hfind
    refine ⟨info, mem_filter.mpr ⟨hmem, ?_⟩, hlabel⟩
    simp [hok.runtime info hmem, hdata]

/-- The flag is right about a label that is not only data exactly if the calls
keep it so. -/
theorem mem_buildDependencyLabels_iff {new label : BuildLabel}
    (h : (BuildTarget.new new).addAll calls = some t)
    (hadded : ∃ c ∈ calls, c.label = some label) :
    label ∈ t.buildDependencyLabels ↔ StaysBuildTime calls label := by
  have hok := callsOk_addAll h
  rw [hok.depsOk.mem_buildDependencyLabels]
  refine hok.stays_iff label fun hnone => ?_
  obtain ⟨c, hc, hl⟩ := hadded
  exact (hok.none_iff label).mp hnone c hc hl

end Please.Core
