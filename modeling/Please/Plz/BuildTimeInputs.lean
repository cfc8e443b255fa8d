import Please.Core.Inputs
import Please.Plz.Schedule

/-!
# Build-time inputs stay build-time dependencies

What the order of the calls that add inputs to a target (`Please.Core.Inputs`)
means for the schedule (`Please.Plz.Schedule`): whether a label that was added
as a source, a tool or a plain dependency is built before the target's action.

* `isBuildTime_iff`: when it is yielded by `BuildDependencyLabels`, and so built first.
* `tool_then_datum`: a tool that is also data is not waited for.
-/

namespace Please.Plz.Runner

open Please.Lib Please.Core BuildTarget

/-- The label is yielded by `BuildDependencyLabels` of the target, and in every run
on every graph with this target, everything it resolves to has been built
when the action of the target starts. -/
def IsBuildTime (t : BuildTarget) (label : BuildLabel) : Prop :=
  label ∈ t.buildDependencyLabels ∧
    ∀ (w : World) (s s' : State) (e : Event), w.graph.target t.label = some t →
      (system w).Reachable s → step w s e = some s' → ¬ s.Started t.label → s'.Started t.label →
      DepBuilt w s label t

theorem isBuildTime_of_mem {t : BuildTarget} {label : BuildLabel}
    (h : label ∈ t.buildDependencyLabels) : IsBuildTime t label := by
  refine ⟨h, fun w s s' e ht hs hstep hnot hstart => ?_⟩
  rcases (stepOk_step (inv_reachable hs) hstep).started t.label hstart with hold | hdeps
  · exact absurd hold hnot
  · exact hdeps t ht label (List.mem_append_left _ h)

/-- **Build-time inputs.** After any sequence of calls on a new target, a label that
some call added other than as data is a build-time dependency exactly if every
data call about it is followed by one that adds it otherwise (and does not
repeat the addition of a source). -/
theorem isBuildTime_iff (self : BuildLabel) (calls : List AddCall) (t : BuildTarget)
    (h : (new self).addAll calls = some t) (label : BuildLabel)
    (hadded : ∃ c ∈ calls, c.isData = false ∧ c.label = some label) :
    IsBuildTime t label ↔ StaysBuildTime calls label := by
  obtain ⟨c, hc, _, hl⟩ := hadded
  rw [← mem_buildDependencyLabels_iff h ⟨c, hc, hl⟩]
  exact ⟨And.left, isBuildTime_of_mem⟩

/-- `//:b` with `//:a` as a tool and as data, and the flag of `//:a`. -/
def toolAndData (flag : Bool) : BuildTarget :=
  { new ⟨"", "b", ""⟩ with
    tools := [.target ⟨"", "a", ""⟩]
    data := [.target ⟨"", "a", ""⟩]
    dependencies := [⟨⟨"", "a", ""⟩, false, false, false, false, flag⟩] }

/-- Data first. -/
theorem isBuildTime_iff_datum_then_tool :
    (new ⟨"", "b", ""⟩).addAll
      [.datum (.target ⟨"", "a", ""⟩), .tool (.target ⟨"", "a", ""⟩)] = some (toolAndData false) ∧
    IsBuildTime (toolAndData false) ⟨"", "a", ""⟩ := by
  have hstays : StaysBuildTime ([.datum (.target ⟨"", "a", ""⟩)] ++ [.tool (.target ⟨"", "a", ""⟩)])
      ⟨"", "a", ""⟩ := staysBuildTime_fresh rfl rfl nofun
  refine ⟨rfl, (isBuildTime_iff ⟨"", "b", ""⟩ _ _ rfl ⟨"", "a", ""⟩ ?_).mpr hstays⟩
  exact ⟨.tool (.target ⟨"", "a", ""⟩), by decide, rfl, rfl⟩

def toolAndDataWorld : World where
  graph := { targets := [new ⟨"", "a", ""⟩, toolAndData true] }
  allTargets _ := none
  keepGoing := false

/-- The tool is added first, as for a rule with `tools` and `data`: the action of
`//:b` starts before its tool has been built. -/
theorem tool_then_datum :
    (new ⟨"", "b", ""⟩).addAll
      [.tool (.target ⟨"", "a", ""⟩), .datum (.target ⟨"", "a", ""⟩)] = some (toolAndData true) ∧
    ⟨"", "a", ""⟩ ∉ (toolAndData true).buildDependencyLabels ∧
    toolAndDataWorld.graph.target ⟨"", "b", ""⟩ = some (toolAndData true) ∧
    ∃ s, (system toolAndDataWorld).Reachable s ∧ s.Started ⟨"", "b", ""⟩ ∧
      ¬ s.Built ⟨"", "a", ""⟩ := by
  refine ⟨rfl, by decide, rfl, ?_⟩
  obtain ⟨s, hexec, hnext, hno, hstart⟩ : ∃ s, (system toolAndDataWorld).exec idle
      [.invoke ⟨"", "b", ""⟩, .run 0, .run 0, .run 1, .run 1, .run 1, .run 1] = some s ∧
        s.next = 3 ∧
      (∀ i < 3, (s.frames i).map (·.call) ≠ some (.buildOne ⟨"", "a", ""⟩)) ∧
      (s.frames 2).map (·.call) = some (.runBuildAction ⟨"", "b", ""⟩) :=
    ⟨_, rfl, rfl, by decide, rfl⟩
  have hs := (idle_reachable toolAndDataWorld).exec hexec
  refine ⟨s, hs, ?_, ?_⟩
  · obtain ⟨f, hf, hcall⟩ := Option.map_eq_some_iff.mp hstart
    exact ⟨2, f, hf, hcall⟩
  · rintro ⟨i, f, hf, hcall, _⟩
    have hlt := (inv_reachable hs).lt_next hf
    rw [hnext] at hlt
    apply hno i hlt
    rw [hf, Option.map_some, hcall]

end Please.Plz.Runner
