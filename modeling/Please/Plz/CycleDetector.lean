import Please.Core.Target
import Please.Lib.Digraph

/-!
# The cycle detector

Model of `cycleDetector.Check` (`src/plz/cycle_detector.go`, lines 21–71): a
depth-first search that marks a target as partially visited while its
dependencies are being visited and as completely visited afterwards. The cycle
is collected on the way out of the recursion.

`visit` recurses on a bound of the depth, which `check` takes from the size of
the graph; `none` means that the bound was too small.

* `check_spec`: `Check` terminates, and is sound and complete.
-/

namespace Please.Plz

open Please.Lib Please.Core List

section Search

variable {α : Type} [DecidableEq α] (dependencies : α → List α)

/-- The sets `partial` and `complete` (lines 24–25). -/
structure Marks (α : Type) where
  partialSet : List α
  completeSet : List α

/-- The results of `visit`: `none` is `nil, false`. -/
abbrev Found (α : Type) := Option (List α × Bool)

/-- The loop over the dependencies and what follows it (lines 44–54), on the
dependencies that are left. -/
def visitDeps (visit : α → Marks α → Option (Marks α × Found α)) (target : α) :
    List α → Marks α → Option (Marks α × Found α)
  | [], marks => some (⟨marks.partialSet.erase target, target :: marks.completeSet⟩, none)
  | dep :: deps, marks =>
    match visit dep marks with
    | none => none
    | some (marks, none) => visitDeps visit target deps marks
    | some (marks, some (cycle, done)) =>
      if done || cycle.getLast? = some target then some (marks, some (cycle, true))
      else some (marks, some (target :: cycle, false))

/-- `visit` (lines 33–55). -/
def visit : ℕ → α → Marks α → Option (Marks α × Found α)
  | 0, _, _ => none
  | fuel + 1, target, marks =>
    if target ∈ marks.completeSet then some (marks, none)
    else if target ∈ marks.partialSet then some (marks, some ([target], false))
    else visitDeps (visit fuel) target (dependencies target)
      { marks with partialSet := target :: marks.partialSet }

/-- The loop over all targets (lines 57–64). -/
def checkTargets (fuel : ℕ) : List α → Marks α → Option (Option (List α))
  | [], _ => some none
  | target :: targets, marks =>
    if target ∈ marks.completeSet then checkTargets fuel targets marks
    else
      match visit dependencies fuel target marks with
      | none => none
      | some (marks, none) => checkTargets fuel targets marks
      | some (_, some (cycle, _)) => some (some cycle)

end Search

/-! ## What a visit returns -/

section Paths

variable {α : Type} (dependencies : α → List α)

/-- `b` is a dependency of `a`. -/
def DependsOn (a b : α) : Prop := b ∈ dependencies a

/-- A way from `target` to the first partially visited target it meets. -/
structure OpenPath (stack : List α) (target : α) (path : List α) : Prop where
  ne_nil : path ≠ []
  head : path.head ne_nil = target
  chain : path.IsChain (DependsOn dependencies)
  nodup : path.Nodup
  last : path.getLast ne_nil ∈ stack
  fresh : ∀ a ∈ path.dropLast, a ∉ stack

/-- The marks of a search that has found no cycle yet. -/
structure MarksOk (marks : Marks α) : Prop where
  finished : Finished (DependsOn dependencies) {a | a ∈ marks.completeSet}
  disjoint : ∀ a ∈ marks.partialSet, a ∉ marks.completeSet
  nodup : marks.partialSet.Nodup

/-- The marks have grown, with the same targets being visited. -/
structure Grown (marks marks' : Marks α) : Prop where
  ok : MarksOk dependencies marks'
  same : marks'.partialSet = marks.partialSet
  mono : ∀ a ∈ marks.completeSet, a ∈ marks'.completeSet

/-- What a visit of `target` achieves. -/
def VisitOk (marks : Marks α) (target : α) (marks' : Marks α) : Found α → Prop
  | none => Grown dependencies marks marks' ∧ target ∈ marks'.completeSet
  | some (path, false) => OpenPath dependencies marks.partialSet target path
  | some (cycle, true) => IsCycle (DependsOn dependencies) cycle

variable {dependencies}

/-- A path that ends in another target than the one being visited gets it as
its new beginning. -/
theorem OpenPath.extend {stack : List α} {target dep : α} {path : List α}
    (h : OpenPath dependencies (target :: stack) dep path) (hdep : dep ∈ dependencies target)
    (hfresh : target ∉ stack) (hlast : path.getLast h.ne_nil ≠ target) :
    OpenPath dependencies stack target (target :: path) := by
  have hstack : path.getLast h.ne_nil ∈ stack := (mem_cons.mp h.last).resolve_left hlast
  have hnot : target ∉ path := by
    intro hmem
    rw [← dropLast_append_getLast h.ne_nil, mem_append, mem_singleton] at hmem
    rcases hmem with hmem | hmem
    · exact h.fresh target hmem mem_cons_self
    · exact hlast hmem.symm
  refine ⟨cons_ne_nil _ _, rfl, ?_, nodup_cons.mpr ⟨hnot, h.nodup⟩, ?_, ?_⟩
  · exact h.chain.cons_of_ne_nil h.ne_nil (by rw [h.head]; exact hdep)
  · rw [getLast_cons h.ne_nil]; exact hstack
  · intro a ha
    rw [dropLast_cons_of_ne_nil h.ne_nil, mem_cons] at ha
    rcases ha with rfl | ha
    · exact hfresh
    · exact fun hmem => h.fresh a ha (mem_cons_of_mem _ hmem)

end Paths

/-! ## Correctness of the search -/

section Correctness

variable {α : Type} [DecidableEq α] {dependencies : α → List α}

/-- The loop over the dependencies, given what visiting one of them does. -/
theorem visitDeps_spec {v : α → Marks α → Option (Marks α × Found α)} {target : α} {stack : List α}
    (hv : ∀ dep ∈ dependencies target, ∀ marks : Marks α, MarksOk dependencies marks →
      marks.partialSet = target :: stack →
      ∃ marks' found, v dep marks = some (marks', found) ∧
        VisitOk dependencies marks dep marks' found)
    (deps : List α) (hdeps : ∀ dep ∈ deps, dep ∈ dependencies target) (marks : Marks α)
    (hok : MarksOk dependencies marks) (hstack : marks.partialSet = target :: stack)
    (hdone : ∀ dep ∈ dependencies target, dep ∈ deps ∨ dep ∈ marks.completeSet) :
    ∃ marks' found, visitDeps v target deps marks = some (marks', found) ∧
      VisitOk dependencies ⟨stack, marks.completeSet⟩ target marks' found := by
  have hfresh : target ∉ stack := by
    have := hok.nodup
    rw [hstack] at this
    exact (nodup_cons.mp this).1
  induction deps generalizing marks with
  | nil =>
    refine ⟨_, none, rfl, ⟨⟨?_, ?_, ?_⟩, ?_, ?_⟩, mem_cons_self⟩
    · -- all dependencies are complete, so the target can be completed
      have hnot : target ∉ marks.completeSet :=
        hok.disjoint target (by rw [hstack]; exact mem_cons_self)
      have := hok.finished.insert hnot fun dep hdep => (hdone dep hdep).resolve_left not_mem_nil
      convert this using 1
      ext a
      simp
    · intro a ha
      rw [hstack, erase_cons_head] at ha
      rw [mem_cons, not_or]
      refine ⟨fun h => hfresh (h ▸ ha), hok.disjoint a ?_⟩
      rw [hstack]
      exact mem_cons_of_mem _ ha
    · rw [hstack, erase_cons_head]
      have := hok.nodup
      rw [hstack] at this
      exact (nodup_cons.mp this).2
    · rw [hstack, erase_cons_head]
    · exact fun a ha => mem_cons_of_mem _ ha
  | cons dep _ ih =>
    have hdep : dep ∈ dependencies target := hdeps dep mem_cons_self
    obtain ⟨marks₁, found, hvisit, hfound⟩ := hv dep hdep marks hok hstack
    rw [visitDeps, hvisit]
    match found with
    | none =>
      obtain ⟨hgrown, hcomplete⟩ := hfound
      obtain ⟨marks', found', hrest, hok'⟩ := ih (forall_mem_cons.mp hdeps).2
        marks₁ hgrown.ok (hgrown.same.trans hstack) (fun d hd => by
          rcases hdone d hd with h | h
          · rcases mem_cons.mp h with rfl | h
            · exact .inr hcomplete
            · exact .inl h
          · exact .inr (hgrown.mono d h))
      refine ⟨marks', found', hrest, ?_⟩
      match found' with
      | none =>
        exact ⟨⟨hok'.1.ok, hok'.1.same, fun a ha => hok'.1.mono a (hgrown.mono a ha)⟩, hok'.2⟩
      | some (path, false) | some (path, true) => exact hok'
    | some (path, true) => exact ⟨marks₁, _, rfl, hfound⟩
    | some (path, false) =>
      have hpath : OpenPath dependencies (target :: stack) dep path := hstack ▸ hfound
      have hlast? : path.getLast? = some (path.getLast hpath.ne_nil) :=
        getLast?_eq_some_getLast hpath.ne_nil
      by_cases hlast : path.getLast hpath.ne_nil = target
      · refine ⟨marks₁, some (path, true), ?_, hpath.ne_nil, hpath.nodup, hpath.chain,
          by rw [hlast, hpath.head]; exact hdep⟩
        simp [hlast?, hlast]
      · refine ⟨marks₁, some (target :: path, false), ?_, hpath.extend hdep hfresh hlast⟩
        simp [hlast?, hlast]

variable {nodes : List α} (hclosed : ∀ a ∈ nodes, ∀ b ∈ dependencies a, b ∈ nodes)
include hclosed

/-- One visit, with a depth bound that exceeds the number of targets that are
not being visited. -/
theorem visit_spec (fuel : ℕ) (target : α) (marks : Marks α) (htarget : target ∈ nodes)
    (hok : MarksOk dependencies marks) (hsub : ∀ a ∈ marks.partialSet, a ∈ nodes)
    (hfuel : nodes.length < fuel + marks.partialSet.length) :
    ∃ marks' found, visit dependencies fuel target marks = some (marks', found) ∧
      VisitOk dependencies marks target marks' found := by
  induction fuel generalizing target marks with
  | zero =>
    -- more targets are being visited than there are
    have := (subperm_of_subset hok.nodup hsub).length_le
    omega
  | succ _ ih =>
    unfold visit
    split_ifs with hcomplete hopen
    · exact ⟨marks, none, rfl, ⟨hok, rfl, fun _ h => h⟩, hcomplete⟩
    · refine ⟨marks, some ([target], false), rfl, ?_⟩
      exact ⟨cons_ne_nil _ _, rfl, isChain_singleton _, nodup_singleton _, hopen, forall_mem_nil _⟩
    · have hok' : MarksOk dependencies { marks with partialSet := target :: marks.partialSet } := by
        refine ⟨hok.finished, ?_, nodup_cons.mpr ⟨hopen, hok.nodup⟩⟩
        intro a ha
        rcases mem_cons.mp ha with rfl | ha
        · exact hcomplete
        · exact hok.disjoint a ha
      refine visitDeps_spec ?_ _ (fun _ h => h) _ hok' rfl fun _ h => .inl h
      intro dep hdep marks₁ hok₁ hstack
      refine ih dep marks₁ (hclosed target htarget dep hdep) hok₁ ?_ ?_
      · rw [hstack]
        intro a ha
        rcases mem_cons.mp ha with rfl | ha
        · exact htarget
        · exact hsub a ha
      · rw [hstack, length_cons]
        omega

theorem checkTargets_spec (targets : List α) (hsub : ∀ a ∈ targets, a ∈ nodes) (marks : Marks α)
    (hok : MarksOk dependencies marks) (hempty : marks.partialSet = [])
    (hdone : ∀ a ∈ nodes, a ∈ targets ∨ a ∈ marks.completeSet) :
    ∃ result, checkTargets dependencies (nodes.length + 1) targets marks = some result ∧
      (result = none → ∀ a ∈ nodes, ¬ OnCycle (DependsOn dependencies) a) ∧
      ∀ cycle, result = some cycle → IsCycle (DependsOn dependencies) cycle := by
  induction targets generalizing marks with
  | nil =>
    refine ⟨none, rfl, fun _ a ha => ?_, nofun⟩
    exact hok.finished.acyclic a ((hdone a ha).resolve_left not_mem_nil)
  | cons target targets ih =>
    have hsub' : ∀ a ∈ targets, a ∈ nodes := (forall_mem_cons.mp hsub).2
    unfold checkTargets
    split_ifs with hcomplete
    · refine ih hsub' marks hok hempty fun a ha => ?_
      rcases hdone a ha with h | h
      · rcases mem_cons.mp h with rfl | h
        · exact .inr hcomplete
        · exact .inl h
      · exact .inr h
    · obtain ⟨marks', found, hvisit, hfound⟩ := visit_spec hclosed (nodes.length + 1) target marks
        (hsub target mem_cons_self) hok
        (by rw [hempty]; exact forall_mem_nil _) (by omega)
      rw [hvisit]
      match found with
      | none =>
        obtain ⟨hgrown, htarget⟩ := hfound
        refine ih hsub' marks' hgrown.ok (hgrown.same.trans hempty) fun a ha => ?_
        rcases hdone a ha with h | h
        · rcases mem_cons.mp h with rfl | h
          · exact .inr htarget
          · exact .inl h
        · exact .inr (hgrown.mono a h)
      | some (cycle, true) =>
        refine ⟨some cycle, rfl, nofun, fun c hc => ?_⟩
        cases hc
        exact hfound
      | some (path, false) =>
        -- nothing was being visited, so the path cannot end
        have hpath : OpenPath dependencies [] target path := hempty ▸ hfound
        exact absurd hpath.last not_mem_nil

end Correctness

/-! ## The check of a build graph -/

/-- `cycleDetector.Check` (lines 23–71). Two targets of a graph are the same
pointer exactly if they are equal. -/
def check (graph : BuildGraph) : Option (Option (List BuildTarget)) :=
  checkTargets graph.dependencies (graph.targets.length + 1) graph.allTargets ⟨[], []⟩

/-- **Cycle detection** terminates on every graph. It reports no cycle exactly
if no target depends on itself, directly or not; and what it reports is a
cycle without repetitions. -/
theorem check_spec (graph : BuildGraph) : ∃ result, check graph = some result ∧
    (result = none ↔ ∀ t ∈ graph.targets, ¬ OnCycle (DependsOn graph.dependencies) t) ∧
    ∀ cycle, result = some cycle →
      (∀ t ∈ cycle, t ∈ graph.targets) ∧ IsCycle (DependsOn graph.dependencies) cycle := by
  have hclosed : ∀ a ∈ graph.targets, ∀ b ∈ graph.dependencies a, b ∈ graph.targets :=
    fun a _ b hb => graph.dependencies_mem hb
  have hok : MarksOk graph.dependencies ⟨[], []⟩ := by
    refine ⟨?_, forall_mem_nil _, nodup_nil⟩
    convert finished_empty using 1
    simp
  obtain ⟨result, hcheck, hnone, hcycle⟩ := checkTargets_spec hclosed graph.allTargets
    (fun a ha => graph.mem_allTargets.mp ha) ⟨[], []⟩ hok rfl
    fun a ha => .inl (graph.mem_allTargets.mpr ha)
  -- every target of a cycle is a dependency of the one before it
  have hmem : ∀ cycle, IsCycle (DependsOn graph.dependencies) cycle →
      ∀ t ∈ cycle, t ∈ graph.targets := by
    intro cycle hc t ht
    obtain ⟨a, _, hat⟩ := hc.exists_pred ht
    exact graph.dependencies_mem hat
  refine ⟨result, hcheck, ⟨hnone, ?_⟩, fun cycle h => ⟨hmem cycle (hcycle cycle h), hcycle cycle h⟩⟩
  intro hacyclic
  cases hresult : result with
  | none => rfl
  | some cycle =>
    have hc := hcycle cycle hresult
    exact absurd hc.onCycle (hacyclic _ (hmem cycle hc _ (head_mem hc.ne_nil)))

end Please.Plz
