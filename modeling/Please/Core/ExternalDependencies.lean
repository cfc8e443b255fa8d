import Please.Core.Package

/-!
# The external dependencies of a target

Model of `ExternalDependencies` (`src/core/build_target.go`, lines 609–645), which is to flatten out
the internal targets (`_name#tag`) of a target. Each call compares parents with the target it was
called for. Of an internal target the label is no parent of any, so that internal targets are gone
into from the target itself only: what they depend on is returned as it is.

* `externalDependencies_external_iff`: when these are the external dependencies.
-/

namespace Please.Core

open Please.Lib.Except List BuildLabel

/-! ## The model -/

section model

variable (graph : BuildGraph)

/-- What the declared dependencies of a target stand for, in order: labels that are not in the
graph, and targets (lines 618–630). -/
def resolveDependencies (target : BuildTarget) : List (BuildLabel ⊕ BuildTarget) :=
  target.declaredDependencies.flatMap fun l =>
    match graph.target l with
    | none => [.inl l]
    | some depTarget => (depTarget.provideFor target).map fun provided =>
        match graph.target provided with
        | none => .inl provided
        | some dep => .inr dep

/-- `BuildTarget.ExternalDependencies` (lines 615–645): the targets and the labels that are not in
the graph, with calls nested at most `fuel` deep. -/
def externalDependencies : ℕ → BuildTarget → Option (List BuildTarget × List BuildLabel)
  | 0, _ => none
  | fuel + 1, target => do
    let parts ← (resolveDependencies graph target).mapM fun dep =>
      dep.elim (fun l => some ([], [l])) fun dep =>
        if dep.label.parent ≠ target.label then some ([dep], [])
        else externalDependencies fuel dep
    some ((parts.flatMap Prod.fst).insertionSort fun a b => BuildGraph.labelLe a.label b.label,
      parts.flatMap Prod.snd)

end model

/-! ## Specification -/

section specification

variable (graph : BuildGraph)

/-- The target belongs to the one with the label. -/
def BuildTarget.InternalTo (t : BuildTarget) (l : BuildLabel) : Prop := t.label.parent = l

/-- A dependency that is internal to the target with the label. -/
def InternalEdge (l : BuildLabel) (t d : BuildTarget) : Prop :=
  d ∈ graph.dependencies t ∧ d.InternalTo l

/-- No target depends on itself through others. -/
def DependenciesAcyclic : Prop :=
  ∀ t ∈ graph.targets, ¬Relation.TransGen (fun a b => b ∈ graph.dependencies a) t t

end specification

/-! ## What is returned -/

variable {graph : BuildGraph}

theorem mem_resolveDependencies {t d : BuildTarget} :
    .inr d ∈ resolveDependencies graph t ↔ d ∈ graph.dependencies t := by
  rw [graph.mem_dependencies, resolveDependencies, mem_flatMap]
  refine exists_congr fun l => and_congr_right fun _ => ?_
  cases graph.target l with
  | none => simp
  | some =>
    simp only [mem_map, Option.some.injEq, exists_eq_left']
    refine exists_congr fun p => and_congr_right fun _ => ?_
    cases graph.target p <;> simp

/-- The label of a hidden target with a parent is nobody's parent. -/
theorem parent_ne_of_internal {l l' : BuildLabel} (h : l.parent ≠ l) : l'.parent ≠ l := by
  have hhash : '#' ∈ l.name.toList ∧ l.name.toList.head? = some '_' := by
    by_contra hno
    exact h (by rw [parent]; exact if_neg hno)
  intro heq
  by_cases hl' : '#' ∈ l'.name.toList ∧ l'.name.toList.head? = some '_'
  · have hname : l.name.toList = (l'.name.toList.takeWhile (· ≠ '#')).dropWhile (· = '_') := by
      rw [← heq, parent]
      simp [hl']
    rw [hname] at hhash
    have hmem := mem_takeWhile_imp ((dropWhile_sublist _).subset hhash.1)
    simp at hmem
  · rw [parent] at heq
    simp only [hl', if_false] at heq
    rw [heq] at hl'
    exact hl' hhash

/-- No internal target of an internal target is gone into. -/
theorem externalDependencies_internal {d : BuildTarget} (h : d.label.parent ≠ d.label) (fuel : ℕ) :
    ∃ r, externalDependencies graph (fuel + 1) d = some r ∧
      ∀ x, x ∈ r.1 ↔ x ∈ graph.dependencies d := by
  rw [externalDependencies]
  have hparts : ((resolveDependencies graph d).mapM fun dep =>
      dep.elim (fun l => some ([], [l])) fun dep =>
        if dep.label.parent ≠ d.label then some ([dep], [])
          else externalDependencies graph fuel dep) =
      some ((resolveDependencies graph d).map fun dep =>
        dep.elim (fun l => ([], [l])) fun dep => ([dep], [])) := by
    rw [mapM_eq_some, map_map]
    refine map_congr_left fun dep _ => ?_
    cases dep with
    | inl => rfl
    | inr => exact if_pos (parent_ne_of_internal h)
  refine ⟨_, by rw [hparts]; rfl, fun x => ?_⟩
  rw [mem_insertionSort, ← mem_resolveDependencies]
  simp only [flatMap_map, mem_flatMap]
  constructor
  · rintro ⟨dep | dep, hdep, hx⟩
    · cases hx
    · rwa [mem_singleton.mp hx]
  · exact fun hx => ⟨.inr x, hx, mem_cons_self⟩

/-- What is returned for a target: its dependencies that are not internal, and all dependencies of
those that are. -/
theorem mem_externalDependencies (hacyclic : DependenciesAcyclic graph) {t : BuildTarget}
    (ht : t ∈ graph.targets) {fuel : ℕ} (hfuel : 2 ≤ fuel) :
    ∃ r, externalDependencies graph fuel t = some r ∧ ∀ x, x ∈ r.1 ↔
      (x ∈ graph.dependencies t ∧ ¬x.InternalTo t.label) ∨
        ∃ d, InternalEdge graph t.label t d ∧ x ∈ graph.dependencies d := by
  obtain ⟨fuel, rfl⟩ : ∃ n, fuel = n + 2 := ⟨fuel - 2, by omega⟩
  -- the internal dependencies are other targets, so they are hidden
  have hinternal {d : BuildTarget} (hd : d ∈ graph.dependencies t) (h : d.label.parent = t.label) :
      d.label.parent ≠ d.label := by
    intro hself
    have heq : d = t := graph.eq_of_label (graph.dependencies_mem hd) ht (hself.symm.trans h)
    exact hacyclic t ht (.single (heq ▸ hd))
  have hpart (dep : BuildLabel ⊕ BuildTarget) (hdep : dep ∈ resolveDependencies graph t) :
      ∃ r, (dep.elim (fun l => some ([], [l])) fun dep =>
          if dep.label.parent ≠ t.label then some ([dep], [])
          else externalDependencies graph (fuel + 1) dep) = some r ∧
        ∀ x, x ∈ r.1 ↔ ∃ d, dep = .inr d ∧ ((x = d ∧ ¬d.InternalTo t.label) ∨
          (d.InternalTo t.label ∧ x ∈ graph.dependencies d)) := by
    cases dep with
    | inl => exact ⟨_, rfl, by simp⟩
    | inr d =>
      by_cases hd : d.label.parent = t.label
      · obtain ⟨r, hr, hmem⟩ := externalDependencies_internal
          (hinternal (mem_resolveDependencies.mp hdep) hd) fuel
        exact ⟨r, by rw [Sum.elim_inr, if_neg (not_not.mpr hd), hr],
          by simp [hmem, BuildTarget.InternalTo, hd]⟩
      · exact ⟨_, if_pos hd, by simp [BuildTarget.InternalTo, hd]⟩
  obtain ⟨parts, hparts⟩ := exists_mapM_eq_some fun dep hdep => (hpart dep hdep).imp fun _ h => h.1
  refine ⟨_, by rw [externalDependencies, hparts]; rfl, fun x => ?_⟩
  rw [mem_insertionSort, mem_flatMap]
  constructor
  · rintro ⟨r, hr, hx⟩
    obtain ⟨dep, hdep, hdepr⟩ := (mem_of_mapM_eq_some hparts).mp hr
    obtain ⟨r', hr', hmem⟩ := hpart dep hdep
    obtain rfl := Option.some.inj (hdepr.symm.trans hr')
    obtain ⟨d, rfl, ⟨rfl, hno⟩ | ⟨hyes, hx⟩⟩ := (hmem x).mp hx
    · exact .inl ⟨mem_resolveDependencies.mp hdep, hno⟩
    · exact .inr ⟨d, ⟨mem_resolveDependencies.mp hdep, hyes⟩, hx⟩
  · have hback {d : BuildTarget} (hd : d ∈ graph.dependencies t)
        (h : (x = d ∧ ¬d.InternalTo t.label) ∨ (d.InternalTo t.label ∧ x ∈ graph.dependencies d)) :
        ∃ r ∈ parts, x ∈ r.1 := by
      have hdep := mem_resolveDependencies.mpr hd
      obtain ⟨r, hr, hmem⟩ := hpart _ hdep
      exact ⟨r, (mem_of_mapM_eq_some hparts).mpr ⟨_, hdep, hr⟩, (hmem x).mpr ⟨d, rfl, h⟩⟩
    rintro (⟨hx, hno⟩ | ⟨d, ⟨hd, hyes⟩, hx⟩)
    · exact hback hx (.inl ⟨rfl, hno⟩)
    · exact hback hd (.inr ⟨hyes, hx⟩)

/-- What is returned is external, and complete, if and only if no internal target that the target
depends on depends on another one. -/
theorem externalDependencies_external_iff (hacyclic : DependenciesAcyclic graph) {t : BuildTarget}
    (ht : t ∈ graph.targets) {fuel : ℕ} (hfuel : 2 ≤ fuel) :
    (∃ r, externalDependencies graph fuel t = some r ∧ (∀ x ∈ r.1, ¬x.InternalTo t.label) ∧
      ∀ d, Relation.ReflTransGen (InternalEdge graph t.label) t d → ∀ x ∈ graph.dependencies d,
        ¬x.InternalTo t.label → x ∈ r.1) ↔
      ∀ d, InternalEdge graph t.label t d → ∀ x ∈ graph.dependencies d, ¬x.InternalTo t.label := by
  obtain ⟨r, hr, hmem⟩ := mem_externalDependencies hacyclic ht hfuel
  constructor
  · rintro ⟨r', hr', hexternal, -⟩ d hd x hx
    obtain rfl := Option.some.inj (hr.symm.trans hr')
    exact hexternal x ((hmem x).mpr (.inr ⟨d, hd, hx⟩))
  · intro h
    refine ⟨r, hr, fun x hx => ?_, fun d hreach x hx hno => (hmem x).mpr ?_⟩
    · obtain ⟨-, hno⟩ | ⟨d, hd, hx⟩ := (hmem x).mp hx
      · exact hno
      · exact h d hd x hx
    · rcases hreach.cases_head with rfl | ⟨d₁, hd₁, hreach⟩
      · exact .inl ⟨hx, hno⟩
      · rcases hreach.cases_head with rfl | ⟨d₂, hd₂, -⟩
        · exact .inr ⟨d₁, hd₁, hx⟩
        · exact absurd hd₂.2 (h d₁ hd₁ d₂ hd₂.1)

/-- Dependencies lead to no cycle if they lead to smaller ranks. -/
theorem dependenciesAcyclic_of_rank (rank : BuildTarget → ℕ)
    (h : ∀ t ∈ graph.targets, ∀ d ∈ graph.dependencies t, rank d < rank t) :
    DependenciesAcyclic graph := by
  intro t ht hcycle
  have hlt {d : BuildTarget} (hd : Relation.TransGen (fun a b => b ∈ graph.dependencies a) t d) :
      d ∈ graph.targets ∧ rank d < rank t := by
    induction hd with
    | single hd => exact ⟨graph.dependencies_mem hd, h t ht _ hd⟩
    | tail _ hd ih => exact ⟨graph.dependencies_mem hd, (h _ ih.1 _ hd).trans ih.2⟩
  exact lt_irrefl _ (hlt hcycle).2

/-- A target with a chain of two internal ones. -/
def chainGraph : BuildGraph where
  targets := [ruleOf "t" ["_t#a"], ruleOf "_t#a" ["_t#b"], ruleOf "_t#b" ["x"], ruleOf "x" []]

theorem externalDependencies_external_iff_chainGraph :
    (∃ r, externalDependencies chainGraph 2 (ruleOf "t" ["_t#a"]) = some r ∧
      (∀ x ∈ r.1, ¬x.InternalTo ⟨"p", "t", ""⟩) ∧
      ∀ d, Relation.ReflTransGen (InternalEdge chainGraph ⟨"p", "t", ""⟩) (ruleOf "t" ["_t#a"]) d →
        ∀ x ∈ chainGraph.dependencies d, ¬x.InternalTo ⟨"p", "t", ""⟩ → x ∈ r.1) ↔
      ∀ d, InternalEdge chainGraph ⟨"p", "t", ""⟩ (ruleOf "t" ["_t#a"]) d →
        ∀ x ∈ chainGraph.dependencies d, ¬x.InternalTo ⟨"p", "t", ""⟩ :=
  externalDependencies_external_iff
    (dependenciesAcyclic_of_rank
      (fun t => ["x", "_t#b", "_t#a", "t"].idxOf t.label.name) (by decide +kernel))
    mem_cons_self le_rfl

theorem externalDependencies_chainGraph :
    (externalDependencies chainGraph 2 (ruleOf "t" ["_t#a"])).map Prod.fst =
        some [ruleOf "_t#b" ["x"]] ∧
      (ruleOf "_t#b" ["x"]).label.parent = (ruleOf "t" ["_t#a"]).label := by
  decide +kernel

end Please.Core
