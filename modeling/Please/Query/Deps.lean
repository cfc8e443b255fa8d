import Please.Core.Package
import Please.Lib.DepthBounded

/-!
# Dependencies up to a level

Model of `Deps` (`query/deps.go`), which prints the dependencies of targets, those of each below it.
A result `none` stands for a crash (`TargetOrDie`), or for calls that are nested too deep for the
bound of the model.

A target is printed once, where it is met first. If it is met at the last level, its own
dependencies are left out, also where they are within the level along a shorter way.

* `deps_right_iff`: when exactly the targets at a distance within the level are printed.
-/

namespace Please.Query

open Please.Core BuildTarget
open Please.Lib.Bfs (Steps steps_one_iff steps_two_iff)
open Please.Lib.DepthBounded
open Please.Lib.Except
open List

/-! ## The model -/

/-- What is printed for a target: `printTarget` (lines 61–64) or `printTargetDot` (lines 66–81). -/
inductive Printed
  | tree (dep : BuildTarget) (currentLevel : ℕ)
  | dot (dep parent : BuildTarget)
deriving DecidableEq

namespace Printed

/-- The target that is printed. -/
def dep : Printed → BuildTarget
  | tree dep _ => dep
  | dot dep _ => dep

end Printed

/-- The arguments of `Deps` beside the labels; `shouldInclude` is `BuildState.ShouldInclude`. -/
structure DepsOptions where
  hidden : Bool
  targetLevel : ℤ
  formatdot : Bool
  shouldInclude : BuildTarget → Bool

/-- What is printed for a dependency of `target` (lines 45–49). -/
def DepsOptions.printed (opts : DepsOptions) (dep target : BuildTarget)
    (currentLevel : ℕ) : Printed :=
  if opts.formatdot then .dot dep target else .tree dep currentLevel

theorem DepsOptions.printed_dep (opts : DepsOptions) (dep target : BuildTarget) (currentLevel : ℕ) :
    (opts.printed dep target currentLevel).dep = dep := by
  rw [printed]
  split <;> rfl

/-- The labels that are done, the last one first, and what was printed. -/
structure DepsState where
  done : List BuildLabel := []
  out : List Printed := []

variable (graph : BuildGraph) (opts : DepsOptions)

/-- The body of the loop over the labels that a dependency provides (lines 38–56); `recurse` is
`deps`. -/
def visitProvided (recurse : BuildTarget → ℕ → DepsState → Option DepsState)
    (target dep : BuildTarget)
    (currentLevel : ℕ) (st : DepsState) (l : BuildLabel) : Option DepsState :=
  if !opts.shouldInclude dep || l ∈ st.done then some st
  else do
    let st := { st with done := l :: st.done }
    let dep ← graph.target l
    if opts.hidden || !dep.label.hasParent then
      recurse dep (currentLevel + 1)
        { st with out := st.out ++ [opts.printed dep target currentLevel] }
    else if dep.label.parent = target.label.parent then recurse dep currentLevel st
    else recurse dep (currentLevel + 1) st

/-- `deps` (lines 31–59), with calls nested at most `fuel` deep. -/
def depsFrom : ℕ → BuildTarget → ℕ → DepsState → Option DepsState
  | 0, _, _, _ => none
  | fuel + 1, target, currentLevel, st =>
    if (currentLevel : ℤ) = opts.targetLevel then some st
    else target.sortedDependencies.foldlM (fun st l => do
      let dep ← graph.target l
      (dep.provideFor target).foldlM
        (visitProvided graph opts (depsFrom fuel) target dep currentLevel) st) st

/-- `Deps` (lines 13–28): what is printed between the first and the last line of a graph. -/
def deps (fuel : ℕ) (labels : List BuildLabel) : Option (List Printed) := do
  let st ← labels.foldlM (fun st label => do
    let target ← graph.target label
    depsFrom graph opts fuel target 0 st) ({} : DepsState)
  some st.out

/-! ## Specification -/

/-- `d` is a dependency of `t`: a target that is provided for `t` by one that it declares. -/
def DependsOn (t d : BuildTarget) : Prop := d ∈ graph.dependencies t

/-- The least number of edges from `s` to `t` is `n`. -/
def IsDistance (s : BuildTarget) (n : ℕ) (t : BuildTarget) : Prop :=
  Steps (DependsOn graph) s n t ∧ ∀ m, Steps (DependsOn graph) s m t → n ≤ m

/-- What the walk looks up for a target. -/
def lookups (target : BuildTarget) : List (Option BuildTarget) :=
  target.sortedDependencies.flatMap fun l =>
    match graph.target l with
    | none => [none]
    | some dep => (dep.provideFor target).map graph.target

/-- The dependencies of a target in the order of the walk, if they are all there. -/
def inOrder (target : BuildTarget) : Option (List BuildTarget) := (lookups graph target).mapM id

/-- A query with hidden targets and without filters: the targets to start from, and the level. -/
structure DepsQuery where
  graph : BuildGraph
  seeds : List BuildTarget
  level : ℕ
  formatdot : Bool
  seeds_mem : ∀ t ∈ seeds, t ∈ graph.targets

namespace DepsQuery

variable (q : DepsQuery)

/-- Hidden targets are printed, nothing is filtered out. -/
def options : DepsOptions := ⟨true, q.level, q.formatdot, fun _ => true⟩

/-- Another of the targets to start from leads to `t` within the level. -/
def LedToByOther (t : BuildTarget) : Prop :=
  ∃ s ∈ q.seeds, s ≠ t ∧ ∃ i ≤ q.level, Steps (DependsOn q.graph) s i t

/-- The first dependencies that the walk comes to. -/
def firstDeps : List BuildTarget := q.seeds.flatMap fun s => (inOrder q.graph s).getD []

/-- The walk comes to a target, with `m` levels left. -/
def WalkComes (m : ℕ) (t : BuildTarget) : Prop :=
  0 < q.level ∧ Comes (inOrder q.graph) (q.level - 1) [] q.firstDeps m t

/-- A target with a dependency that is not in the graph is among those to start from, or the walk
comes to it before the last level. -/
def WalkDies : Prop :=
  ∃ t, (0 < q.level ∧ t ∈ q.seeds ∨ ∃ m, q.WalkComes (m + 1) t) ∧ inOrder q.graph t = none

/-- The walk returns from a target that it first comes to at the last level, although a shorter way
leads there. -/
def WalkCuts (t : BuildTarget) : Prop :=
  Cut (inOrder q.graph) (DependsOn q.graph) (q.level - 1) q.firstDeps t

/-- The walk does not come to a target within the limit, because it was cut off on the way. -/
def WalkLoses (t : BuildTarget) : Prop :=
  Lost (inOrder q.graph) (DependsOn q.graph) (q.level - 1) q.firstDeps t

/-- The walk comes to a target to start from only if another one leads to it. -/
def SeedsLedTo : Prop := ∀ t ∈ q.seeds, (∃ m, q.WalkComes m t) → q.LedToByOther t

/-- The targets at a distance between one and the level are printed, once each. Calls are nested one
deeper than the level. -/
def PrintsWithin : Prop :=
  ∃ out, deps q.graph q.options (q.level + 1) (q.seeds.map label) = some out ∧
    (out.map Printed.dep).Nodup ∧ ∀ t, t ∈ out.map Printed.dep ↔
      ∃ s ∈ q.seeds, ∃ n, 1 ≤ n ∧ n ≤ q.level ∧ IsDistance q.graph s n t

end DepsQuery

/-! ## The marking -/

variable {graph}

theorem mem_inOrder (t : BuildTarget) (ds : List BuildTarget) (h : inOrder graph t = some ds)
    (d : BuildTarget) : DependsOn graph t d ↔ d ∈ ds := by
  rw [DependsOn, graph.mem_dependencies, mem_of_mapM_eq_some h]
  simp only [lookups, mem_flatMap, mem_sortedDependencies, id_eq, exists_eq_right]
  refine exists_congr fun l => and_congr_right fun _ => ?_
  cases graph.target l <;> simp

/-- The state says what is marked, and what is marked is in the graph. -/
structure Follows (graph : BuildGraph) (st : DepsState) (marked : List BuildTarget) : Prop where
  done : st.done = marked.map label
  out : st.out.map Printed.dep = marked.reverse
  mem : ∀ t ∈ marked, t ∈ graph.targets

theorem Follows.mem_done {st : DepsState} {marked : List BuildTarget} (h : Follows graph st marked)
    {d : BuildTarget} (hd : d ∈ graph.targets) : d.label ∈ st.done ↔ d ∈ marked := by
  rw [h.done, mem_map]
  constructor
  · rintro ⟨t, ht, hlabel⟩
    rwa [← graph.eq_of_label (h.mem t ht) hd hlabel]
  · exact fun hd => ⟨d, hd, rfl⟩

namespace DepsQuery

variable {q : DepsQuery} {n fuel level : ℕ} {target : BuildTarget} {st : DepsState}
  {marked : List BuildTarget}

theorem rel_visitProvided
    (hrec : ∀ d ∈ q.graph.targets, ∀ st marked, Follows q.graph st marked →
      Option.Rel (Follows q.graph) (depsFrom q.graph q.options fuel d (level + 1) st)
        (explore (inOrder q.graph) n marked d)) (dep : BuildTarget) (l : BuildLabel)
    (h : Follows q.graph st marked) :
    Option.Rel (Follows q.graph)
      (visitProvided q.graph q.options (depsFrom q.graph q.options fuel) target dep level st l)
      ((q.graph.target l).bind (visit (inOrder q.graph) n marked)) := by
  have hopts : q.options.hidden = true ∧ ∀ t, q.options.shouldInclude t = true :=
    ⟨rfl, fun _ => rfl⟩
  rw [visitProvided]
  cases hd : q.graph.target l with
  | none =>
    -- what is done is in the graph
    have hnew : l ∉ st.done := fun hl => by
      rw [h.done] at hl
      obtain ⟨t, ht, rfl⟩ := mem_map.mp hl
      cases hd.symm.trans (q.graph.target_eq_some.mpr ⟨h.mem t ht, rfl⟩)
    simp [hopts, hnew]
  | some d =>
    obtain ⟨hmem, rfl⟩ := q.graph.target_eq_some.mp hd
    have hdone := h.mem_done hmem
    rw [Option.bind_some, visit]
    by_cases hmarked : d ∈ marked
    · simpa [hopts, hdone.mpr hmarked, hmarked] using Option.Rel.some h
    · have hnew : ¬ d.label ∈ st.done := fun hl => hmarked (hdone.mp hl)
      have hmark (p : Printed) (hp : p.dep = d) :
          Follows q.graph ⟨d.label :: st.done, st.out ++ [p]⟩ (d :: marked) := by
        subst hp
        exact ⟨by simp [h.done], by simp [h.out], forall_mem_cons.mpr ⟨hmem, h.mem⟩⟩
      simpa [hopts, hnew, hmarked] using
        hrec d hmem _ _ (hmark _ (q.options.printed_dep d target level))

/-- `deps` with hidden targets and without filters, when `n` levels are left. -/
theorem depsFrom_rel_explore (hlevel : level + n = q.level) (hfuel : n < fuel)
    (h : Follows q.graph st marked) :
    Option.Rel (Follows q.graph) (depsFrom q.graph q.options fuel target level st)
      (explore (inOrder q.graph) n marked target) := by
  have htarget : q.options.targetLevel = q.level := rfl
  induction n generalizing fuel level target st marked with
  | zero =>
    obtain ⟨fuel, rfl⟩ : ∃ k, fuel = k + 1 := ⟨fuel - 1, by omega⟩
    simpa [depsFrom, htarget, ← hlevel, explore] using Option.Rel.some h
  | succ n ih =>
    obtain ⟨fuel, rfl⟩ : ∃ k, fuel = k + 1 := ⟨fuel - 1, by omega⟩
    have hne : (level : ℤ) ≠ q.options.targetLevel := by omega
    have hgo (marked : List BuildTarget) : explore (inOrder q.graph) (n + 1) marked target =
        (lookups q.graph target).foldlM
          (fun marked o => o.bind (visit (inOrder q.graph) n marked)) marked :=
      foldlM_bind.symm
    rw [depsFrom, if_neg hne, hgo, lookups, foldlM_flatMap]
    refine rel_foldlM (fun l _ st marked h => ?_) h
    cases q.graph.target l with
    | none => exact .none
    | some dep =>
      simp only [Option.bind_eq_bind, Option.bind_some, foldlM_map]
      refine rel_foldlM (fun p _ st marked h => ?_) h
      exact rel_visitProvided (fun d _ st marked h => ih (by omega) (by omega) h) dep p h

/-! ## What is printed -/

variable (q) in
theorem deps_rel_explore :
    Option.Rel (fun out marked => out.map Printed.dep = marked.reverse)
      (deps q.graph q.options (q.level + 1) (q.seeds.map label))
      (q.seeds.foldlM (explore (inOrder q.graph) q.level) []) := by
  have hstart : Follows q.graph {} [] := ⟨rfl, rfl, by simp⟩
  have hrun : Option.Rel (Follows q.graph) (q.seeds.foldlM (fun st t => do
      let target ← q.graph.target t.label
      depsFrom q.graph q.options (q.level + 1) target 0 st) ({} : DepsState))
      (q.seeds.foldlM (explore (inOrder q.graph) q.level) []) := by
    refine rel_foldlM (fun t ht st marked h => ?_) hstart
    simp only [q.graph.target_eq_some.mpr ⟨q.seeds_mem t ht, rfl⟩, Option.bind_eq_bind,
      Option.bind_some]
    exact depsFrom_rel_explore (Nat.zero_add _) (Nat.lt_succ_self _) h
  rw [deps, foldlM_map]
  exact rel_bind_some hrun fun st marked h => h.out

/-- Going through the dependencies of one target after the other. -/
theorem foldlM_explore_succ (hlevel : q.level = n + 1) :
    q.seeds.foldlM (explore (inOrder q.graph) q.level) [] =
      if ∃ s ∈ q.seeds, inOrder q.graph s = none then none
      else go (inOrder q.graph) n [] q.firstDeps := by
  have hbind : q.seeds.foldlM (explore (inOrder q.graph) q.level) [] =
      ((q.seeds.map (inOrder q.graph)).mapM id).bind fun dss =>
        dss.foldlM (go (inOrder q.graph) n) [] := by
    rw [← foldlM_bind, foldlM_map, hlevel]
    rfl
  rw [hbind]
  split_ifs with hnone
  · obtain ⟨s, hs, hnone⟩ := hnone
    cases hdss : (q.seeds.map (inOrder q.graph)).mapM id with
    | none => rfl
    | some dss =>
      have hmem := mem_map_of_mem (f := inOrder q.graph) hs
      rw [← map_id (q.seeds.map (inOrder q.graph)), mapM_eq_some.mp hdss, hnone] at hmem
      simp at hmem
  · have hdss : (q.seeds.map (inOrder q.graph)).mapM id =
        some (q.seeds.map fun s => (inOrder q.graph s).getD []) := by
      rw [mapM_eq_some, map_map, map_map]
      refine map_congr_left fun s hs => ?_
      obtain ⟨ds, hds⟩ := Option.ne_none_iff_exists'.mp fun h => hnone ⟨s, hs, h⟩
      simp [hds]
    rw [hdss, Option.bind_some, firstDeps, go, foldlM_flatMap, foldlM_map]
    rfl

/-- A distance of at least one is that from another target. -/
theorem exists_distance_iff {t : BuildTarget} :
    (∃ s ∈ q.seeds, ∃ n, 1 ≤ n ∧ n ≤ q.level ∧ IsDistance q.graph s n t) ↔ q.LedToByOther t := by
  classical
  constructor
  · rintro ⟨s, hs, n, hpos, hle, hsteps, hmin⟩
    refine ⟨s, hs, ?_, n, hle, hsteps⟩
    rintro rfl
    have := hmin 0 .refl
    omega
  · rintro ⟨s, hs, hne, i, hle, hsteps⟩
    have hex : ∃ n, Steps (DependsOn q.graph) s n t := ⟨i, hsteps⟩
    refine ⟨s, hs, Nat.find hex, ?_, (Nat.find_min' hex hsteps).trans hle, Nat.find_spec hex,
      fun m hm => Nat.find_min' hex hm⟩
    rw [Nat.one_le_iff_ne_zero]
    intro hzero
    have hsteps := Nat.find_spec hex
    rw [hzero] at hsteps
    cases hsteps
    exact hne rfl

theorem LedToByOther.exists_head {t : BuildTarget} (h : q.LedToByOther t) :
    ∃ s ∈ q.seeds, ∃ a, DependsOn q.graph s a ∧ ∃ i, i + 1 ≤ q.level ∧
      Steps (DependsOn q.graph) a i t := by
  obtain ⟨s, hs, hne, i, hi, hsteps⟩ := h
  have hpos : 0 < i := Nat.pos_of_ne_zero fun h => by
    subst h
    cases hsteps
    exact hne rfl
  obtain ⟨a, k, rfl, hedge, hsteps⟩ := hsteps.exists_head hpos
  exact ⟨s, hs, a, hedge, k, hi, hsteps⟩

/-- What the walk comes to is what is led to, if it loses nothing and does not come back. -/
theorem comes_iff_led (hlevel : q.level = n + 1)
    (hthere : ¬ ∃ s ∈ q.seeds, inOrder q.graph s = none)
    (hgo : go (inOrder q.graph) n [] q.firstDeps = some marked) :
    (∀ t, ComesTo (inOrder q.graph) n q.firstDeps t ↔ q.LedToByOther t) ↔
      (∀ t, q.WalkLoses t → ¬ q.LedToByOther t) ∧ q.SeedsLedTo := by
  have hfirst (a : BuildTarget) : a ∈ q.firstDeps ↔ ∃ s ∈ q.seeds, DependsOn q.graph s a := by
    rw [firstDeps, mem_flatMap]
    refine exists_congr fun s => and_congr_right fun hs => ?_
    obtain ⟨ds, hds⟩ := Option.ne_none_iff_exists'.mp fun h => hthere ⟨s, hs, h⟩
    rw [mem_inOrder s ds hds, hds, Option.getD_some]
  simp only [WalkLoses, SeedsLedTo, WalkComes, hlevel, Nat.succ_pos, Nat.add_sub_cancel, true_and]
  constructor
  · exact fun h => ⟨fun t hlost hled => hlost.1 ((h t).mpr hled), fun t _ ht => (h t).mp ht⟩
  · rintro ⟨hloses, hcomes⟩ t
    constructor
    · intro ht
      by_cases hseed : t ∈ q.seeds
      · exact hcomes t hseed ht
      · obtain ⟨i, hi, a, ha, hsteps⟩ := ht.exists_steps mem_inOrder hgo
        obtain ⟨s, hs, hedge⟩ := (hfirst a).mp ha
        exact ⟨s, hs, fun h => hseed (h ▸ hs), i + 1, by omega, .head hedge hsteps⟩
    · intro hled
      obtain ⟨s, hs, a, hedge, i, hi, hsteps⟩ := hled.exists_head
      have ha := (hfirst a).mpr ⟨s, hs, hedge⟩
      rcases comes_or_lost mem_inOrder hgo (by omega) ha hsteps with ht | ht
      · exact ht
      · exact absurd hled (hloses t ht)

theorem printsWithin_iff : q.PrintsWithin ↔
    ¬ q.WalkDies ∧ (∀ t, q.WalkLoses t → ¬ q.LedToByOther t) ∧ q.SeedsLedTo := by
  simp only [PrintsWithin, exists_distance_iff]
  have hrel := q.deps_rel_explore
  generalize deps q.graph q.options (q.level + 1) (q.seeds.map label) = printed at hrel ⊢
  cases hlevel : q.level with
  | zero =>
    have hnil : q.seeds.foldlM (explore (inOrder q.graph) q.level) [] = some [] := by
      rw [hlevel]
      induction q.seeds with
      | nil => rfl
      | cons s seeds ih => exact ih
    rw [hnil] at hrel
    cases hrel with
    | @some out _ hout =>
    have hled (t : BuildTarget) : ¬ q.LedToByOther t := fun h => by
      obtain ⟨-, -, -, -, i, hi, -⟩ := h.exists_head
      omega
    refine iff_of_true ⟨out, rfl, by simp [hout], fun t => ?_⟩ ⟨?_, fun t _ => hled t, ?_⟩
    · simp [hout, hled t]
    · rintro ⟨t, ⟨hpos, -⟩ | ⟨m, hpos, -⟩, -⟩ <;> omega
    · rintro t - ⟨m, hpos, -⟩
      omega
  | succ n =>
    have hdies : q.WalkDies ↔ (∃ s ∈ q.seeds, inOrder q.graph s = none) ∨
        go (inOrder q.graph) n [] q.firstDeps = none := by
      simp only [WalkDies, WalkComes, hlevel, Nat.succ_pos, Nat.add_sub_cancel, true_and,
        go_eq_none_iff, or_and_right, exists_or]
      refine or_congr_right ⟨?_, ?_⟩
      · rintro ⟨t, ⟨m, hm⟩, ht⟩
        exact ⟨m, t, hm, ht⟩
      · rintro ⟨m, t, hm, ht⟩
        exact ⟨t, ⟨m, hm⟩, ht⟩
    rw [foldlM_explore_succ hlevel] at hrel
    split_ifs at hrel with hnone
    · cases hrel
      exact iff_of_false (by simp) fun h => h.1 (hdies.mpr (.inl hnone))
    · cases hgo : go (inOrder q.graph) n [] q.firstDeps with
      | none =>
        rw [hgo] at hrel
        cases hrel
        exact iff_of_false (by simp) fun h => h.1 (hdies.mpr (.inr hgo))
      | some marked =>
        rw [hgo] at hrel
        cases hrel with
        | @some out _ hout =>
        have hmem (t : BuildTarget) : t ∈ out.map Printed.dep ↔
            ComesTo (inOrder q.graph) n q.firstDeps t := by
          rw [hout, mem_reverse, mem_marked_iff hgo]
        have hnodup : (out.map Printed.dep).Nodup := by
          rw [hout, nodup_reverse]
          exact (marks_of_go hgo).nodup nodup_nil
        simp only [← comes_iff_led hlevel hnone hgo, hdies, hnone, hgo, reduceCtorEq, or_self,
          not_false_eq_true, true_and, Option.some.injEq, exists_eq_left', hnodup, hmem]

end DepsQuery

def sharedQuery : DepsQuery where
  graph := { targets := [ruleOf "a" ["b", "c"], ruleOf "b" ["c"], ruleOf "c" ["d"], ruleOf "d" []] }
  seeds := [ruleOf "a" ["b", "c"]]
  level := 2
  formatdot := false
  seeds_mem := by decide

end Please.Query
