import Please.Core.Package
import Please.Lib.DepthBounded
import Please.Lib.Utf8

/-!
# The labels of a target and of what it depends on

Model of `getLabelsInternal` (`parse/asp/builtins.go`), which the builtin `get_labels` calls. A
result `none` stands for `log.Fatalf`, or for calls that are nested too deep for the bound of the
model.

With a bound on the depth a target is looked at once, at the depth at which it is met first. If no
depth is left there, its dependencies are not looked at, also where a shorter way would allow it.

* `getLabelsInternal_iff`: when exactly the labels of the targets within the depth are returned.
-/

namespace Please.Asp

open Please.Core
open Please.Fs (hasPrefix)
open Please.Lib.Bfs (Steps steps_two_iff)
open Please.Lib.DepthBounded
open Please.Lib.Except (rel_foldlM rel_bind_some)
open Please.Lib.Utf8 (trimSpace)
open List

/-! ## The model -/

/-- What the labels of one target contribute (lines 1226–1230). -/
def labelsWith (start : String) (t : BuildTarget) : List String :=
  (t.labels.filter (hasPrefix · start)).map fun label =>
    String.ofList (trimSpace (label.toList.drop start.toList.length))

/-- The keys of `labels`, and of `done`. -/
structure LabelsState where
  labels : List String := []
  done : List BuildTarget := []

section model

variable (graph : BuildGraph) (target : BuildTarget) (start : String) (all : Bool)

/-- `getLabels` (lines 1225–1247), with calls nested at most `fuel` deep. -/
def getLabels : ℕ → BuildTarget → ℤ → LabelsState → Option LabelsState
  | 0, _, _, _ => none
  | fuel + 1, t, depth, st =>
    let st : LabelsState :=
      ⟨(labelsWith start t).foldl (fun labels label => labels.insert label) st.labels, t :: st.done⟩
    if depth = 0 then some st
    else if !t.outputIsComplete || t = target || all then
      if graph.unresolved t ≠ [] then none
      else (graph.dependencies t).foldlM (fun st dep =>
        if dep ∈ st.done then some st else getLabels fuel dep (max (depth - 1) (-1)) st) st
    else some st

/-- `getLabelsInternal` (lines 1215–1256); `state` is `BuildTarget.State`. -/
def getLabelsInternal (fuel : ℕ) (state : BuildTarget → ℕ) (minState : ℕ) (maxDepth : ℤ) :
    Option (List String) :=
  if state target < minState then none
  else if all ∧ maxDepth ≠ -1 then none
  else do
    let st ← getLabels graph target start all fuel target maxDepth {}
    some (st.labels.insertionSort (· ≤ ·))

end model

/-! ## Specification -/

/-- A call with a bound on the depth, for a target that has the required state: the arguments of
`get_labels`, and the states. -/
structure LabelsQuery where
  graph : BuildGraph
  target : BuildTarget
  start : String
  depth : ℕ
  state : BuildTarget → ℕ
  minState : ℕ
  ready : minState ≤ state target

namespace LabelsQuery

variable (q : LabelsQuery)

/-- The walk goes from `t` to its dependency `d`. -/
def Walked (t d : BuildTarget) : Prop :=
  (t.outputIsComplete = false ∨ t = q.target) ∧ d ∈ q.graph.dependencies t

/-- A label of a target at a distance within the depth. -/
def IsLabelWithin (label : String) : Prop :=
  ∃ t, ∃ i ≤ q.depth, Steps q.Walked q.target i t ∧ label ∈ labelsWith q.start t

/-- What the walk goes on to, if it is all there. -/
def walkedFrom (t : BuildTarget) : Option (List BuildTarget) :=
  if !t.outputIsComplete || t = q.target then
    if q.graph.unresolved t ≠ [] then none else some (q.graph.dependencies t)
  else some []

/-- The walk comes to a target. -/
def WalkComesTo (t : BuildTarget) : Prop := ComesTo q.walkedFrom q.depth [q.target] t

/-- The walk comes to a target with some depth left whose dependencies are not in the graph. -/
def WalkDies : Prop :=
  ∃ n t, Comes q.walkedFrom q.depth [] [q.target] (n + 1) t ∧ q.walkedFrom t = none

/-- The walk returns from a target that it first comes to with no depth left, although a shorter way
leads there. -/
def WalkCuts (t : BuildTarget) : Prop := Cut q.walkedFrom q.Walked q.depth [q.target] t

/-- The walk does not come to a target within the depth, because it was cut off on the way. -/
def WalkLoses (t : BuildTarget) : Prop := Lost q.walkedFrom q.Walked q.depth [q.target] t

/-- The labels of the targets within the depth are returned, in order and once each. Calls are
nested one deeper than the depth. -/
def ReturnsWithin : Prop :=
  ∃ labels, getLabelsInternal q.graph q.target q.start false (q.depth + 1) q.state q.minState
      q.depth = some labels ∧
    labels.Pairwise (· ≤ ·) ∧ labels.Nodup ∧ ∀ label, label ∈ labels ↔ q.IsLabelWithin label

/-! ## The marking -/

variable {q}

theorem walked_iff_mem (t : BuildTarget) (ds : List BuildTarget) (h : q.walkedFrom t = some ds)
    (d : BuildTarget) : q.Walked t d ↔ d ∈ ds := by
  rw [walkedFrom] at h
  rw [Walked]
  split_ifs at h with hgo hresolved <;>
  · obtain rfl := Option.some.inj h
    simp at hgo
    simp [hgo]

variable (q) in
/-- The state says what is marked, and has the labels of that. -/
structure Collects (st : LabelsState) (marked : List BuildTarget) : Prop where
  done : st.done = marked
  nodup : st.labels.Nodup
  mem_labels : ∀ label, label ∈ st.labels ↔ ∃ t ∈ marked, label ∈ labelsWith q.start t

variable {st : LabelsState} {marked : List BuildTarget}

theorem Collects.mark (h : q.Collects st marked) (t : BuildTarget) :
    q.Collects ⟨(labelsWith q.start t).foldl (fun labels label => labels.insert label) st.labels,
      t :: st.done⟩ (t :: marked) := by
  refine ⟨by rw [h.done], foldlRecOn _ _ h.nodup fun _ h _ _ => h.insert, fun label => ?_⟩
  rw [mem_foldl_insert, h.mem_labels, or_comm]
  simp

/-- `getLabels` at a depth, for a target that is not done. -/
theorem getLabels_rel_explore {n fuel : ℕ} (hfuel : n < fuel) (t : BuildTarget)
    (h : q.Collects st marked) :
    Option.Rel q.Collects (getLabels q.graph q.target q.start false fuel t n st)
      (explore q.walkedFrom n (t :: marked) t) := by
  induction n generalizing fuel t st marked with
  | zero =>
    obtain ⟨fuel, rfl⟩ : ∃ k, fuel = k + 1 := ⟨fuel - 1, by omega⟩
    simpa [getLabels, explore] using Option.Rel.some (h.mark t)
  | succ n ih =>
    obtain ⟨fuel, rfl⟩ : ∃ k, fuel = k + 1 := ⟨fuel - 1, by omega⟩
    have hne : ((n + 1 : ℕ) : ℤ) ≠ 0 := by omega
    have hdepth : max (((n + 1 : ℕ) : ℤ) - 1) (-1) = n := by omega
    simp only [getLabels, if_neg hne, hdepth, explore, walkedFrom, Bool.or_false]
    split
    case isTrue hgo =>
      split
      · exact .none
      · refine rel_foldlM (fun dep hdep st marked h => ?_) (h.mark t)
        by_cases hmem : dep ∈ marked
        · simpa [h.done, hmem] using Option.Rel.some h
        · simpa [h.done, hmem] using ih (show n < fuel by omega) dep h
    case isFalse => exact .some (h.mark t)

/-! ## What is returned -/

variable (q) in
theorem getLabelsInternal_rel_go :
    Option.Rel (fun labels marked => labels.Pairwise (· ≤ ·) ∧ labels.Nodup ∧
        ∀ label, label ∈ labels ↔ ∃ t ∈ marked, label ∈ labelsWith q.start t)
      (getLabelsInternal q.graph q.target q.start false (q.depth + 1) q.state q.minState q.depth)
      (go q.walkedFrom q.depth [] [q.target]) := by
  have hempty : q.Collects {} [] := ⟨rfl, nodup_nil, by simp⟩
  have hrun := getLabels_rel_explore (Nat.lt_succ_self q.depth) q.target hempty
  have hgo : go q.walkedFrom q.depth [] [q.target] =
      explore q.walkedFrom q.depth [q.target] q.target := by
    simp [visit]
  rw [getLabelsInternal, if_neg (not_lt.mpr q.ready), if_neg (by simp), hgo]
  refine rel_bind_some hrun fun st marked h => ⟨pairwise_insertionSort _ _, ?_, fun label => ?_⟩
  · exact (perm_insertionSort _ _).nodup_iff.mpr h.nodup
  · rw [mem_insertionSort, h.mem_labels]

theorem returnsWithin_iff : q.ReturnsWithin ↔
    ¬ q.WalkDies ∧ ∀ t, q.WalkLoses t → ∀ label ∈ labelsWith q.start t,
      ∃ t', q.WalkComesTo t' ∧ label ∈ labelsWith q.start t' := by
  have hdies : q.WalkDies ↔ go q.walkedFrom q.depth [] [q.target] = none := go_eq_none_iff.symm
  have hrel := q.getLabelsInternal_rel_go
  rw [ReturnsWithin, hdies]
  generalize getLabelsInternal q.graph q.target q.start false (q.depth + 1) q.state q.minState
    q.depth = returned at hrel ⊢
  cases hmarked : go q.walkedFrom q.depth [] [q.target] with
  | none =>
    rw [hmarked] at hrel
    cases hrel
    simp
  | some marked =>
    rw [hmarked] at hrel
    cases hrel with
    | @some labels _ h =>
    have hmem (t : BuildTarget) : t ∈ marked ↔ q.WalkComesTo t := mem_marked_iff hmarked
    simp only [Option.some.injEq, exists_eq_left', h, hmem, true_and, reduceCtorEq,
      not_false_eq_true]
    constructor
    · intro h t hlost label hlabel
      obtain ⟨i, hi, s, hs, hsteps⟩ := hlost.exists_steps
      obtain rfl := mem_singleton.mp hs
      exact (h label).mpr ⟨t, i, hi, hsteps, hlabel⟩
    · intro h label
      constructor
      · rintro ⟨t, ht, hlabel⟩
        obtain ⟨i, hi, s, hs, hsteps⟩ := ht.exists_steps walked_iff_mem hmarked
        obtain rfl := mem_singleton.mp hs
        exact ⟨t, i, hi, hsteps, hlabel⟩
      · rintro ⟨t, i, hi, hsteps, hlabel⟩
        rcases comes_or_lost walked_iff_mem hmarked hi (mem_singleton.mpr rfl) hsteps with ht | ht
        · exact ⟨t, ht, hlabel⟩
        · exact h t ht label hlabel

end LabelsQuery

/-- `d` with the labels that are asked for. -/
def labelled : BuildTarget := { ruleOf "d" [] with labels := ["cc:-lm ", "test"] }

def sharedLabels : LabelsQuery where
  graph := { targets := [ruleOf "a" ["b", "c"], ruleOf "b" ["c"], ruleOf "c" ["d"], labelled] }
  target := ruleOf "a" ["b", "c"]
  start := "cc:"
  depth := 2
  state _ := 5
  minState := 5
  ready := le_rfl

end Please.Asp
