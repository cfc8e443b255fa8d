import Please.Core.Package
import Please.Lib.Bfs

/-!
# Reverse dependencies

Model of `FindRevdeps` (`query/reverse_deps.go`): a breadth-first search over the map of immediate
reverse dependencies. A result `none` stands for a crash, or for a search that has not ended.

The map can hold nil: a dependency that is not in the graph gets the missing target, not the one
that declares it, as a reverse dependency. The search only looks up labels of targets that are in
the graph, so it does not meet it.

Specification: `RevDep` is an edge from a target to one that depends on it.

* `mem_findRevdeps`: with hidden targets counted, and without subincludes, exactly the targets at a
  distance within the bound are found.
-/

namespace Please.Query

open Please.Core BuildTarget
open Please.Lib.Bfs List Option

/-- `BuildLabel.IsHidden` (build_label.go, lines 420–422). -/
def isHidden (label : BuildLabel) : Bool := label.name.toList.head? = some '_'

variable (graph : PackageGraph)

/-- `BuildTarget.Parent` (build_target.go, lines 1963–1969). -/
def parent (target : BuildTarget) : Option BuildTarget :=
  if target.label.parent = target.label then none else graph.target target.label.parent

/-- `BuildGraph.Package` (graph.go, lines 75–78). -/
def package (name subrepo : String) : Option Package :=
  graph.packages.find? fun pkg => pkg.name = name ∧ pkg.subrepoName = subrepo

/-! ## The search -/

/-- The arguments of `newRevdeps` beside the graph. -/
structure Revdeps where
  hidden : Bool
  followSubincludes : Bool
  includeSubrepos : Bool
  maxDepth : ℤ

/-- What one target contributes to the entry of a label in the map (lines 114–128). -/
def revdepsOf (includeSubrepos : Bool) (label : BuildLabel) (t : BuildTarget) :
    List (Option BuildTarget) :=
  (t.declaredDependencies.flatMap fun d =>
    match graph.target d with
    | none => if d = label then [none] else []
    | some t2 => (t2.provideFor t).flatMap fun p => if p = label then [some t] else []) ++
  match graph.subrepoTarget t with
  | none => []
  | some s => if includeSubrepos ∧ s.label = label then [some t] else []

/-- The entry of a label in the map of `buildRevdeps` (lines 110–131). -/
def buildRevdeps (includeSubrepos : Bool) (label : BuildLabel) : List (Option BuildTarget) :=
  graph.allTargets.flatMap (revdepsOf graph includeSubrepos label)

/-- The targets of the packages that subinclude a label (lines 88–95, 176–180). -/
def subincludes (label : BuildLabel) : List BuildTarget :=
  graph.packages.flatMap fun pkg =>
    (pkg.subincludes.filter (· = label)).flatMap fun _ => pkg.targets

/-- `isSameTarget` (lines 157–170). -/
def isSameTarget (lhs rhs : BuildTarget) : Bool :=
  if lhs = rhs then true
  else
    let l := if isHidden lhs.label then parent graph lhs else some lhs
    let r := if isHidden rhs.label then parent graph rhs else some rhs
    l = r && l.isSome

variable (r : Revdeps)

/-- The condition in line 190. -/
def Revdeps.within (depth : ℕ) : Bool := depth < r.maxDepth || r.maxDepth = -1

/-- The body of the loop over the reverse dependencies of a target (lines 182–206). -/
def findRevdep (next : BuildTarget × ℕ) (s : Search BuildTarget BuildLabel)
    (t? : Option BuildTarget) : Option (Search BuildTarget BuildLabel) := do
  let depth ←
    if r.hidden then some (next.2 + 1)
    else t?.map fun t => if isSameTarget graph next.1 t then next.2 else next.2 + 1
  if r.within next.2 then
    let t ← t?
    let found :=
      if 0 < depth then
        if r.hidden || !isHidden t.label then s.found.insert t
        else match parent graph t with
          | none => s.found
          | some p => s.found.insert p
      else s.found
    some (push label { s with found } (t, depth))
  else some s

/-- `revdeps.findRevdeps` (lines 172–209). -/
def Revdeps.findRevdeps : ℕ → Search BuildTarget BuildLabel → Option (List BuildTarget)
  | _, ⟨[], _, found⟩ => some found
  | 0, _ => none
  | fuel + 1, ⟨next :: items, done, found⟩ => do
    let ts := buildRevdeps graph r.includeSubrepos next.1.label ++
      if r.followSubincludes then (subincludes graph next.1.label).map some else []
    let s ← ts.foldlM (findRevdep graph r next) ⟨items, done, found⟩
    Revdeps.findRevdeps fuel s

/-- The body of the loop of `FindRevdeps` over the labels (lines 137–150). -/
def pushLabel (s : Search BuildTarget BuildLabel) (label : BuildLabel) :
    Option (Search BuildTarget BuildLabel) := do
  let target ← graph.target label
  let s := push BuildTarget.label s (target, 0)
  if !r.hidden && !isHidden label then
    let pkg ← package graph label.packageName label.subrepo
    some ((pkg.targets.filter fun child => parent graph child = some target).foldl
      (fun s child => push BuildTarget.label s (child, 0)) s)
  else some s

/-- `FindRevdeps` (lines 134–155). Each target is in the open set once. -/
def findRevdeps (labels : List BuildLabel) : Option (List BuildTarget) := do
  let s ← labels.foldlM (pushLabel graph r) {}
  Revdeps.findRevdeps graph r graph.targets.length s

/-! ## What is found -/

/-- `t` depends on `d`: through a dependency that it declares, or, if asked for, as a target of the
subrepo that `d` fetches. -/
def RevDep (includeSubrepos : Bool) (d t : BuildTarget) : Prop :=
  t ∈ graph.targets ∧
    ((∃ l ∈ t.declaredDependencies, ∃ t2, graph.target l = some t2 ∧ d.label ∈ t2.provideFor t) ∨
      (includeSubrepos = true ∧ graph.subrepoTarget t = some d))

/-- The targets in the entry of a label. -/
def successors (includeSubrepos : Bool) (label : BuildLabel) : List BuildTarget :=
  (buildRevdeps graph includeSubrepos label).filterMap id

variable {graph} {includeSubrepos : Bool}

theorem mem_revdepsOf {label : BuildLabel} {t : BuildTarget} {o : Option BuildTarget} :
    o ∈ revdepsOf graph includeSubrepos label t ↔
      (o = none ∧ label ∈ t.declaredDependencies ∧ graph.target label = none) ∨
      (o = some t ∧ ((∃ l ∈ t.declaredDependencies, ∃ t2, graph.target l = some t2 ∧
          label ∈ t2.provideFor t) ∨
        (includeSubrepos = true ∧ ∃ s, graph.subrepoTarget t = some s ∧ s.label = label))) := by
  rw [revdepsOf, mem_append, mem_flatMap]
  constructor
  · rintro (⟨d, hd, ho⟩ | ho)
    · split at ho
      case h_1 hnone =>
        split at ho
        case isTrue heq => exact .inl ⟨mem_singleton.mp ho, heq ▸ hd, heq ▸ hnone⟩
        case isFalse => cases ho
      case h_2 t2 ht2 =>
        obtain ⟨p, hp, ho⟩ := mem_flatMap.mp ho
        split at ho
        case isTrue heq => exact .inr ⟨mem_singleton.mp ho, .inl ⟨d, hd, t2, ht2, heq ▸ hp⟩⟩
        case isFalse => cases ho
    · split at ho
      case h_1 => cases ho
      case h_2 s hs =>
        split at ho
        case isTrue heq => exact .inr ⟨mem_singleton.mp ho, .inr ⟨heq.1, s, hs, heq.2⟩⟩
        case isFalse => cases ho
  · rintro (⟨rfl, hd, hnone⟩ | ⟨rfl, ⟨d, hd, t2, ht2, hp⟩ | ⟨hinc, s, hs, rfl⟩⟩)
    · exact .inl ⟨label, hd, by simp [hnone]⟩
    · exact .inl ⟨d, hd, by simpa [ht2] using hp⟩
    · exact .inr (by simp [hs, hinc])

/-- In the entry of a target that is in the graph there is no nil. -/
theorem buildRevdeps_eq {d : BuildTarget} (hd : d ∈ graph.targets) :
    buildRevdeps graph includeSubrepos d.label =
      (successors graph includeSubrepos d.label).map some := by
  have hsome : graph.target d.label = some d := graph.target_eq_some.mpr ⟨hd, rfl⟩
  have hmem : ∀ o ∈ buildRevdeps graph includeSubrepos d.label, o.isSome := by
    intro o ho
    obtain ⟨t, -, ho⟩ := mem_flatMap.mp ho
    rcases mem_revdepsOf.mp ho with ⟨-, -, hnone⟩ | ⟨rfl, -⟩
    · cases hsome.symm.trans hnone
    · rfl
  rw [successors]
  generalize buildRevdeps graph includeSubrepos d.label = os at hmem
  induction os with
  | nil => rfl
  | cons o os ih =>
    obtain ⟨t, rfl⟩ := isSome_iff_exists.mp (hmem o mem_cons_self)
    have htail := ih (forall_mem_cons.mp hmem).2
    exact congrArg (some t :: ·) htail

theorem mem_successors {d t : BuildTarget} (hd : d ∈ graph.targets) :
    t ∈ successors graph includeSubrepos d.label ↔ RevDep graph includeSubrepos d t := by
  have hsome : graph.target d.label = some d := graph.target_eq_some.mpr ⟨hd, rfl⟩
  simp only [successors, buildRevdeps, BuildGraph.allTargets, mem_filterMap, mem_flatMap,
    mem_insertionSort, id, mem_revdepsOf, RevDep]
  constructor
  · rintro ⟨o, ⟨t', ht', ho⟩, rfl⟩
    rcases ho with ⟨h, -⟩ | ⟨h, h'⟩
    · cases h
    · obtain rfl := some.inj h
      refine ⟨ht', h'.imp_right ?_⟩
      rintro ⟨hinc, s, hs, hlabel⟩
      have hs' : graph.target d.label = some s :=
        graph.target_eq_some.mpr ⟨graph.subrepo_mem t ht' s hs, hlabel⟩
      rw [hs, ← hsome, hs']
      exact ⟨hinc, rfl⟩
  · rintro ⟨ht, h⟩
    refine ⟨some t, ⟨t, ht, .inr ⟨rfl, h.imp_right ?_⟩⟩, rfl⟩
    rintro ⟨hinc, hs⟩
    exact ⟨hinc, d, hs, rfl⟩

theorem successors_mem {label : BuildLabel} {t : BuildTarget}
    (ht : t ∈ successors graph includeSubrepos label) : t ∈ graph.targets := by
  obtain ⟨o, ho, rfl⟩ := mem_filterMap.mp ht
  obtain ⟨t', ht', ho⟩ := mem_flatMap.mp ho
  rcases mem_revdepsOf.mp ho with ⟨h, -⟩ | ⟨h, -⟩
  · cases h
  · rw [some.inj h]
    simpa [BuildGraph.allTargets] using ht'

theorem revdeps_eq_successors {r : Revdeps} {x : BuildTarget} (hr : r.followSubincludes = false)
    (hx : x ∈ graph.targets) :
    buildRevdeps graph r.includeSubrepos x.label ++
        (if r.followSubincludes then (subincludes graph x.label).map some else []) =
      (successors graph r.includeSubrepos x.label).map some := by
  rw [← buildRevdeps_eq hx]
  simp [hr]

/-! With hidden targets counted and without subincludes this is a search as in `Please.Lib.Bfs`. -/

section hidden

variable (maxDepth : ℤ)

variable (includeSubrepos) in
/-- The search of `changedTargets`. -/
def allRevdeps : Revdeps := ⟨true, false, includeSubrepos, maxDepth⟩

variable {maxDepth}

@[simp]
theorem allRevdeps_hidden : (allRevdeps includeSubrepos maxDepth).hidden = true := rfl

@[simp]
theorem allRevdeps_maxDepth : (allRevdeps includeSubrepos maxDepth).maxDepth = maxDepth := rfl

variable {s : Search BuildTarget BuildLabel}

theorem foldlM_findRevdep {next : BuildTarget × ℕ} {ts : List BuildTarget} :
    (ts.map some).foldlM (findRevdep graph (allRevdeps includeSubrepos maxDepth) next) s =
      some (if (allRevdeps includeSubrepos maxDepth).within next.2 then
        ts.foldl (visit label next.2) s else s) := by
  induction ts generalizing s with
  | nil => simp
  | cons t ts ih =>
    have hstep : findRevdep graph (allRevdeps includeSubrepos maxDepth) next s (some t) =
        some (if (allRevdeps includeSubrepos maxDepth).within next.2 then
          visit label next.2 s t else s) := by
      cases hw : (allRevdeps includeSubrepos maxDepth).within next.2 <;>
        simp [findRevdep, hw, visit]
    rw [map_cons, foldlM_cons, hstep]
    simp only [bind_eq_bind, bind_some, ih]
    split <;> rfl

theorem findRevdeps_eq_run {fuel : ℕ}
    (hs : ∀ n ∈ s.items, n.1 ∈ graph.targets) :
    Revdeps.findRevdeps graph (allRevdeps includeSubrepos maxDepth) fuel s =
      (run label (fun d => successors graph includeSubrepos d.label)
        (allRevdeps includeSubrepos maxDepth).within fuel s).map (·.found) := by
  induction fuel generalizing s with
  | zero => obtain ⟨_ | ⟨next, items⟩, done, found⟩ := s <;> rfl
  | succ _ ih =>
    obtain ⟨_ | ⟨⟨x, d⟩, items⟩, done, found⟩ := s
    · rfl
    · have hx : x ∈ graph.targets := hs (x, d) mem_cons_self
      have hnext : ∀ n ∈ (advance label
          (fun d => successors graph includeSubrepos d.label)
            (allRevdeps includeSubrepos maxDepth).within x d ⟨items, done, found⟩).items,
          n.1 ∈ graph.targets := by
        intro n hn
        rcases mem_of_mem_items_advance hn with hn | hn
        · exact hs n (mem_cons_of_mem _ hn)
        · exact successors_mem hn
      rw [Revdeps.findRevdeps, revdeps_eq_successors rfl hx, foldlM_findRevdep]
      exact ih hnext

theorem foldlM_pushLabel {seeds : List BuildTarget} (hseeds : ∀ t ∈ seeds, t ∈ graph.targets) :
    (seeds.map label).foldlM (pushLabel graph (allRevdeps includeSubrepos maxDepth)) {} =
      some (start label seeds) := by
  rw [start]
  generalize ({} : Search BuildTarget BuildLabel) = s
  induction seeds generalizing s with
  | nil => rfl
  | cons t _ ih =>
    have ht : graph.target t.label = some t :=
      graph.target_eq_some.mpr ⟨hseeds t mem_cons_self, rfl⟩
    have hstep : pushLabel graph (allRevdeps includeSubrepos maxDepth) s t.label =
        some (push BuildTarget.label s (t, 0)) := by
      simp [pushLabel, ht]
    rw [map_cons, foldlM_cons, hstep]
    exact ih (forall_mem_cons.mp hseeds).2 _

theorem steps_mem {a t : BuildTarget} (ha : a ∈ graph.targets) {n : ℕ}
    (h : Steps (RevDep graph includeSubrepos) a n t) : t ∈ graph.targets := by
  cases h with
  | refl => exact ha
  | tail _ hedge => exact hedge.1

theorem steps_successors_iff {a t : BuildTarget} (ha : a ∈ graph.targets) {n : ℕ} :
    Steps (Edge fun d => successors graph includeSubrepos d.label) a n t ↔
      Steps (RevDep graph includeSubrepos) a n t := by
  constructor
  · intro h
    induction h with
    | refl => exact .refl
    | tail _ hedge ih => exact ih.tail ((mem_successors (steps_mem ha ih)).mp hedge)
  · intro h
    induction h with
    | refl => exact .refl
    | tail hwalk hedge ih => exact ih.tail ((mem_successors (steps_mem ha hwalk)).mpr hedge)

theorem within_iff {r : Revdeps} {n : ℕ} :
    r.within n = true ↔ n < r.maxDepth ∨ r.maxDepth = -1 := by
  simp [Revdeps.within]

/-- The search ends, and finds what is at a distance within the bound, once each. -/
theorem mem_findRevdeps {seeds : List BuildTarget} (hseeds : ∀ t ∈ seeds, t ∈ graph.targets) :
    ∃ found, findRevdeps graph (allRevdeps includeSubrepos maxDepth) (seeds.map label) =
        some found ∧ found.Nodup ∧
      ∀ t, t ∈ found ↔ ∃ a ∈ seeds, ∃ n, (allRevdeps includeSubrepos maxDepth).within n = true ∧
        Steps (RevDep graph includeSubrepos) a (n + 1) t := by
  obtain ⟨s, hs⟩ : ∃ s, run label (fun d => successors graph includeSubrepos d.label)
      (allRevdeps includeSubrepos maxDepth).within graph.targets.length
      (start label seeds) = some s := by
    refine exists_run (u := (graph.targets.map label).toFinset) (fun a ha => ?_)
      (fun d _ t ht => ?_) ((toFinset_card_le _).trans (by simp))
    · exact mem_toFinset.mpr (mem_map_of_mem (hseeds a ha))
    · exact mem_toFinset.mpr (mem_map_of_mem (successors_mem ht))
  have hitems : ∀ n ∈ (start label seeds).items, n.1 ∈ graph.targets :=
    fun n hn => hseeds n.1 (mem_of_mem_items_start hn)
  obtain ⟨past, htrace, -⟩ := exists_trace hs
  refine ⟨s.found, ?_, nodup_found hs, fun t => (htrace.mem_found_iff
    (fun d d' hlabel => congrArg _ hlabel) fun m n h hn => by
      rw [within_iff] at hn ⊢; omega).trans ?_⟩
  · rw [findRevdeps, foldlM_pushLabel hseeds]
    simp only [bind_eq_bind, bind_some]
    rw [findRevdeps_eq_run hitems, hs, map_some]
  · refine exists_congr fun a => and_congr_right fun ha => exists_congr fun n => ?_
    simp only [steps_successors_iff (hseeds a ha)]
    constructor
    · rintro ⟨d, hwalk, hn, ht⟩
      exact ⟨hn, hwalk.tail ((mem_successors (steps_mem (hseeds a ha) hwalk)).mp ht)⟩
    · rintro ⟨hn, hwalk⟩
      cases hwalk with
      | tail hwalk hedge =>
        exact ⟨_, hwalk, hn, (mem_successors (steps_mem (hseeds a ha) hwalk)).mpr hedge⟩

end hidden

end Please.Query
