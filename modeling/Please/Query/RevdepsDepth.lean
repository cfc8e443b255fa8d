import Please.Query.ReverseDeps

/-!
# Reverse dependencies up to a depth

`FindRevdeps` (`query/reverse_deps.go`) without hidden targets counted and without subincludes. An
edge to a target of the same rule costs nothing, any other edge costs one; a hidden target stands
for its parent. The queue is first in, first out, and a target keeps the depth of its first push,
which need not be that of the cheapest walk to it.

Specification: `Walk` counts the cost of a walk; `IsRevdep` is what is to be found.

* `findRevdeps_right_iff`: exactly the targets within the limit are found iff none is lost.
-/

namespace Please.Query

open Please.Core BuildTarget
open Please.Lib.Bfs List

/-! ## Specification -/

/-- The targets of the package that the label of a target names. -/
def packageTargets (graph : PackageGraph) (t : BuildTarget) : List BuildTarget :=
  (package graph t.label.packageName t.label.subrepo).elim [] (·.targets)

/-- A graph, whose targets are in the packages that their labels name, the targets to start from,
and the limit. -/
structure DepthQuery where
  graph : PackageGraph
  includeSubrepos : Bool
  seeds : List BuildTarget
  limit : ℕ
  listed : ∀ t ∈ graph.targets, t ∈ packageTargets graph t
  seeds_mem : ∀ t ∈ seeds, t ∈ graph.targets

namespace DepthQuery

variable (q : DepthQuery)

/-- The search for `plz query revdeps` without subincludes. -/
def revdeps : Revdeps := ⟨false, false, q.includeSubrepos, q.limit⟩

/-- `t` depends on `d`. -/
abbrev Edge (d t : BuildTarget) : Prop := RevDep q.graph q.includeSubrepos d t

/-- What a target is shown as: a hidden target as its parent, if there is one. -/
def shown (t : BuildTarget) : Option BuildTarget :=
  if isHidden t.label then parent q.graph t else some t

/-- The cost of an edge. -/
def cost (d t : BuildTarget) : ℕ := if isSameTarget q.graph d t then 0 else 1

/-- There is a walk along reverse dependencies with this cost. -/
inductive Walk (a : BuildTarget) : ℕ → BuildTarget → Prop
  | refl : Walk a 0 a
  | tail {c : ℕ} {d t : BuildTarget} : Walk a c d → q.Edge d t → Walk a (c + q.cost d t) t

/-- A target to start from, or a child of one. -/
def IsStart (a : BuildTarget) : Prop :=
  a ∈ q.graph.targets ∧ (a ∈ q.seeds ∨ ∃ t ∈ q.seeds, parent q.graph a = some t)

/-- A walk from a target to start from, or from a child of one. -/
def WalkFrom (c : ℕ) (t : BuildTarget) : Prop := ∃ a, q.IsStart a ∧ q.Walk a c t

/-- `o` is what some target is shown as that a walk of cost at least one and at most the limit leads
to. -/
def IsRevdep (o : BuildTarget) : Prop :=
  ∃ c t, q.WalkFrom c t ∧ 1 ≤ c ∧ c ≤ q.limit ∧ q.shown t = some o

/-- The search takes a target off the queue, at a depth. -/
inductive Takes : Search BuildTarget BuildLabel → BuildTarget × ℕ → Prop
  | head {n : BuildTarget × ℕ} {items : List (BuildTarget × ℕ)} {done : List BuildLabel}
      {found : List BuildTarget} : Takes ⟨n :: items, done, found⟩ n
  | step {next n : BuildTarget × ℕ} {s : Search BuildTarget BuildLabel}
      {items : List (BuildTarget × ℕ)} {done : List BuildLabel} {found : List BuildTarget} :
      (buildRevdeps q.graph q.revdeps.includeSubrepos next.1.label).foldlM
        (findRevdep q.graph q.revdeps next) ⟨items, done, found⟩ = some s →
      Takes s n → Takes ⟨next :: items, done, found⟩ n

/-- The search from the targets to start from takes a target off the queue, at a depth. -/
def Dequeues (x : BuildTarget) (d : ℕ) : Prop :=
  ∃ s, (q.seeds.map label).foldlM (pushLabel q.graph q.revdeps) {} = some s ∧ q.Takes s (x, d)

/-- The search records what an edge leads to from a target that it goes on from. -/
def Records (o : BuildTarget) : Prop :=
  ∃ x d v, q.Dequeues x d ∧ d < q.limit ∧ q.Edge x v ∧ 0 < d + q.cost x v ∧ q.shown v = some o

/-- The search does not go on from `b`, which was first put into the queue at too great a depth,
although a walk of cost `c` below the limit leads there. -/
def Cuts (c : ℕ) (b : BuildTarget) : Prop :=
  (∃ d, q.limit ≤ d ∧ q.Dequeues b d) ∧ c < q.limit ∧ q.WalkFrom c b

/-- The search does not record `o`, which is within the limit by way of a target that it does not go
on from. -/
def Loses (o : BuildTarget) : Prop :=
  ¬ q.Records o ∧ ∃ b c, q.Cuts c b ∧
    ∃ e t, q.Walk b e t ∧ 1 ≤ c + e ∧ c + e ≤ q.limit ∧ q.shown t = some o

/-- The search ends and finds exactly what is within the limit. -/
def FindsWithin : Prop :=
  ∃ found, findRevdeps q.graph q.revdeps (q.seeds.map label) = some found ∧
    ∀ o, o ∈ found ↔ q.IsRevdep o

/-! ## Rules -/

theorem cost_le_one (d t : BuildTarget) : q.cost d t ≤ 1 := by
  rw [cost]
  split <;> omega

variable {q} {a t x : BuildTarget} {c : ℕ}

theorem shown_eq_of_cost {d : BuildTarget} (h : q.cost d t = 0) : q.shown d = q.shown t := by
  have hsame : isSameTarget q.graph d t = true := by
    rw [cost] at h
    split at h
    · assumption
    · cases h
  rw [isSameTarget] at hsame
  split at hsame
  case isTrue heq => rw [heq]
  case isFalse =>
    simp only [Bool.and_eq_true, decide_eq_true_eq] at hsame
    exact hsame.1

/-- The name of a parent does not begin with an underscore. -/
theorem isHidden_of_parent {p : BuildTarget} (h : parent q.graph t = some p) :
    isHidden p.label = false := by
  have hne : t.label.parent ≠ t.label := by
    intro heq
    rw [parent, if_pos heq] at h
    cases h
  rw [parent, if_neg hne] at h
  rw [q.graph.target_label h, isHidden, BuildLabel.parent]
  rw [BuildLabel.parent] at hne
  split
  case isTrue =>
    simp only [String.toList_ofList, decide_eq_false_iff_not]
    intro hhead
    have hnot := head?_dropWhile_not (fun c => decide (c = '_'))
      (t.label.name.toList.takeWhile (· ≠ '#'))
    rw [hhead] at hnot
    simp at hnot
  case isFalse hname =>
    rw [if_neg hname] at hne
    exact absurd rfl hne

/-- A child is in the package of its parent. -/
theorem package_of_parent {p : BuildTarget} (h : parent q.graph t = some p) :
    p.label.packageName = t.label.packageName ∧ p.label.subrepo = t.label.subrepo := by
  rw [parent] at h
  split at h
  · cases h
  · rw [q.graph.target_label h, BuildLabel.parent]
    split <;> exact ⟨rfl, rfl⟩

/-! ## Walks -/

theorem Walk.mem (ha : a ∈ q.graph.targets) (h : q.Walk a c t) : t ∈ q.graph.targets := by
  cases h with
  | refl => exact ha
  | tail _ hedge => exact hedge.1

theorem Walk.trans {b : BuildTarget} {e : ℕ} (h : q.Walk a c b) (h' : q.Walk b e t) :
    q.Walk a (c + e) t := by
  induction h' with
  | refl => exact h
  | tail _ hedge ih =>
    rw [← Nat.add_assoc]
    exact ih.tail hedge

theorem WalkFrom.mem (h : q.WalkFrom c t) : t ∈ q.graph.targets := by
  obtain ⟨a, ha, h⟩ := h
  exact h.mem ha.1

theorem WalkFrom.tail {d : BuildTarget} (h : q.WalkFrom c d) (hedge : q.Edge d t) :
    q.WalkFrom (c + q.cost d t) t := by
  obtain ⟨a, ha, h⟩ := h
  exact ⟨a, ha, h.tail hedge⟩

/-- A walk that costs something has a last edge that does; what comes after it is shown alike. -/
theorem WalkFrom.last_cost (h : q.WalkFrom c t) (hc : 1 ≤ c) :
    ∃ e d v, q.WalkFrom e d ∧ q.Edge d v ∧ e < c ∧ q.cost d v = 1 ∧ q.shown v = q.shown t := by
  obtain ⟨a, ha, h⟩ := h
  induction h with
  | refl => omega
  | @tail c d t hwalk hedge ih =>
    rcases Nat.eq_zero_or_pos (q.cost d t) with hcost | hcost
    · rw [hcost, Nat.add_zero] at hc ⊢
      obtain ⟨e, d', v, hd', hv, hlt, hone, hshown⟩ := ih hc
      exact ⟨e, d', v, hd', hv, hlt, hone, hshown.trans (shown_eq_of_cost hcost)⟩
    · have hone : q.cost d t = 1 := le_antisymm (q.cost_le_one d t) hcost
      exact ⟨c, d, t, ⟨a, ha, hwalk⟩, hedge, by omega, hone, rfl⟩

/-! ## The search as a search over targets with their depths -/

variable (q) in
/-- The successors of a target at a depth. -/
def costed (n : BuildTarget × ℕ) : List (BuildTarget × ℕ) :=
  if n.2 < q.limit then
    (successors q.graph q.includeSubrepos n.1.label).map fun t => (t, n.2 + q.cost n.1 t)
  else []

/-- The key of a target at a depth is its label. -/
def labelOf (n : BuildTarget × ℕ) : BuildLabel := n.1.label

variable (q) in
/-- The state of the code is that of the search, with the number of edges left out. -/
structure Agrees (s : Search BuildTarget BuildLabel) (b : Search (BuildTarget × ℕ) BuildLabel) :
    Prop where
  items : s.items = b.items.map (·.1)
  done : s.done = b.done
  found : ∀ o, o ∈ s.found ↔ ∃ n ∈ b.found, 0 < n.2 ∧ q.shown n.1 = some o

variable {s : Search BuildTarget BuildLabel} {b : Search (BuildTarget × ℕ) BuildLabel}

theorem Agrees.push (h : q.Agrees s b) (n : BuildTarget × ℕ) (level : ℕ) :
    q.Agrees (push label s n) (push labelOf b (n, level)) := by
  rw [Please.Lib.Bfs.push, Please.Lib.Bfs.push, h.done, labelOf]
  split
  · exact h
  · exact ⟨by simp [h.items], by simp, h.found⟩

theorem Agrees.record (h : q.Agrees s b) (n : BuildTarget × ℕ) (level : ℕ) :
    q.Agrees
      (Please.Lib.Bfs.push label
        { s with
          found := if 0 < n.2 then (q.shown n.1).elim s.found s.found.insert else s.found } n)
      (visit labelOf level b n) := by
  refine Agrees.push ?_ n (level + 1)
  refine ⟨h.items, h.done, fun o => ?_⟩
  simp only [mem_insert_iff, or_and_right, exists_or, exists_eq_left, ← h.found]
  by_cases hpos : 0 < n.2
  · cases hshown : q.shown n.1 with
    | none => simp [hpos]
    | some => simp [hpos, eq_comm]
  · simp [hpos]

theorem findRevdep_eq {d : ℕ} (hd : d < q.limit) :
    findRevdep q.graph q.revdeps (x, d) s (some t) =
      some (push label
        { s with found := if 0 < d + q.cost x t then
            (q.shown t).elim s.found s.found.insert else s.found }
        (t, d + q.cost x t)) := by
  have hwithin : q.revdeps.within d = true := by simp [Revdeps.within, revdeps, hd]
  have hdepth : (if isSameTarget q.graph x t then d else d + 1) = d + q.cost x t := by
    rw [cost]
    split <;> rfl
  have hhidden : q.revdeps.hidden = false := rfl
  simp only [findRevdep, hhidden, hwithin, Option.map_some, hdepth, Bool.false_eq_true, if_false,
    if_true, Option.bind_eq_bind, Option.bind_some, Bool.false_or, Bool.not_eq_true', shown]
  cases isHidden t.label with
  | false => rfl
  | true => cases parent q.graph t <;> rfl

theorem findRevdep_of_not_within {d : ℕ} (hd : ¬d < q.limit) :
    findRevdep q.graph q.revdeps (x, d) s (some t) = some s := by
  have hwithin : q.revdeps.within d = false := by
    refine Bool.eq_false_iff.mpr fun h => ?_
    rcases within_iff.mp h with h | h
    · exact hd (Int.ofNat_lt.mp h)
    · cases h
  have hhidden : q.revdeps.hidden = false := rfl
  simp [findRevdep, hhidden, hwithin]

theorem Agrees.foldlM_findRevdep (h : q.Agrees s b) (x : BuildTarget) (d level : ℕ)
    (ts : List BuildTarget) :
    ∃ s', (ts.map some).foldlM (findRevdep q.graph q.revdeps (x, d)) s = some s' ∧
      q.Agrees s' ((if d < q.limit then ts.map fun t => (t, d + q.cost x t) else []).foldl
        (visit labelOf level) b) := by
  induction ts generalizing s b with
  | nil => exact ⟨s, rfl, by simpa using h⟩
  | cons t ts ih =>
    by_cases hd : d < q.limit
    · rw [map_cons, foldlM_cons, findRevdep_eq hd]
      simp only [if_pos hd, map_cons, foldl_cons] at ih ⊢
      exact ih (h.record (t, d + q.cost x t) level)
    · rw [map_cons, foldlM_cons, findRevdep_of_not_within hd]
      simp only [if_neg hd] at ih ⊢
      exact ih h

theorem costed_mem {n m : BuildTarget × ℕ} (h : m ∈ q.costed n) : m.1 ∈ q.graph.targets := by
  rw [costed] at h
  split at h
  · obtain ⟨t, ht, rfl⟩ := mem_map.mp h
    exact successors_mem ht
  · cases h

/-- Both deal with the target at the head of the queue. -/
theorem Agrees.step {d level : ℕ} {items' : List (BuildTarget × ℕ)}
    {items : List ((BuildTarget × ℕ) × ℕ)} {done' done : List BuildLabel}
    {found' : List BuildTarget} {found : List (BuildTarget × ℕ)}
    (h : q.Agrees ⟨(x, d) :: items', done', found'⟩ ⟨((x, d), level) :: items, done, found⟩)
    (hb : ∀ n ∈ ((x, d), level) :: items, n.1.1 ∈ q.graph.targets) :
    ∃ s', (buildRevdeps q.graph q.revdeps.includeSubrepos x.label).foldlM
        (findRevdep q.graph q.revdeps (x, d)) ⟨items', done', found'⟩ = some s' ∧
      q.Agrees s' (advance labelOf q.costed (fun _ => true) (x, d) level ⟨items, done, found⟩) ∧
      ∀ n ∈ (advance labelOf q.costed (fun _ => true) (x, d) level ⟨items, done, found⟩).items,
        n.1.1 ∈ q.graph.targets := by
  have hpop : q.Agrees ⟨items', done', found'⟩ ⟨items, done, found⟩ :=
    ⟨(cons.inj h.items).2, h.done, h.found⟩
  obtain ⟨s', hs', hagrees⟩ := hpop.foldlM_findRevdep x d level
    (successors q.graph q.includeSubrepos x.label)
  refine ⟨s', ?_, hagrees, fun n hn => ?_⟩
  · rw [buildRevdeps_eq (hb ((x, d), level) mem_cons_self)]
    exact hs'
  · rcases mem_of_mem_items_advance hn with hn | hn
    · exact hb n (mem_cons_of_mem _ hn)
    · exact costed_mem hn

theorem Agrees.run (h : q.Agrees s b) (hb : ∀ n ∈ b.items, n.1.1 ∈ q.graph.targets) {fuel : ℕ}
    {b' : Search (BuildTarget × ℕ) BuildLabel}
    (hrun : run labelOf q.costed (fun _ => true) fuel b = some b') :
    ∃ found, Revdeps.findRevdeps q.graph q.revdeps fuel s = some found ∧
      ∀ o, o ∈ found ↔ ∃ n ∈ b'.found, 0 < n.2 ∧ q.shown n.1 = some o := by
  fun_induction Please.Lib.Bfs.run labelOf q.costed (fun _ => true) fuel b generalizing s with
  | case1 =>
    obtain rfl := Option.some.inj hrun
    obtain ⟨items', done', found'⟩ := s
    obtain rfl : items' = [] := h.items
    rw [Revdeps.findRevdeps]
    exact ⟨found', rfl, h.found⟩
  | case2 => cases hrun
  | case3 fuel x level items done found ih =>
    obtain ⟨x, d⟩ := x
    obtain ⟨items', done', found'⟩ := s
    obtain rfl : items' = (x, d) :: items.map (·.1) := h.items
    obtain ⟨s', hs', hagrees, hnext⟩ := h.step hb
    have hx : x ∈ q.graph.targets := hb ((x, d), level) mem_cons_self
    rw [Revdeps.findRevdeps, revdeps_eq_successors rfl hx, ← buildRevdeps_eq hx, hs']
    exact ih hagrees hnext hrun

/-- Both take the same targets off their queues, at the same depths. -/
theorem Agrees.takes_iff (h : q.Agrees s b) (hb : ∀ n ∈ b.items, n.1.1 ∈ q.graph.targets)
    {n : BuildTarget × ℕ} :
    q.Takes s n ↔ ∃ level, Pops labelOf q.costed (fun _ => true) b (n, level) := by
  constructor
  · intro htakes
    induction htakes generalizing b with
    | @head n items' done' found' =>
      obtain ⟨_ | ⟨⟨m, level⟩, items⟩, done, found⟩ := b
      · cases h.items
      · obtain rfl := (cons.inj h.items).1
        exact ⟨level, .head⟩
    | @step next n s' items' done' found' hs' _ ih =>
      obtain ⟨_ | ⟨⟨⟨x, d⟩, level⟩, items⟩, done, found⟩ := b
      · cases h.items
      · obtain rfl := (cons.inj h.items).1
        obtain ⟨s'', hs'', hagrees, hnext⟩ := h.step hb
        obtain rfl := Option.some.inj (hs'.symm.trans hs'')
        obtain ⟨level', hpops⟩ := ih hagrees hnext
        exact ⟨level', .step hpops⟩
  · rintro ⟨level, hpops⟩
    obtain ⟨items', done', found'⟩ := s
    generalize hm : (n, level) = m at hpops
    induction hpops generalizing items' done' found' with
    | @head m items done found =>
      subst hm
      obtain rfl : items' = _ := h.items
      exact .head
    | @step x l m items done found _ ih =>
      obtain ⟨x, d⟩ := x
      obtain rfl : items' = _ := h.items
      obtain ⟨⟨items'', done'', found''⟩, hs', hagrees, hnext⟩ := h.step hb
      exact .step hs' (ih hnext _ _ _ hagrees hm)

/-! ## The start -/

variable (q) in
/-- The targets that are put into the queue for one label. -/
def startsOf (t : BuildTarget) : List BuildTarget :=
  t :: if isHidden t.label then [] else
    (packageTargets q.graph t).filter fun child => parent q.graph child = some t

theorem mem_startsOf (ha : a ∈ q.graph.targets) :
    a ∈ q.startsOf t ↔ a = t ∨ parent q.graph a = some t := by
  rw [startsOf, mem_cons]
  refine or_congr_right ?_
  constructor
  · intro h
    split at h
    · cases h
    · simpa using (mem_filter.mp h).2
  · intro h
    have hmem := q.listed a ha
    obtain ⟨hname, hsubrepo⟩ := package_of_parent h
    rw [packageTargets, ← hname, ← hsubrepo] at hmem
    rw [isHidden_of_parent h]
    exact mem_filter.mpr ⟨hmem, by simpa using h⟩

theorem startsOf_mem (ht : t ∈ q.graph.targets) (h : a ∈ q.startsOf t) : a ∈ q.graph.targets := by
  rw [startsOf, mem_cons] at h
  rcases h with rfl | h
  · exact ht
  · split at h
    · cases h
    · have hmem := (mem_filter.mp h).1
      rw [packageTargets] at hmem
      cases hpkg : package q.graph t.label.packageName t.label.subrepo with
      | none => rw [hpkg] at hmem; cases hmem
      | some pkg =>
        rw [hpkg] at hmem
        exact q.graph.packages_mem pkg (mem_of_find?_eq_some hpkg) a hmem

/-- A target in the queue from the start, at depth 0. -/
abbrev atStart (a : BuildTarget) : BuildTarget × ℕ := (a, 0)

variable (q) in
/-- The points that the search starts from. -/
def startPoints : List (BuildTarget × ℕ) := (q.seeds.flatMap q.startsOf).map atStart

theorem mem_startPoints {n : BuildTarget × ℕ} :
    n ∈ q.startPoints ↔ n.2 = 0 ∧ q.IsStart n.1 := by
  obtain ⟨a, d⟩ := n
  simp only [startPoints, mem_map, mem_flatMap, Prod.mk.injEq, IsStart]
  constructor
  · rintro ⟨a', ⟨t, ht, ha'⟩, rfl, rfl⟩
    have hmem := startsOf_mem (q.seeds_mem t ht) ha'
    refine ⟨rfl, hmem, ?_⟩
    rcases (mem_startsOf hmem).mp ha' with rfl | hparent
    · exact .inl ht
    · exact .inr ⟨t, ht, hparent⟩
  · rintro ⟨rfl, hmem, ha | ⟨t, ht, hparent⟩⟩
    · exact ⟨a, ⟨a, ha, mem_cons_self⟩, rfl, rfl⟩
    · exact ⟨a, ⟨t, ht, (mem_startsOf hmem).mpr (.inr hparent)⟩, rfl, rfl⟩

/-- Points are put into the queue at the start. -/
def pushAll (b : Search (BuildTarget × ℕ) BuildLabel) (ns : List (BuildTarget × ℕ)) :
    Search (BuildTarget × ℕ) BuildLabel :=
  ns.foldl (fun b n => push labelOf b (n, 0)) b

theorem Agrees.foldl_push (h : q.Agrees s b) (as : List BuildTarget) :
    q.Agrees (as.foldl (fun s a => Please.Lib.Bfs.push label s (a, 0)) s)
      (pushAll b (as.map atStart)) := by
  induction as generalizing s b with
  | nil => exact h
  | cons a as ih => exact ih (h.push (a, 0) 0)

theorem Agrees.pushLabel (h : q.Agrees s b) (ht : t ∈ q.graph.targets) :
    ∃ s', Query.pushLabel q.graph q.revdeps s t.label = some s' ∧
      q.Agrees s' (pushAll b ((q.startsOf t).map atStart)) := by
  have htarget : q.graph.target t.label = some t := q.graph.target_eq_some.mpr ⟨ht, rfl⟩
  refine ⟨_, ?_, h.foldl_push (q.startsOf t)⟩
  have hlisted := q.listed t ht
  have hhidden : q.revdeps.hidden = false := rfl
  rw [Query.pushLabel, htarget, startsOf]
  rw [packageTargets] at hlisted ⊢
  cases hpkg : package q.graph t.label.packageName t.label.subrepo with
  | none => rw [hpkg] at hlisted; cases hlisted
  | some => cases hname : isHidden t.label <;> simp [hhidden]

theorem Agrees.start (h : q.Agrees s b) {seeds : List BuildTarget}
    (hseeds : ∀ t ∈ seeds, t ∈ q.graph.targets) :
    ∃ s', (seeds.map label).foldlM (Query.pushLabel q.graph q.revdeps) s = some s' ∧
      q.Agrees s' (pushAll b ((seeds.flatMap q.startsOf).map atStart)) := by
  induction seeds generalizing s b with
  | nil => exact ⟨s, rfl, h⟩
  | cons t _ ih =>
    obtain ⟨s', hs', hagrees⟩ := h.pushLabel (hseeds t mem_cons_self)
    obtain ⟨s'', hs'', hagrees'⟩ := ih hagrees (forall_mem_cons.mp hseeds).2
    refine ⟨s'', ?_, ?_⟩
    · rw [map_cons, foldlM_cons, hs']
      exact hs''
    · rw [flatMap_cons, map_append, pushAll, foldl_append]
      exact hagrees'

/-! ## What is found -/

theorem mem_costed {d e : ℕ} (hx : x ∈ q.graph.targets) :
    (t, e) ∈ q.costed (x, d) ↔ d < q.limit ∧ q.Edge x t ∧ e = d + q.cost x t := by
  rw [costed]
  split
  case isTrue hd =>
    simp only [mem_map, Prod.mk.injEq, mem_successors hx]
    constructor
    · rintro ⟨t', hedge, rfl, rfl⟩
      exact ⟨hd, hedge, rfl⟩
    · rintro ⟨-, hedge, rfl⟩
      exact ⟨t, hedge, rfl, rfl⟩
  case isFalse hd => simp [hd]

/-- The depth of a point is the cost of the walk that led to it. -/
theorem walk_of_steps (ha : a ∈ q.graph.targets) {n : ℕ} {p : BuildTarget × ℕ}
    (h : Steps (Please.Lib.Bfs.Edge q.costed) (a, 0) n p) : q.Walk a p.2 p.1 := by
  induction h with
  | refl => exact .refl
  | @tail n p p' _ hedge ih =>
    obtain ⟨-, hrevdep, hcost⟩ := (mem_costed (ih.mem ha)).mp hedge
    rw [hcost]
    exact ih.tail hrevdep

variable (q) in
/-- The search ends, and what it has found is what it records. It takes the targets to start from
off the queue, and what they lead to while it goes on. -/
theorem findRevdeps_spec : ∃ found,
    findRevdeps q.graph q.revdeps (q.seeds.map label) = some found ∧
      (∀ o, o ∈ found ↔ q.Records o) ∧ (∀ a, q.IsStart a → q.Dequeues a 0) ∧
      ∀ x d, q.Dequeues x d →
        q.WalkFrom d x ∧ (d < q.limit → ∀ v, q.Edge x v → ∃ e, q.Dequeues v e) := by
  have hstarts : ∀ n ∈ q.startPoints, n.1 ∈ q.graph.targets := fun n hn =>
    (mem_startPoints.mp hn).2.1
  obtain ⟨b, hb⟩ : ∃ b, run labelOf q.costed (fun _ => true) q.graph.targets.length
      (Please.Lib.Bfs.start labelOf q.startPoints) = some b := by
    refine exists_run (u := (q.graph.targets.map label).toFinset) (fun n hn => ?_)
      (fun n _ m hm => ?_) ((toFinset_card_le _).trans (by simp))
    · exact mem_toFinset.mpr (mem_map_of_mem (hstarts n hn))
    · exact mem_toFinset.mpr (mem_map_of_mem (costed_mem hm))
  have hempty : q.Agrees {} {} := ⟨rfl, rfl, by simp⟩
  obtain ⟨s, hs, hagrees⟩ := hempty.start q.seeds_mem
  have hitems : ∀ n ∈ (Please.Lib.Bfs.start labelOf q.startPoints).items,
      n.1.1 ∈ q.graph.targets := fun n hn => hstarts n.1 (mem_of_mem_items_start hn)
  obtain ⟨found, hfound, hmem⟩ := hagrees.run hitems hb
  obtain ⟨past, htrace, hpops⟩ := exists_trace hb
  -- the targets that are taken off the queue are those of the trace
  have hdequeues {x : BuildTarget} {d : ℕ} : q.Dequeues x d ↔ ∃ k, ((x, d), k) ∈ past := by
    simp only [Dequeues, hs, Option.some.injEq, exists_eq_left', hagrees.takes_iff hitems, hpops]
    rfl
  have hwalk {x : BuildTarget} {d k : ℕ} (hx : ((x, d), k) ∈ past) : q.WalkFrom d x := by
    obtain ⟨⟨a, e⟩, ha, hsteps⟩ := htrace.walk _ hx
    obtain ⟨hzero, hstart⟩ := mem_startPoints.mp ha
    obtain rfl : e = 0 := hzero
    exact ⟨a, hstart, walk_of_steps hstart.1 hsteps⟩
  refine ⟨found, ?_, fun o => (hmem o).trans ?_, fun a ha => ?_, fun x d hx => ?_⟩
  · rw [findRevdeps, hs]
    exact hfound
  · constructor
    · rintro ⟨⟨v, e⟩, hv, hpos, hshown⟩
      obtain ⟨⟨⟨x, d⟩, k⟩, hx, -, hnext⟩ := (htrace.mem_found _).mp hv
      obtain ⟨hd, hedge, rfl⟩ := (mem_costed (hwalk hx).mem).mp hnext
      exact ⟨x, d, v, hdequeues.mpr ⟨k, hx⟩, hd, hedge, hpos, hshown⟩
    · rintro ⟨x, d, v, hx, hd, hedge, hpos, hshown⟩
      obtain ⟨k, hx⟩ := hdequeues.mp hx
      exact ⟨_, (htrace.mem_found _).mpr ⟨_, hx, rfl, (mem_costed (hwalk hx).mem).mpr
        ⟨hd, hedge, rfl⟩⟩, hpos, hshown⟩
  · obtain ⟨⟨⟨x, d⟩, k⟩, hx, hkey, hk⟩ := htrace.seed (a, 0) (mem_startPoints.mpr ⟨rfl, ha⟩)
    obtain rfl : k = 0 := hk
    obtain rfl : x = a := q.graph.eq_of_label (hwalk hx).mem ha.1 hkey
    obtain ⟨b, hb, hnone⟩ := htrace.walk _ hx
    cases hnone
    obtain rfl : d = 0 := (mem_startPoints.mp hb).1
    exact hdequeues.mpr ⟨0, hx⟩
  · obtain ⟨k, hx⟩ := hdequeues.mp hx
    refine ⟨hwalk hx, fun hd v hedge => ?_⟩
    have hmem : (v, d + q.cost x v) ∈ q.costed (x, d) :=
      (mem_costed (hwalk hx).mem).mpr ⟨hd, hedge, rfl⟩
    obtain ⟨⟨⟨v', e⟩, k'⟩, hv', hkey, -⟩ := htrace.next _ hx rfl _ hmem
    obtain rfl : v' = v := q.graph.eq_of_label (hwalk hv').mem hedge.1 hkey
    exact ⟨e, hdequeues.mpr ⟨k', hv'⟩⟩

/-- The search goes on from a target within the limit, or from some target on the way it does
not. -/
theorem dequeues_or_cut (hwalk : q.WalkFrom c t) (hc : c < q.limit) :
    (∃ d < q.limit, q.Dequeues t d) ∨
      ∃ b c', q.Cuts c' b ∧ ∃ e, q.Walk b e t ∧ c' + e = c := by
  obtain ⟨-, -, -, hstart, hnext⟩ := q.findRevdeps_spec
  obtain ⟨a, ha, hwalk⟩ := hwalk
  induction hwalk with
  | refl => exact .inl ⟨0, hc, hstart a ha⟩
  | @tail c x t hwalk hedge ih =>
    rcases ih (by omega) with ⟨d, hd, hx⟩ | ⟨b, c', hcut, e, hrest, hsum⟩
    · obtain ⟨e, ht⟩ := (hnext x d hx).2 hd t hedge
      by_cases he : e < q.limit
      · exact .inl ⟨e, he, ht⟩
      · exact .inr ⟨t, _, ⟨⟨e, not_lt.mp he, ht⟩, hc, a, ha, hwalk.tail hedge⟩, 0, .refl, rfl⟩
    · exact .inr ⟨b, c', hcut, _, hrest.tail hedge, by omega⟩

theorem findsWithin_iff : q.FindsWithin ↔ ∀ o, ¬ q.Loses o := by
  obtain ⟨found, hfound, hmem, hstart, hnext⟩ := q.findRevdeps_spec
  simp only [FindsWithin, hfound, Option.some.injEq, exists_eq_left', hmem]
  constructor
  · rintro h o ⟨hnot, b, c, ⟨-, -, a, ha, hwalk⟩, e, t, hrest, hpos, hle, hshown⟩
    exact hnot ((h o).mpr ⟨_, t, ⟨a, ha, hwalk.trans hrest⟩, hpos, hle, hshown⟩)
  · intro hloses o
    constructor
    · rintro ⟨x, d, v, hx, hd, hedge, hpos, hshown⟩
      have hone := q.cost_le_one x v
      exact ⟨_, v, (hnext x d hx).1.tail hedge, hpos, by omega, hshown⟩
    · rintro ⟨c, t, hwalk, hpos, hle, hshown⟩
      obtain ⟨e, d, v, hd, hedge, hlt, hone, hv⟩ := hwalk.last_cost hpos
      by_contra hnot
      rcases dequeues_or_cut hd (hlt.trans_le hle) with ⟨depth, hdepth, hreach⟩ |
        ⟨b, c', hcut, e', hrest, hsum⟩
      · exact hnot ⟨d, depth, v, hreach, hdepth, hedge, by omega, hv.trans hshown⟩
      · exact hloses o ⟨hnot, b, c', hcut, _, v, hrest.tail hedge, by omega, by omega,
          hv.trans hshown⟩

end DepthQuery

def detourTargets : List BuildTarget :=
  [ruleOf "s" [], ruleOf "B" ["s"], ruleOf "_a#x" ["s"], ruleOf "a" ["B", "_a#x"], ruleOf "z" ["a"]]

def detour : DepthQuery where
  graph := { targets := detourTargets, packages := [⟨"p", "", [], detourTargets⟩] }
  includeSubrepos := false
  seeds := [ruleOf "s" []]
  limit := 2
  listed := by decide +kernel
  seeds_mem := by decide

theorem isRevdep_detour : detour.IsRevdep (ruleOf "z" ["a"]) := by
  have hedge {d t : BuildTarget} (hd : d ∈ detour.graph.targets)
      (ht : t ∈ successors detour.graph false d.label) : detour.Edge d t :=
    (mem_successors hd).mp ht
  have hx : detour.Edge (ruleOf "s" []) (ruleOf "_a#x" ["s"]) :=
    hedge (by decide +kernel) (by decide +kernel)
  have ha : detour.Edge (ruleOf "_a#x" ["s"]) (ruleOf "a" ["B", "_a#x"]) :=
    hedge (by decide +kernel) (by decide +kernel)
  have hz : detour.Edge (ruleOf "a" ["B", "_a#x"]) (ruleOf "z" ["a"]) :=
    hedge (by decide +kernel) (by decide +kernel)
  have hwalk : detour.WalkFrom 2 (ruleOf "z" ["a"]) :=
    ⟨_, ⟨by decide +kernel, .inl mem_cons_self⟩, ((DepthQuery.Walk.refl.tail hx).tail ha).tail hz⟩
  exact ⟨2, _, hwalk, by omega, le_rfl, by decide +kernel⟩

end Please.Query
