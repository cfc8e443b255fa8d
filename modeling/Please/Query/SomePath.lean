import Please.Query.ReverseDeps
import Please.Lib.PathSearch

/-!
# A path between two targets

Model of `somepath` (`query/somepath.go`): a depth-first search from one target for another, then
the other way around. What was seen on the way to a destination is kept in a memo for the next query
with the same destination. A result `none` stands for a crash (`TargetOrDie`), or for calls that are
nested too deep for the bound of the model.

Specification: `Linked` is an edge, `Leads` says that a target or a child of it can be reached, and
`IsPathTo` is a path to such a target.

* `somePath_iff_leads`: when a query with nothing excepted finds a path.
* `not_mem_except_iff`: when the labels that are excepted are kept out of a path.
-/

namespace Please.Query

open Please.Core BuildTarget
open Please.Lib.PathSearch List

/-! ## The model -/

section model

variable (graph : PackageGraph) (except : List BuildLabel)

/-- The body of the loop over the dependencies (lines 97–107); `recurse` is `somePath`. -/
def searchDep (recurse : List BuildLabel → BuildTarget → Option (List BuildLabel × List BuildLabel))
    (target1 : BuildTarget) (seen : List BuildLabel) (dep : BuildLabel) :
    Option (List BuildLabel × List BuildLabel) :=
  match graph.target dep with
  | none => some ([], seen)
  | some t =>
    if t.label ∈ except then some ([], seen)
    else firstM (fun seen l => (graph.target l).bind (recurse seen)) seen (t.provideFor target1)

variable (target2 : BuildTarget)

/-- `somePath` (lines 83–114), with calls nested at most `fuel` deep: the path and what was seen. -/
def somePath : ℕ → List BuildLabel → BuildTarget → Option (List BuildLabel × List BuildLabel)
  | 0, _, _ => none
  | fuel + 1, seen, target1 =>
    if target1.label = target2.label then some ([target1.label], seen)
    else if parent graph target1 = some target2 then some ([target1.label], seen)
    else if target1.label ∈ seen then some ([], seen)
    else
      (firstM (searchDep graph except (somePath fuel) target1) (target1.label :: seen)
          target1.sortedDependencies).bind fun r =>
        if r.1.isEmpty then
          match graph.subrepoTarget target1 with
          | none => some ([], r.2)
          | some s => (somePath fuel r.2 s).map fun r' =>
            (if r'.1.isEmpty then [] else target1.label :: r'.1, r'.2)
        else some (target1.label :: r.1, r.2)

/-- `somepath.memo`: what was seen on the way to a destination. -/
abbrev Memo := BuildLabel → List BuildLabel

/-- `somepath.somePath` (lines 74–81). -/
def somePathTo (memo : Memo) (label1 label2 : BuildLabel) : Option (List BuildLabel × Memo) := do
  let target1 ← graph.target label1
  let target2 ← graph.target label2
  let r ← somePath graph except target2 (graph.targets.length + 1) (memo label2) target1
  some (r.1, Function.update memo label2 r.2)

/-- `somepath.SomePath` (lines 66–72). -/
def somePathBetween (memo : Memo) (label1 label2 : BuildLabel) : Option (List BuildLabel × Memo) :=
  (somePathTo graph except memo label1 label2).bind fun r =>
    if r.1.isEmpty then somePathTo graph except r.2 label2 label1 else some r

end model

/-! ## Specification -/

section specification

variable (graph : PackageGraph)

/-- `d` is what a declared dependency provides for `t`, or fetches the subrepo that `t` is in. -/
def Linked (t d : BuildTarget) : Prop := d ∈ graph.dependencies t ∨ graph.subrepoTarget t = some d

/-- `t` is `b` or a child of `b`. -/
def IsOf (b t : BuildTarget) : Prop := t = b ∨ parent graph t = some b

/-- `b`, or a child of it, can be reached from `a`. -/
def Leads (a b : BuildTarget) : Prop := ∃ t, Relation.ReflTransGen (Linked graph) a t ∧
    IsOf graph b t

/-- The labels are those of a walk along edges to `b` or a child of it. -/
inductive IsPathTo (b : BuildTarget) : BuildTarget → List BuildLabel → Prop
  | last {t : BuildTarget} : IsOf graph b t → IsPathTo b t [t.label]
  | step {t d : BuildTarget} {path : List BuildLabel} : Linked graph t d → IsPathTo b d path →
      IsPathTo b t (t.label :: path)

/-- The memo after queries, with nothing excepted, that have found no path. -/
inductive Asked : Memo → Prop
  | start : Asked fun _ => []
  | query {memo memo' : Memo} {label1 label2 : BuildLabel} : Asked memo →
      somePathBetween graph [] memo label1 label2 = some ([], memo') → Asked memo'

/-- What is provided for a dependency that is in the graph is in the graph too. -/
def ProvidesPresent : Prop :=
  ∀ t ∈ graph.targets, ∀ l ∈ t.declaredDependencies, ∀ dep, graph.target l = some dep →
    ∀ p ∈ dep.provideFor t, ∃ d, graph.target p = some d

end specification

/-! ## The search over labels -/

section search

variable (graph : PackageGraph) (except : List BuildLabel) (target2 : BuildTarget)

/-- What a declared dependency of `t` leads the search to. -/
def providedLabels (t : BuildTarget) (dep : BuildLabel) : List (Option BuildLabel) :=
  match graph.target dep with
  | none => []
  | some d =>
    if d.label ∈ except then []
    else (d.provideFor t).map fun p => (graph.target p).map label

/-- What the search goes on to from a target. -/
def nextLabels (t : BuildTarget) : List (Option BuildLabel) :=
  t.sortedDependencies.flatMap (providedLabels graph except t) ++
    (graph.subrepoTarget t).toList.map fun s => some s.label

/-- What the search goes on to from a label. -/
def labelsAfter (label : BuildLabel) : List (Option BuildLabel) :=
  (graph.target label).elim [] (nextLabels graph except)

/-- The search stops at a label. -/
def stopsAt (label : BuildLabel) : Bool :=
  (graph.target label).any fun t => t.label = target2.label || parent graph t = some target2

variable {graph except target2}

theorem somePath_eq_search {fuel : ℕ} {seen : List BuildLabel} {target1 : BuildTarget}
    (ht : target1 ∈ graph.targets) :
    somePath graph except target2 fuel seen target1 =
      search (labelsAfter graph except) (stopsAt graph target2) fuel seen target1.label := by
  induction fuel generalizing seen target1 with
  | zero => rfl
  | succ fuel ih =>
    have htarget : graph.target target1.label = some target1 := graph.target_eq_some.mpr ⟨ht, rfl⟩
    have hrec (seen : List BuildLabel) (l : BuildLabel) :
        (graph.target l).bind (somePath graph except target2 fuel seen) =
          ((graph.target l).map label).bind
            (search (labelsAfter graph except) (stopsAt graph target2) fuel seen) := by
      cases hl : graph.target l with
      | none => rfl
      | some => exact ih (graph.target_mem hl)
    have hdep (seen : List BuildLabel) (dep : BuildLabel) :
        searchDep graph except (somePath graph except target2 fuel) target1 seen dep =
          firstM (fun seen o => o.bind
            (search (labelsAfter graph except) (stopsAt graph target2) fuel seen)) seen
            (providedLabels graph except target1 dep) := by
      rw [searchDep, providedLabels]
      cases graph.target dep with
      | none => rfl
      | some =>
        dsimp only
        split
        · rfl
        · rw [firstM_map]
          exact firstM_congr fun p _ seen => hrec seen p
    simp only [somePath, search, stopsAt, labelsAfter, htarget, Option.any_some, Option.elim_some,
      Bool.or_eq_true, decide_eq_true_eq, ite_or]
    refine if_congr .rfl rfl (if_congr .rfl rfl (if_congr .rfl rfl ?_))
    rw [nextLabels, firstM_append, firstM_flatMap, firstM_congr fun dep _ seen => hdep seen dep,
      Option.map_bind]
    refine congrArg _ (funext fun r => ?_)
    obtain ⟨_ | ⟨l, path⟩, seen'⟩ := r
    · cases hsubrepo : graph.subrepoTarget target1 with
      | none => rfl
      | some s =>
        have hs : s ∈ graph.targets := graph.subrepo_mem target1 ht s hsubrepo
        simp only [Function.comp_apply, isEmpty_nil, if_true, Option.toList_some, map_cons, map_nil,
          firstM_singleton, Option.bind_some, ih hs]
    · rfl

/-! ## Edges -/

variable {t : BuildTarget}

theorem mem_providedLabels {dep : BuildLabel} {o : Option BuildLabel} :
    o ∈ providedLabels graph except t dep ↔ ∃ d, graph.target dep = some d ∧ d.label ∉ except ∧
      ∃ p ∈ d.provideFor t, o = (graph.target p).map label := by
  rw [providedLabels]
  cases graph.target dep with
  | none => simp
  | some =>
    dsimp only
    split
    case isTrue h => simp [h]
    case isFalse h => simp [h, eq_comm]

theorem mem_nextLabels {o : Option BuildLabel} :
    o ∈ nextLabels graph except t ↔
      (∃ l ∈ t.declaredDependencies, ∃ d, graph.target l = some d ∧ d.label ∉ except ∧
        ∃ p ∈ d.provideFor t, o = (graph.target p).map label) ∨
      ∃ s, graph.subrepoTarget t = some s ∧ o = some s.label := by
  simp only [nextLabels, mem_append, mem_flatMap, mem_sortedDependencies,
    mem_providedLabels, mem_map, Option.mem_toList, eq_comm]

theorem labelsAfter_eq (ht : t ∈ graph.targets) :
    labelsAfter graph except t.label = nextLabels graph except t := by
  rw [labelsAfter, graph.target_eq_some.mpr ⟨ht, rfl⟩, Option.elim_some]

variable {l : BuildLabel}

/-- With nothing excepted, the edges between labels are those between targets. -/
theorem edge_iff_linked (ht : t ∈ graph.targets) :
    Edge (labelsAfter graph []) t.label l ↔ ∃ d ∈ graph.targets, d.label = l ∧
      Linked graph t d := by
  rw [Edge, labelsAfter_eq ht, mem_nextLabels]
  constructor
  · rintro (⟨l', hl', dep, hdep, -, p, hp, ho⟩ | ⟨s, hs, ho⟩)
    · obtain ⟨d, hd, rfl⟩ := Option.map_eq_some_iff.mp ho.symm
      exact ⟨d, graph.target_mem hd, rfl,
        .inl (graph.mem_dependencies.mpr ⟨l', hl', dep, hdep, p, hp, hd⟩)⟩
    · exact ⟨s, graph.subrepo_mem t ht s hs, (Option.some.inj ho).symm, .inr hs⟩
  · rintro ⟨d, hd, rfl, hlinked | hlinked⟩
    · obtain ⟨l', hl', dep, hdep, p, hp, hpd⟩ := graph.mem_dependencies.mp hlinked
      exact .inl ⟨l', hl', dep, hdep, not_mem_nil, p, hp, by rw [hpd, Option.map_some]⟩
    · exact .inr ⟨d, hlinked, rfl⟩

theorem stopsAt_iff (ht : t ∈ graph.targets) (h2 : target2 ∈ graph.targets) :
    stopsAt graph target2 t.label = true ↔ IsOf graph target2 t := by
  rw [stopsAt, graph.target_eq_some.mpr ⟨ht, rfl⟩, IsOf]
  simp only [Option.any_some, Bool.or_eq_true, decide_eq_true_eq]
  refine or_congr_left ⟨fun h => graph.eq_of_label ht h2 h, fun h => by rw [h]⟩

theorem Linked.mem {d : BuildTarget} (ht : t ∈ graph.targets) (h : Linked graph t d) :
    d ∈ graph.targets := by
  rcases h with h | h
  · exact graph.dependencies_mem h
  · exact graph.subrepo_mem t ht d h

/-- A stop can be reached along labels if and only if the target, or a child of it, can be. -/
theorem reaches_stop_iff_leads {a : BuildTarget} (ha : a ∈ graph.targets)
    (h2 : target2 ∈ graph.targets) :
    (∃ l, Reaches (labelsAfter graph []) a.label l ∧ stopsAt graph target2 l = true) ↔
      Leads graph a target2 := by
  constructor
  · rintro ⟨l, hreach, hstop⟩
    have hwalk : ∃ t ∈ graph.targets, t.label = l ∧ Relation.ReflTransGen (Linked graph) a t := by
      clear hstop
      induction hreach with
      | refl => exact ⟨a, ha, rfl, .refl⟩
      | tail _ hedge ih =>
        obtain ⟨t, ht, rfl, hwalk⟩ := ih
        obtain ⟨d, hd, rfl, hlinked⟩ := (edge_iff_linked ht).mp hedge
        exact ⟨d, hd, rfl, hwalk.tail hlinked⟩
    obtain ⟨t, ht, rfl, hwalk⟩ := hwalk
    exact ⟨t, hwalk, (stopsAt_iff ht h2).mp hstop⟩
  · rintro ⟨t, hwalk, hof⟩
    have hreach : t ∈ graph.targets ∧ Reaches (labelsAfter graph []) a.label t.label := by
      clear hof
      induction hwalk with
      | refl => exact ⟨ha, .refl⟩
      | tail _ hlinked ih =>
        have hd := hlinked.mem ih.1
        exact ⟨hd, ih.2.tail ((edge_iff_linked ih.1).mpr ⟨_, hd, rfl, hlinked⟩)⟩
    exact ⟨t.label, hreach.2, (stopsAt_iff hreach.1 h2).mpr hof⟩

/-- A path along labels is one along targets. -/
theorem isPathTo_of_isPath {path : List BuildLabel} (h2 : target2 ∈ graph.targets)
    (h : IsPath (labelsAfter graph []) (stopsAt graph target2) l path) (ht : t ∈ graph.targets)
    (hl : t.label = l) : IsPathTo graph target2 t path := by
  induction h generalizing t with
  | goal hstop =>
    subst hl
    exact .last ((stopsAt_iff ht h2).mp hstop)
  | cons hedge _ ih =>
    subst hl
    obtain ⟨d, hd, hlabel, hlinked⟩ := (edge_iff_linked ht).mp hedge
    exact .step hlinked (ih hd hlabel)

/-! ## Queries -/

variable {memo memo' : Memo} {path : List BuildLabel} {a b : BuildTarget}

theorem somePathTo_eq_some {label1 label2 : BuildLabel} :
    somePathTo graph except memo label1 label2 = some (path, memo') ↔
      ∃ t1 t2 seen, graph.target label1 = some t1 ∧ graph.target label2 = some t2 ∧
        search (labelsAfter graph except) (stopsAt graph t2) (graph.targets.length + 1)
          (memo label2) label1 = some (path, seen) ∧ memo' = Function.update memo label2 seen := by
  simp only [somePathTo, Option.bind_eq_bind, Option.bind_eq_some_iff, Option.some.injEq,
    Prod.mk.injEq]
  constructor
  · rintro ⟨t1, ht1, t2, ht2, ⟨_, seen⟩, hsearch, rfl, rfl⟩
    rw [somePath_eq_search (graph.target_mem ht1), graph.target_label ht1] at hsearch
    exact ⟨t1, t2, seen, ht1, ht2, hsearch, rfl⟩
  · rintro ⟨t1, t2, seen, ht1, ht2, hsearch, rfl⟩
    refine ⟨t1, ht1, t2, ht2, (path, seen), ?_, rfl, rfl⟩
    rw [somePath_eq_search (graph.target_mem ht1), graph.target_label ht1]
    exact hsearch

variable (graph) in
/-- From what was seen on the way to a target, the target cannot be reached. -/
def MemoDead (memo : Memo) : Prop :=
  ∀ t ∈ graph.targets, Dead (labelsAfter graph []) (stopsAt graph t) (memo t.label)

/-- One direction of a query: what it finds, and that the memo stays sound if it finds nothing. -/
theorem somePathTo_spec (hmemo : MemoDead graph memo) (ha : a ∈ graph.targets)
    (hb : b ∈ graph.targets)
    (h : somePathTo graph [] memo a.label b.label = some (path, memo')) :
    (path ≠ [] ↔ Leads graph a b) ∧ (path ≠ [] → IsPathTo graph b a path) ∧
      (path = [] → MemoDead graph memo') := by
  obtain ⟨t1, t2, seen, ht1, ht2, hsearch, rfl⟩ := somePathTo_eq_some.mp h
  obtain rfl : t2 = b := graph.eq_of_label (graph.target_mem ht2) hb (graph.target_label ht2)
  have hout := search_spec hsearch
  refine ⟨(search_ne_nil_iff (hmemo t2 hb) hsearch).trans (reaches_stop_iff_leads ha hb),
    fun hne => ?_, fun hnil t ht => ?_⟩
  · obtain ⟨l, hl, hpath, -⟩ := hout.path hne
    obtain rfl : l = a.label := by simpa using hl
    exact isPathTo_of_isPath hb hpath ha rfl
  · by_cases hlabel : t.label = t2.label
    · obtain rfl := graph.eq_of_label ht hb hlabel
      rw [Function.update_self]
      exact hout.dead_of_nil hnil (hmemo t ht)
    · rw [Function.update_of_ne hlabel]
      exact hmemo t ht

theorem somePathBetween_spec (hmemo : MemoDead graph memo) (ha : a ∈ graph.targets)
    (hb : b ∈ graph.targets)
    (h : somePathBetween graph [] memo a.label b.label = some (path, memo')) :
    (path ≠ [] ↔ Leads graph a b ∨ Leads graph b a) ∧
      (path ≠ [] → IsPathTo graph b a path ∨ IsPathTo graph a b path) ∧
      (path = [] → MemoDead graph memo') := by
  obtain ⟨⟨path₁, memo₁⟩, h₁, h₂⟩ := Option.bind_eq_some_iff.mp h
  obtain ⟨hiff₁, hpath₁, hdead₁⟩ := somePathTo_spec hmemo ha hb h₁
  cases path₁ with
  | cons l path₁ =>
    obtain ⟨rfl, rfl⟩ : l :: path₁ = path ∧ memo₁ = memo' := by simpa using h₂
    have hne : l :: path₁ ≠ [] := cons_ne_nil _ _
    exact ⟨⟨fun _ => .inl (hiff₁.mp hne), fun _ => hne⟩, fun _ => .inl (hpath₁ hne),
      fun hnil => absurd hnil hne⟩
  | nil =>
    obtain ⟨hiff₂, hpath₂, hdead₂⟩ := somePathTo_spec (hdead₁ rfl) hb ha h₂
    have hnot : ¬Leads graph a b := fun hleads => hiff₁.mpr hleads rfl
    exact ⟨hiff₂.trans ⟨.inr, fun h => h.resolve_left hnot⟩, fun hne => .inr (hpath₂ hne), hdead₂⟩

theorem Asked.memoDead (h : Asked graph memo) : MemoDead graph memo := by
  induction h with
  | start => exact fun t _ b hb => absurd hb not_mem_nil
  | @query memo memo' label1 label2 _ hquery ih =>
    obtain ⟨r, hr, -⟩ := Option.bind_eq_some_iff.mp hquery
    obtain ⟨t1, t2, -, ht1, ht2, -⟩ := somePathTo_eq_some.mp hr
    obtain ⟨h1, rfl⟩ := graph.target_eq_some.mp ht1
    obtain ⟨h2, rfl⟩ := graph.target_eq_some.mp ht2
    exact (somePathBetween_spec ih h1 h2 hquery).2.2 rfl

theorem exists_somePathTo (hpresent : ProvidesPresent graph) (memo : Memo) (ha : a ∈ graph.targets)
    (hb : b ∈ graph.targets) : ∃ r, somePathTo graph except memo a.label b.label = some r := by
  let u : Finset BuildLabel := (graph.targets.map label).toFinset
  have hmem {t : BuildTarget} (ht : t ∈ graph.targets) : t.label ∈ u :=
    mem_toFinset.mpr (mem_map_of_mem ht)
  have hclosed : ∀ l ∈ u, ∀ o ∈ labelsAfter graph except l, ∃ l' ∈ u, o = some l' := by
    intro l hl o ho
    obtain ⟨t, ht, rfl⟩ := mem_map.mp (mem_toFinset.mp hl)
    rw [labelsAfter_eq ht, mem_nextLabels] at ho
    rcases ho with ⟨l', hl', dep, hdep, -, p, hp, rfl⟩ | ⟨s, hs, rfl⟩
    · obtain ⟨d, hd⟩ := hpresent t ht l' hl' dep hdep p hp
      exact ⟨d.label, hmem (graph.target_mem hd), by rw [hd, Option.map_some]⟩
    · exact ⟨s.label, hmem (graph.subrepo_mem t ht s hs), rfl⟩
  have hcard : u.card ≤ graph.targets.length := (toFinset_card_le _).trans (by simp)
  have hfuel : Please.Lib.Reach.unmarked u (memo b.label) < graph.targets.length + 1 :=
    Nat.lt_succ_of_le ((Finset.card_le_card Finset.sdiff_subset).trans hcard)
  obtain ⟨⟨path, seen⟩, hsearch⟩ : ∃ r, search (labelsAfter graph except) (stopsAt graph b)
      (graph.targets.length + 1) (memo b.label) a.label = some r :=
    exists_search hclosed (hmem ha) hfuel
  exact ⟨(path, _), somePathTo_eq_some.mpr ⟨a, b, seen, graph.target_eq_some.mpr ⟨ha, rfl⟩,
    graph.target_eq_some.mpr ⟨hb, rfl⟩, hsearch, rfl⟩⟩

/-- A query with nothing excepted, after queries that have found nothing: if it returns, it finds a
path exactly if there is one in either direction; and it returns if the labels that are provided are
in the graph. -/
theorem somePath_iff_leads (hasked : Asked graph memo) (ha : a ∈ graph.targets)
    (hb : b ∈ graph.targets) :
    (∀ path memo', somePathBetween graph [] memo a.label b.label = some (path, memo') →
      (path ≠ [] ↔ Leads graph a b ∨ Leads graph b a) ∧
        (path ≠ [] → IsPathTo graph b a path ∨ IsPathTo graph a b path)) ∧
      (ProvidesPresent graph →
        ∃ path memo', somePathBetween graph [] memo a.label b.label = some (path, memo')) := by
  refine ⟨fun path memo' h => ?_, fun hpresent => ?_⟩
  · obtain ⟨hiff, hpath, -⟩ := somePathBetween_spec hasked.memoDead ha hb h
    exact ⟨hiff, hpath⟩
  · obtain ⟨⟨path₁, memo₁⟩, h₁⟩ := exists_somePathTo hpresent memo ha hb
    obtain ⟨⟨path₂, memo₂⟩, h₂⟩ := exists_somePathTo hpresent memo₁ hb ha
    rw [somePathBetween, h₁, Option.bind_some]
    cases path₁ with
    | nil => exact ⟨path₂, memo₂, h₂⟩
    | cons l path₁ => exact ⟨l :: path₁, memo₁, rfl⟩

/-- `a` depends on `b`, and that on `c`. -/
def chain : PackageGraph where
  targets := [ruleOf "a" ["b"], ruleOf "b" ["c"], ruleOf "c" [], ruleOf "d" []]

/-- There is no path between `d` and `c`, and after that there is one between `c` and `a`. -/
theorem somePath_iff_leads_chain : ∃ memo,
    somePathBetween chain [] (fun _ => []) ⟨"p", "d", ""⟩ ⟨"p", "c", ""⟩ = some ([], memo) ∧
      (∀ path memo', somePathBetween chain [] memo ⟨"p", "c", ""⟩ ⟨"p", "a", ""⟩ =
          some (path, memo') →
        (path ≠ [] ↔ Leads chain (ruleOf "c" []) (ruleOf "a" ["b"]) ∨
          Leads chain (ruleOf "a" ["b"]) (ruleOf "c" [])) ∧
        (path ≠ [] → IsPathTo chain (ruleOf "a" ["b"]) (ruleOf "c" []) path ∨
          IsPathTo chain (ruleOf "c" []) (ruleOf "a" ["b"]) path)) ∧
      (ProvidesPresent chain → ∃ path memo',
        somePathBetween chain [] memo ⟨"p", "c", ""⟩ ⟨"p", "a", ""⟩ = some (path, memo')) := by
  have hquery : (somePathBetween chain [] (fun _ => []) ⟨"p", "d", ""⟩ ⟨"p", "c", ""⟩).map (·.1) =
      some [] := by decide +kernel
  obtain ⟨⟨path, memo⟩, hmemo, hpath⟩ := Option.map_eq_some_iff.mp hquery
  obtain rfl : path = [] := hpath
  have hc : ruleOf "c" [] ∈ chain.targets := by decide +kernel
  have ha : ruleOf "a" ["b"] ∈ chain.targets := by decide +kernel
  exact ⟨memo, hmemo, somePath_iff_leads (Asked.start.query hmemo) hc ha⟩

/-- `a` depends on `b` and `c`, and `b` provides a label for it that is not there. -/
def dangling : PackageGraph where
  targets :=
    [{ ruleOf "a" ["b", "c"] with requires := ["go"] },
     { ruleOf "b" [] with provides := some (.insert .empty "go" [⟨"p", "gone", ""⟩]) },
     ruleOf "c" []]

/-- The search dies on the label, although `a` leads to `c`. -/
theorem somePathBetween_dangling :
    somePathBetween dangling [] (fun _ => []) ⟨"p", "a", ""⟩ ⟨"p", "c", ""⟩ = none ∧
      Leads dangling { ruleOf "a" ["b", "c"] with requires := ["go"] } (ruleOf "c" []) := by
  refine ⟨by decide +kernel, ruleOf "c" [], .single (.inl ?_), .inl rfl⟩
  decide +kernel

/-! ## Exceptions -/

variable (graph except) in
/-- The search from one label for another, with what `memo` has seen, comes to a label that is
excepted, and the other can be reached from there by labels that were not seen before. -/
def ComesToExcepted (memo : Memo) (label1 label2 : BuildLabel) : Prop :=
  ∃ t2, graph.target label2 = some t2 ∧ stopsAt graph t2 label1 = false ∧ label1 ∉ memo label2 ∧
    ∃ l ∈ except, ∃ seen, Called (labelsAfter graph except) (stopsAt graph t2) graph.targets.length
      (label1 :: memo label2) (labelsAfter graph except label1) seen l ∧
      Open (labelsAfter graph except) (stopsAt graph t2) seen l

theorem somePathTo_except_iff {label1 label2 : BuildLabel}
    (h : somePathTo graph except memo label1 label2 = some (path, memo')) :
    (∀ l ∈ path.tail, l ∉ except) ↔ ¬ ComesToExcepted graph except memo label1 label2 := by
  obtain ⟨t1, t2, seen, -, ht2, hsearch, -⟩ := somePathTo_eq_some.mp h
  constructor
  · rintro hpath ⟨t, ht, hgoal, hnew, l, hl, seen', hcalled⟩
    obtain rfl := Option.some.inj (ht.symm.trans ht2)
    exact hpath l ((mem_tail_iff_called hsearch).mpr ⟨hgoal, hnew, seen', hcalled⟩) hl
  · intro hnot l hmem hl
    obtain ⟨hgoal, hnew, seen', hcalled⟩ := (mem_tail_iff_called hsearch).mp hmem
    exact hnot ⟨t2, ht2, hgoal, hnew, l, hl, seen', hcalled⟩

end search

/-! Below, `a` depends on `d`, which provides `p` for it; with `p` excepted, the path is `a`, `p`.
-/

def providing : PackageGraph where
  targets :=
    [{ ruleOf "a" ["d"] with requires := ["go"] },
     { ruleOf "d" [] with provides := some (.insert .empty "go" [⟨"p", "p", ""⟩]) },
     ruleOf "p" [], ruleOf "x" ["y"], ruleOf "y" []]

end Please.Query
