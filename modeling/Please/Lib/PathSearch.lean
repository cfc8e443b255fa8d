import Please.Lib.Reach

/-!
# Searching for a path, with a memo

A depth-first search for a path to a goal. The points that were seen are kept from one search to the
next: as long as no search has found a path, no goal can be reached from a point that was seen, and
a search that meets one gives up there. A successor `none` stands for one that cannot be looked up;
the search has no result when it comes to it.

* `Dead`: what holds of the points that were seen while nothing was found.
* `search_spec`: what a search returns, and what it leaves.
* `exists_search`: the search ends, if the points stay within a finite set.
-/

namespace Please.Lib.PathSearch

open Please.Lib.Reach (unmarked unmarked_le unmarked_cons_lt)
open List Option

/-- Go through a list, with a state, up to the first element that gives a list that is not empty. -/
def firstM {α β σ : Type*} (f : σ → α → Option (List β × σ)) : σ → List α → Option (List β × σ)
  | s, [] => some ([], s)
  | s, a :: as => (f s a).bind fun r => if r.1.isEmpty then firstM f r.2 as else some r

section firstM

variable {α β γ σ : Type*} {f : σ → α → Option (List β × σ)} {s : σ}

theorem firstM_singleton {a : α} : firstM f s [a] = f s a := by
  have hid (r : List β × σ) : (if r.1.isEmpty then firstM f r.2 [] else some r) = some r := by
    obtain ⟨_ | ⟨b, bs⟩, s'⟩ := r <;> rfl
  rw [firstM, funext hid, bind_fun_some]

theorem firstM_congr {g : σ → α → Option (List β × σ)} {as : List α}
    (h : ∀ a ∈ as, ∀ s, f s a = g s a) : firstM f s as = firstM g s as := by
  induction as generalizing s with
  | nil => rfl
  | cons a as ih =>
    rw [firstM, firstM, h a mem_cons_self]
    refine congrArg _ (funext fun r => ?_)
    rw [ih (forall_mem_cons.mp h).2]

theorem firstM_append {as as' : List α} : firstM f s (as ++ as') =
    (firstM f s as).bind fun r => if r.1.isEmpty then firstM f r.2 as' else some r := by
  induction as generalizing s with
  | nil => simp [firstM]
  | cons a as ih =>
    simp only [cons_append, firstM, bind_assoc]
    refine congrArg _ (funext fun r => ?_)
    cases hr : r.1.isEmpty
    · simp only [hr, Bool.false_eq_true, if_false, bind_some]
    · simp [ih]

theorem firstM_flatMap {g : γ → List α} {cs : List γ} :
    firstM f s (cs.flatMap g) = firstM (fun s c => firstM f s (g c)) s cs := by
  induction cs generalizing s with
  | nil => rfl
  | cons c cs ih =>
    rw [flatMap_cons, firstM_append, firstM]
    simp only [ih]

theorem firstM_map {g : γ → α} {cs : List γ} :
    firstM f s (cs.map g) = firstM (fun s c => f s (g c)) s cs := by
  induction cs generalizing s with
  | nil => rfl
  | cons c cs ih => simp [firstM, ih]

end firstM

variable {α : Type*} (succ : α → List (Option α)) (goal : α → Bool)

/-- `b` is a successor of `a`. -/
def Edge (a b : α) : Prop := some b ∈ succ a

/-- `b` can be reached from `a`. -/
abbrev Reaches : α → α → Prop := Relation.ReflTransGen (Edge succ)

/-- `path` leads along edges from `a` to a goal. -/
inductive IsPath : α → List α → Prop
  | goal {a : α} : goal a = true → IsPath a [a]
  | cons {a b : α} {path : List α} : Edge succ a b → IsPath b path → IsPath a (a :: path)

/-- A goal can be reached from `a` by points that are not among `seen`, unless they are goals. -/
inductive Open (seen : List α) : α → Prop
  | goal {a : α} : goal a = true → Open seen a
  | step {a b : α} : a ∉ seen → Edge succ a b → Open seen b → Open seen a

/-- No goal is among these points, and what they lead to is among them. -/
def Dead (seen : List α) : Prop :=
  ∀ b ∈ seen, goal b = false ∧ ∀ c, Edge succ b c → c ∈ seen

variable {succ goal}

theorem IsPath.reaches {a : α} {path : List α} (h : IsPath succ goal a path) :
    ∃ b, Reaches succ a b ∧ goal b = true := by
  induction h with
  | @goal a hgoal => exact ⟨a, .refl, hgoal⟩
  | cons hedge _ ih =>
    obtain ⟨b, hb, hgoal⟩ := ih
    exact ⟨b, .head hedge hb, hgoal⟩

theorem Open.mono {seen seen' : List α} {a : α} (h : Open succ goal seen' a)
    (hsub : ∀ b ∈ seen, b ∈ seen') : Open succ goal seen a := by
  induction h with
  | goal h => exact .goal h
  | step ha hedge _ ih => exact .step (fun h => ha (hsub _ h)) hedge ih

theorem Dead.not_reaches {seen : List α} (h : Dead succ goal seen) {a b : α} (ha : a ∈ seen)
    (hab : Reaches succ a b) : goal b = false := by
  have hb : b ∈ seen := by
    induction hab with
    | refl => exact ha
    | tail _ hedge ih => exact (h _ ih).2 _ hedge
  exact (h b hb).1

variable [DecidableEq α]

variable (succ goal) in
/-- Search for a path from `a`, with calls nested at most `n` deep: the path, empty if there is
none, and the points that were seen. -/
def search : ℕ → List α → α → Option (List α × List α)
  | 0, _, _ => none
  | n + 1, seen, a =>
    if goal a then some ([a], seen)
    else if a ∈ seen then some ([], seen)
    else (firstM (fun seen o => o.bind (search n seen)) (a :: seen) (succ a)).map fun r =>
      (if r.1.isEmpty then [] else a :: r.1, r.2)

variable (succ goal) in
/-- What a search from one of the points `os` returns and leaves. -/
structure Outcome (os : List (Option α)) (seen : List α) (r : List α × List α) : Prop where
  kept : ∀ b ∈ seen, b ∈ r.2
  path : r.1 ≠ [] → ∃ a, some a ∈ os ∧ IsPath succ goal a r.1 ∧ Open succ goal seen a
  start : r.1 = [] → ∀ a, some a ∈ os → a ∈ r.2 ∧ goal a = false
  dead : r.1 = [] → ∀ b ∈ r.2, b ∈ seen ∨
    goal b = false ∧ ∀ c, Edge succ b c → c ∈ r.2 ∧ goal c = false

variable {os : List (Option α)} {seen : List α} {r : List α × List α} {n : ℕ} {a : α}

omit [DecidableEq α] in
theorem Outcome.dead_of_nil (h : Outcome succ goal os seen r) (hnil : r.1 = [])
    (hseen : Dead succ goal seen) : Dead succ goal r.2 := by
  intro b hb
  rcases h.dead hnil b hb with hb' | hb'
  · exact ⟨(hseen b hb').1, fun c hc => h.kept c ((hseen b hb').2 c hc)⟩
  · exact ⟨hb'.1, fun c hc => (hb'.2 c hc).1⟩

omit [DecidableEq α] in
theorem Outcome.not_open (h : Outcome succ goal os seen r) (hnil : r.1 = []) {a : α}
    (ha : some a ∈ os) : ¬ Open succ goal seen a := by
  have hnot {b : α} (hopen : Open succ goal seen b) : b ∈ r.2 → goal b = false → False := by
    induction hopen with
    | goal hgoal =>
      intro _ hgoal'
      cases hgoal'.symm.trans hgoal
    | step hb hedge _ ih =>
      intro hmem _
      obtain ⟨-, hnext⟩ := (h.dead hnil _ hmem).resolve_left hb
      exact ih (hnext _ hedge).1 (hnext _ hedge).2
  exact fun hopen => hnot hopen (h.start hnil a ha).1 (h.start hnil a ha).2

omit [DecidableEq α] in
/-- Searches from one point after the other. -/
theorem outcome_firstM {f : List α → α → Option (List α × List α)}
    (hf : ∀ a seen r, f seen a = some r → Outcome succ goal [some a] seen r)
    (h : firstM (fun seen o => o.bind (f seen)) seen os = some r) :
      Outcome succ goal os seen r := by
  induction os generalizing seen with
  | nil =>
    obtain rfl := some.inj h
    exact ⟨fun b hb => hb, by simp, by simp, fun _ b hb => .inl hb⟩
  | cons o os ih =>
    obtain ⟨r₁, hr₁, hrest⟩ := bind_eq_some_iff.mp h
    obtain ⟨b, rfl, hb⟩ := bind_eq_some_iff.mp hr₁
    have h₁ := hf b seen r₁ hb
    cases hnil : r₁.1.isEmpty with
    | false =>
      obtain rfl : r₁ = r := by simpa [hnil] using hrest
      have hne : r₁.1 ≠ [] := by simpa using hnil
      obtain ⟨a, ha, hpath⟩ := h₁.path hne
      obtain rfl : a = b := by simpa using ha
      exact ⟨h₁.kept, fun _ => ⟨a, mem_cons_self, hpath⟩, fun hnil => absurd hnil hne,
        fun hnil => absurd hnil hne⟩
    | true =>
      have hnil₁ : r₁.1 = [] := by simpa using hnil
      rw [hnil, if_pos rfl] at hrest
      have h₂ := ih hrest
      refine ⟨fun c hc => h₂.kept c (h₁.kept c hc), fun hne => ?_, fun hnil a ha => ?_,
        fun hnil c hc => ?_⟩
      · obtain ⟨a, ha, hpath, hopen⟩ := h₂.path hne
        exact ⟨a, mem_cons_of_mem _ ha, hpath, hopen.mono h₁.kept⟩
      · rcases mem_cons.mp ha with heq | ha
        · obtain rfl := some.inj heq
          obtain ⟨hmem, hgoal⟩ := h₁.start hnil₁ a mem_cons_self
          exact ⟨h₂.kept a hmem, hgoal⟩
        · exact h₂.start hnil a ha
      · rcases h₂.dead hnil c hc with hc' | hc'
        · rcases h₁.dead hnil₁ c hc' with hc'' | ⟨hgoal, hnext⟩
          · exact .inl hc''
          · exact .inr ⟨hgoal, fun d hd => ⟨h₂.kept d (hnext d hd).1, (hnext d hd).2⟩⟩
        · exact .inr hc'

theorem search_spec (h : search succ goal n seen a = some r) :
    Outcome succ goal [some a] seen r := by
  induction n generalizing seen a r with
  | zero => cases h
  | succ n ih =>
    rw [search] at h
    split at h
    case isTrue hgoal =>
      obtain rfl := some.inj h
      exact ⟨fun b hb => hb, fun _ => ⟨a, mem_cons_self, .goal hgoal, .goal hgoal⟩,
        by simp, by simp⟩
    case isFalse hgoal =>
      split at h
      case isTrue ha =>
        obtain rfl := some.inj h
        exact ⟨fun b hb => hb, by simp, by simpa using ⟨ha, Bool.eq_false_iff.mpr hgoal⟩,
          fun _ b hb => .inl hb⟩
      case isFalse ha =>
        obtain ⟨r', hr', rfl⟩ := map_eq_some_iff.mp h
        have hout : Outcome succ goal (succ a) (a :: seen) r' :=
          outcome_firstM (fun a seen r h => ih h) hr'
        have hkept : ∀ b ∈ seen, b ∈ r'.2 := fun b hb => hout.kept b (mem_cons_of_mem _ hb)
        cases hnil : r'.1.isEmpty with
        | false =>
          have hne : r'.1 ≠ [] := by simpa using hnil
          obtain ⟨b, hb, hpath, hopen⟩ := hout.path hne
          have hopen' : Open succ goal seen b := hopen.mono fun c hc => mem_cons_of_mem _ hc
          exact ⟨hkept, fun _ => ⟨a, mem_cons_self, .cons hb hpath, .step ha hb hopen'⟩, by simp,
            by simp⟩
        | true =>
          have hnil' : r'.1 = [] := by simpa using hnil
          have hmem : a ∈ r'.2 := hout.kept a mem_cons_self
          refine ⟨hkept, by simp, by simpa using ⟨hmem, Bool.eq_false_iff.mpr hgoal⟩,
            fun _ b hb => ?_⟩
          rcases hout.dead hnil' b hb with hb' | hb'
          · rcases mem_cons.mp hb' with rfl | hb'
            · exact .inr ⟨by simpa using hgoal, fun c hc => hout.start hnil' c hc⟩
            · exact .inl hb'
          · exact .inr hb'

/-- While nothing was found, a search finds a path if and only if a goal can be reached. -/
theorem search_ne_nil_iff (hseen : Dead succ goal seen) (h : search succ goal n seen a = some r) :
    r.1 ≠ [] ↔ ∃ b, Reaches succ a b ∧ goal b = true := by
  have hout := search_spec h
  constructor
  · intro hne
    obtain ⟨b, hb, hpath, -⟩ := hout.path hne
    obtain rfl : b = a := by simpa using hb
    exact hpath.reaches
  · rintro ⟨b, hab, hgoal⟩ hnil
    have hnot := (hout.dead_of_nil hnil hseen).not_reaches (hout.start hnil a mem_cons_self).1 hab
    rw [hgoal] at hnot
    cases hnot

/-- A search finds a path exactly if a goal can be reached by points that were not seen before. -/
theorem search_ne_nil_iff_open (h : search succ goal n seen a = some r) :
    r.1 ≠ [] ↔ Open succ goal seen a := by
  have hout := search_spec h
  constructor
  · intro hne
    obtain ⟨b, hb, -, hopen⟩ := hout.path hne
    obtain rfl : b = a := by simpa using hb
    exact hopen
  · exact fun hopen hnil => hout.not_open hnil mem_cons_self hopen

variable (succ goal) in
/-- Searching from one of the points `os` after the other, with the points `seen` to begin with, a
search from `b` is made when the points are `seen'`. -/
inductive Called : ℕ → List α → List (Option α) → List α → α → Prop
  | here {n : ℕ} {seen : List α} {a : α} {os : List (Option α)} :
      Called n seen (some a :: os) seen a
  | next {n : ℕ} {seen s seen' : List α} {a b : α} {os : List (Option α)} :
      search succ goal n seen a = some ([], s) → Called n s os seen' b →
      Called n seen (some a :: os) seen' b
  | inner {n : ℕ} {seen seen' : List α} {a b : α} {os : List (Option α)} :
      goal a = false → a ∉ seen → Called n (a :: seen) (succ a) seen' b →
      Called (n + 1) seen (some a :: os) seen' b

/-- What a search finds, from what the searches from the next points find. -/
theorem mem_search_iff (ha : search succ goal (n + 1) seen a = some r) {b : α}
    (h : ∀ r', firstM (fun seen o => o.bind (search succ goal n seen)) (a :: seen)
      (succ a) = some r' →
      (b ∈ r'.1 ↔ ∃ seen', Called succ goal n (a :: seen) (succ a) seen' b ∧
        Open succ goal seen' b)) :
    b ∈ r.1 ↔ b = a ∧ Open succ goal seen a ∨ goal a = false ∧ a ∉ seen ∧
      ∃ seen', Called succ goal n (a :: seen) (succ a) seen' b ∧ Open succ goal seen' b := by
  rw [← search_ne_nil_iff_open ha]
  rw [search] at ha
  split at ha
  case isTrue hgoal =>
    obtain rfl := some.inj ha
    simp [hgoal]
  case isFalse hgoal =>
    split at ha
    case isTrue hseen =>
      obtain rfl := some.inj ha
      simp [hseen]
    case isFalse hseen =>
      obtain ⟨r', hr', rfl⟩ := map_eq_some_iff.mp ha
      rw [← h r' hr']
      cases hnil : r'.1 <;> simp [hgoal, hseen]

/-- A path goes through the points for which a search is made that leads to a goal. -/
theorem mem_firstM_iff_called
    (h : firstM (fun seen o => o.bind (search succ goal n seen)) seen os = some r) {b : α} :
    b ∈ r.1 ↔ ∃ seen', Called succ goal n seen os seen' b ∧ Open succ goal seen' b := by
  induction n generalizing seen os r with
  | zero =>
    cases os with
    | nil =>
      obtain rfl := some.inj h
      exact iff_of_false not_mem_nil fun ⟨_, hcalled, _⟩ => nomatch hcalled
    | cons o os => cases o <;> cases h
  | succ n ihn =>
    induction os generalizing seen with
    | nil =>
      obtain rfl := some.inj h
      exact iff_of_false not_mem_nil fun ⟨_, hcalled, _⟩ => nomatch hcalled
    | cons o os ih =>
      obtain ⟨r₁, hr₁, hrest⟩ := bind_eq_some_iff.mp h
      obtain ⟨a, rfl, ha⟩ := bind_eq_some_iff.mp hr₁
      have hfirst := mem_search_iff ha (b := b) fun r' hr' => ihn hr'
      cases hnil : r₁.1.isEmpty with
      | true =>
        have hnil' : r₁.1 = [] := by simpa using hnil
        rw [hnil, if_pos rfl] at hrest
        rw [hnil', iff_false_left not_mem_nil] at hfirst
        rw [ih hrest]
        constructor
        · rintro ⟨seen', hcalled, hopen⟩
          exact ⟨seen', .next (by rw [ha, ← hnil']) hcalled, hopen⟩
        · rintro ⟨seen', hcalled, hopen⟩
          cases hcalled with
          | here => exact absurd (.inl ⟨rfl, hopen⟩) hfirst
          | next hsearch hcalled =>
            obtain rfl := some.inj (hsearch.symm.trans ha)
            exact ⟨seen', hcalled, hopen⟩
          | inner hgoal hseen hcalled =>
            exact absurd (.inr ⟨hgoal, hseen, seen', hcalled, hopen⟩) hfirst
      | false =>
        obtain rfl : r₁ = r := by simpa [hnil] using hrest
        rw [hfirst]
        constructor
        · rintro (⟨rfl, hopen⟩ | ⟨hgoal, hseen, seen', hcalled, hopen⟩)
          · exact ⟨seen, .here, hopen⟩
          · exact ⟨seen', .inner hgoal hseen hcalled, hopen⟩
        · rintro ⟨seen', hcalled, hopen⟩
          cases hcalled with
          | here => exact .inl ⟨rfl, hopen⟩
          | next hsearch _ =>
            rw [some.inj (ha.symm.trans hsearch)] at hnil
            cases hnil
          | inner hgoal hseen hcalled => exact .inr ⟨hgoal, hseen, seen', hcalled, hopen⟩

/-- After its first point, a path goes through the points for which a search is made that leads to a
goal. -/
theorem mem_tail_iff_called (h : search succ goal (n + 1) seen a = some r) {b : α} :
    b ∈ r.1.tail ↔ goal a = false ∧ a ∉ seen ∧
      ∃ seen', Called succ goal n (a :: seen) (succ a) seen' b ∧ Open succ goal seen' b := by
  rw [search] at h
  split at h
  case isTrue hgoal =>
    obtain rfl := some.inj h
    simp [hgoal]
  case isFalse hgoal =>
    split at h
    case isTrue hseen =>
      obtain rfl := some.inj h
      simp [hseen]
    case isFalse hseen =>
      obtain ⟨r', hr', rfl⟩ := map_eq_some_iff.mp h
      rw [← mem_firstM_iff_called hr']
      cases hnil : r'.1 <;> simp [hgoal, hseen]

theorem exists_search {u : Finset α} (hu : ∀ a ∈ u, ∀ o ∈ succ a, ∃ b ∈ u, o = some b) (ha : a ∈ u)
    (hn : unmarked u seen < n) : ∃ r, search succ goal n seen a = some r := by
  induction n generalizing seen a with
  | zero => omega
  | succ n ih =>
    rw [search]
    split
    · exact ⟨_, rfl⟩
    · split
      · exact ⟨_, rfl⟩
      case isFalse hnew =>
        have hlt := unmarked_cons_lt ha hnew
        have hfirst : ∀ os : List (Option α), (∀ o ∈ os, ∃ b ∈ u, o = some b) → ∀ seen' : List α,
            unmarked u seen' < n →
            ∃ r, firstM (fun seen o => o.bind (search succ goal n seen)) seen' os = some r := by
          intro os
          induction os with
          | nil => exact fun _ seen' _ => ⟨_, rfl⟩
          | cons o os ih' =>
            intro hos seen' hseen'
            obtain ⟨b, hb, rfl⟩ := hos o mem_cons_self
            obtain ⟨r₁, hr₁⟩ := ih hb hseen'
            rw [firstM, bind_some, hr₁, bind_some]
            split
            · refine ih' (forall_mem_cons.mp hos).2 r₁.2 ?_
              exact (unmarked_le (search_spec hr₁).kept).trans_lt hseen'
            · exact ⟨_, rfl⟩
        obtain ⟨r', hr'⟩ := hfirst (succ a) (hu a ha) (a :: seen) (by omega)
        exact ⟨_, by rw [hr', map_some]⟩

end Please.Lib.PathSearch
