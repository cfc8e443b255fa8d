import Please.Lib.Bfs

/-!
# Depth-first marking with a bound on the depth

The points of a list are gone through in order; one that is not marked yet is marked, and its own
successors are gone through with one level less. A point is marked once, at the level at which it
was met first, so what it leads to may be cut off although a shorter walk would have come further.
Successors `none` cannot be looked up; the marking has no result when it has to go through them.

* `Comes`: the points that the marking comes to, with the levels that are left there.
* `go_eq_none_iff`, `marks_of_go`: when there is a result, and what is marked.
* `comes_or_lost`: what is within the bound and not marked is behind a point that was cut off.
-/

namespace Please.Lib.DepthBounded

open Please.Lib.Bfs (Steps)
open List Option

variable {α : Type*} [DecidableEq α] (succ : α → Option (List α))

/-- Mark what `a` leads to, with `n` levels left. -/
def explore : ℕ → List α → α → Option (List α)
  | 0, marked, _ => some marked
  | n + 1, marked, a => (succ a).bind fun bs => bs.foldlM (fun marked b =>
      if b ∈ marked then some marked else explore n (b :: marked) b) marked

/-- Mark a point that is not marked yet, and what it leads to. -/
def visit (n : ℕ) (marked : List α) (b : α) : Option (List α) :=
  if b ∈ marked then some marked else explore succ n (b :: marked) b

/-- Mark the points of a list and what they lead to. -/
def go (n : ℕ) (marked as : List α) : Option (List α) := as.foldlM (visit succ n) marked

omit [DecidableEq α] in
/-- `b` is a successor of `a`. -/
def Next (a b : α) : Prop := ∃ bs, succ a = some bs ∧ b ∈ bs

/-- Going through a list with `n` levels left, `b` is marked when `m` levels are left. -/
inductive Comes : ℕ → List α → List α → ℕ → α → Prop
  | here {n : ℕ} {marked as : List α} {b : α} : b ∉ marked → Comes n marked (b :: as) n b
  | inner {n m : ℕ} {marked as bs : List α} {a b : α} : a ∉ marked → succ a = some bs →
      Comes n (a :: marked) bs m b → Comes (n + 1) marked (a :: as) m b
  | next {n m : ℕ} {marked marked' as : List α} {a b : α} : visit succ n marked a = some marked' →
      Comes n marked' as m b → Comes n marked (a :: as) m b

variable {succ} {n : ℕ} {marked marked' as : List α} {a b : α}

theorem explore_succ : explore succ (n + 1) marked a = (succ a).bind (go succ n marked) := rfl

@[simp]
theorem go_nil : go succ n marked [] = some marked := rfl

@[simp]
theorem go_cons : go succ n marked (a :: as) =
    (visit succ n marked a).bind fun marked => go succ n marked as := by
  rw [go, foldlM_cons]
  rfl

/-- Nothing comes of a point that is marked, or when no levels are left. -/
theorem comes_cons {m : ℕ} : Comes succ n marked (a :: as) m b ↔
    (a ∉ marked ∧ (m = n ∧ b = a ∨ ∃ k bs, n = k + 1 ∧ succ a = some bs ∧
      Comes succ k (a :: marked) bs m b)) ∨
    ∃ marked', visit succ n marked a = some marked' ∧ Comes succ n marked' as m b := by
  constructor
  · intro h
    cases h with
    | here h => exact .inl ⟨h, .inl ⟨rfl, rfl⟩⟩
    | inner h hs hc => exact .inl ⟨h, .inr ⟨_, _, rfl, hs, hc⟩⟩
    | next hv hc => exact .inr ⟨_, hv, hc⟩
  · rintro (⟨h, ⟨rfl, rfl⟩ | ⟨k, bs, rfl, hs, hc⟩⟩ | ⟨marked', hv, hc⟩)
    · exact .here h
    · exact .inner h hs hc
    · exact .next hv hc

theorem not_comes_nil {m : ℕ} : ¬ Comes succ n marked [] m b := nofun

theorem visit_eq_none_iff : visit succ n marked a = none ↔ a ∉ marked ∧ ∃ k, n = k + 1 ∧
    (succ a = none ∨ ∃ bs, succ a = some bs ∧ go succ k (a :: marked) bs = none) := by
  rw [visit]
  split_ifs with ha
  · simp [ha]
  · cases n with
    | zero => simp [explore]
    | succ k =>
      rw [explore_succ]
      cases hs : succ a <;> simp [ha]

/-- There is no result exactly if the marking comes to a point that it cannot look up. -/
theorem go_eq_none_iff : go succ n marked as = none ↔
    ∃ m b, Comes succ n marked as (m + 1) b ∧ succ b = none := by
  induction n using Nat.strongRecOn generalizing marked as with
  | ind n ihn =>
    induction as generalizing marked with
    | nil => simp [not_comes_nil]
    | cons a as ih =>
      have hgo : go succ n marked (a :: as) = none ↔ visit succ n marked a = none ∨
          ∃ marked', visit succ n marked a = some marked' ∧ go succ n marked' as = none := by
        rw [go_cons]
        cases visit succ n marked a <;> simp
      rw [hgo, visit_eq_none_iff]
      simp only [ih, comes_cons]
      constructor
      · rintro (⟨ha, k, rfl, hs | ⟨bs, hs, hnone⟩⟩ | ⟨marked', hv, m, b, hc, hb⟩)
        · exact ⟨k, a, .inl ⟨ha, .inl ⟨rfl, rfl⟩⟩, hs⟩
        · obtain ⟨m, b, hc, hb⟩ := (ihn k (Nat.lt_succ_self k)).mp hnone
          exact ⟨m, b, .inl ⟨ha, .inr ⟨k, bs, rfl, hs, hc⟩⟩, hb⟩
        · exact ⟨m, b, .inr ⟨marked', hv, hc⟩, hb⟩
      · rintro ⟨m, b, ⟨ha, ⟨rfl, rfl⟩ | ⟨k, bs, rfl, hs, hc⟩⟩ | ⟨marked', hv, hc⟩, hb⟩
        · exact .inl ⟨ha, m, rfl, .inl hb⟩
        · exact .inl ⟨ha, k, rfl, .inr ⟨bs, hs, (ihn k (Nat.lt_succ_self k)).mpr ⟨m, b, hc, hb⟩⟩⟩
        · exact .inr ⟨marked', hv, m, b, hc, hb⟩

variable (succ) in
/-- What is marked after going through a list. -/
structure Marks (n : ℕ) (marked as marked' : List α) : Prop where
  kept : ∀ b ∈ marked, b ∈ marked'
  nodup : marked.Nodup → marked'.Nodup
  mem : ∀ b ∈ as, b ∈ marked'
  new : ∀ b ∈ marked', b ∉ marked → ∃ m, Comes succ n marked as m b ∧
    (m = 0 ∨ ∃ bs, succ b = some bs ∧ ∀ c ∈ bs, c ∈ marked')
  comes : ∀ m b, Comes succ n marked as m b → b ∈ marked' ∧ b ∉ marked ∧
    ∃ i, ∃ a ∈ as, i + m = n ∧ Steps (Next succ) a i b

/-- One point, from what is marked below it. -/
theorem marks_visit (hv : visit succ n marked a = some marked')
    (hbelow : ∀ k bs, n = k + 1 → succ a = some bs → go succ k (a :: marked) bs = some marked' →
      Marks succ k (a :: marked) bs marked') : Marks succ n marked [a] marked' := by
  rw [visit] at hv
  split_ifs at hv with ha
  · obtain rfl := some.inj hv
    refine ⟨fun b hb => hb, id, by simpa using ha, fun b hb hnew =>
      absurd hb hnew, fun m b hc => ?_⟩
    rcases comes_cons.mp hc with ⟨hnew, -⟩ | ⟨_, -, hc⟩
    · exact absurd ha hnew
    · exact absurd hc not_comes_nil
  · cases n with
    | zero =>
      obtain rfl := some.inj hv
      refine ⟨fun b => mem_cons_of_mem _, nodup_cons.mpr ∘ .intro ha, by simp, fun b hb hnew => ?_,
        fun m b hc => ?_⟩
      · obtain rfl := (mem_cons.mp hb).resolve_right hnew
        exact ⟨0, .here ha, .inl rfl⟩
      · obtain ⟨-, ⟨rfl, rfl⟩ | ⟨k, _, hk, -⟩⟩ | ⟨_, -, hc⟩ := comes_cons.mp hc
        · exact ⟨mem_cons_self, ha, 0, b, mem_singleton.mpr rfl, rfl, .refl⟩
        · cases hk
        · exact absurd hc not_comes_nil
    | succ k =>
      rw [explore_succ] at hv
      obtain ⟨bs, hs, hgo⟩ := bind_eq_some_iff.mp hv
      have h := hbelow k bs rfl hs hgo
      refine ⟨fun b hb => h.kept b (mem_cons_of_mem _ hb), fun hn =>
        h.nodup (nodup_cons.mpr ⟨ha, hn⟩),
        by simpa using h.kept a mem_cons_self, fun b hb hnew => ?_, fun m b hc => ?_⟩
      · by_cases hba : b = a
        · subst hba
          exact ⟨k + 1, .here ha, .inr ⟨bs, hs, h.mem⟩⟩
        · obtain ⟨m, hc, hnext⟩ := h.new b hb (by simp [hba, hnew])
          exact ⟨m, .inner ha hs hc, hnext⟩
      · obtain ⟨-, ⟨rfl, rfl⟩ | ⟨k', bs', hk, hs', hc⟩⟩ | ⟨_, -, hc⟩ := comes_cons.mp hc
        · exact ⟨h.kept b mem_cons_self, ha, 0, b, mem_singleton.mpr rfl, by omega, .refl⟩
        · obtain rfl := Nat.succ.inj hk
          rw [hs, some.injEq] at hs'
          subst hs'
          obtain ⟨hmem, hnew, i, c, hc, hi, hsteps⟩ := h.comes m b hc
          refine ⟨hmem, fun hb => hnew (mem_cons_of_mem _ hb), i + 1, a, mem_singleton.mpr rfl,
            by omega, ?_⟩
          exact .head ⟨bs, hs, hc⟩ hsteps
        · exact absurd hc not_comes_nil

/-- One point after another. -/
theorem Marks.cons {marked'' : List α} (h : Marks succ n marked [a] marked')
    (hv : visit succ n marked a = some marked') (h' : Marks succ n marked' as marked'') :
    Marks succ n marked (a :: as) marked'' := by
  have hfirst {m : ℕ} {b : α} : Comes succ n marked [a] m b ↔ a ∉ marked ∧ (m = n ∧ b = a ∨
      ∃ k bs, n = k + 1 ∧ succ a = some bs ∧ Comes succ k (a :: marked) bs m b) := by
    rw [comes_cons, or_iff_left]
    exact fun ⟨_, _, hc⟩ => not_comes_nil hc
  refine ⟨fun b hb => h'.kept b (h.kept b hb), fun hn => h'.nodup (h.nodup hn), ?_,
    fun b hb hnew => ?_,
    fun m b hc => ?_⟩
  · exact forall_mem_cons.mpr ⟨h'.kept a (h.mem a mem_cons_self), h'.mem⟩
  · by_cases hb' : b ∈ marked'
    · obtain ⟨m, hc, hnext⟩ := h.new b hb' hnew
      exact ⟨m, comes_cons.mpr (.inl (hfirst.mp hc)),
        hnext.imp_right fun ⟨bs, hs, hnext⟩ => ⟨bs, hs, fun c hc => h'.kept c (hnext c hc)⟩⟩
    · obtain ⟨m, hc, hnext⟩ := h'.new b hb hb'
      exact ⟨m, .next hv hc, hnext⟩
  · rcases comes_cons.mp hc with hc | ⟨marked₁, hv₁, hc⟩
    · obtain ⟨hmem, hnew, i, c, hc, hsteps⟩ := h.comes m b (hfirst.mpr hc)
      exact ⟨h'.kept b hmem, hnew, i, c, mem_cons.mpr (.inl (mem_singleton.mp hc)), hsteps⟩
    · obtain rfl := some.inj (hv.symm.trans hv₁)
      obtain ⟨hmem, hnew, i, c, hc, hsteps⟩ := h'.comes m b hc
      exact ⟨hmem, fun hb => hnew (h.kept b hb), i, c, mem_cons_of_mem _ hc, hsteps⟩

theorem marks_of_go (h : go succ n marked as = some marked') : Marks succ n marked as marked' := by
  induction n using Nat.strongRecOn generalizing marked as marked' with
  | ind n ihn =>
    induction as generalizing marked with
    | nil =>
      obtain rfl := some.inj h
      exact ⟨fun b hb => hb, id, by simp, fun b hb hnew => absurd hb hnew,
        fun m b hc => absurd hc not_comes_nil⟩
    | cons a as ih =>
      rw [go_cons] at h
      obtain ⟨marked₁, hv, hgo⟩ := bind_eq_some_iff.mp h
      exact (marks_visit hv fun k bs hk _ hgo => ihn k (by omega) hgo).cons hv (ih hgo)

/-- The marking comes to a point. -/
def ComesTo (succ : α → Option (List α)) (n : ℕ) (as : List α) (b : α) : Prop :=
  ∃ m, Comes succ n [] as m b

theorem mem_marked_iff (h : go succ n [] as = some marked') : b ∈ marked' ↔
    ComesTo succ n as b := by
  have hmarks := marks_of_go h
  constructor
  · intro hb
    obtain ⟨m, hb, -⟩ := hmarks.new b hb not_mem_nil
    exact ⟨m, hb⟩
  · rintro ⟨m, hb⟩
    exact (hmarks.comes m b hb).1

/-- The marking is cut off at a point: it comes there first with no levels left, although a shorter
walk along `r` leads there. -/
def Cut (succ : α → Option (List α)) (r : α → α → Prop) (n : ℕ) (as : List α) (b : α) : Prop :=
  Comes succ n [] as 0 b ∧ ∃ i < n, ∃ a ∈ as, Steps r a i b

/-- The marking does not come to `t`, which is within the bound by way of a point where it is cut
off. -/
def Lost (succ : α → Option (List α)) (r : α → α → Prop) (n : ℕ) (as : List α) (t : α) : Prop :=
  ¬ ComesTo succ n as t ∧ ∃ b, Comes succ n [] as 0 b ∧ ∃ i j, 0 < j ∧ i + j ≤ n ∧
    (∃ a ∈ as, Steps r a i b) ∧ Steps r b j t

theorem Lost.exists_steps {r : α → α → Prop} (h : Lost succ r n as b) :
    ∃ i ≤ n, ∃ a ∈ as, Steps r a i b := by
  obtain ⟨-, _, -, i, j, -, hle, ⟨a, ha, hwalk⟩, hwalk'⟩ := h
  exact ⟨i + j, hle, a, ha, hwalk.trans hwalk'⟩

theorem Lost.exists_cut {r : α → α → Prop} (h : Lost succ r n as b) : ∃ c, Cut succ r n as c := by
  obtain ⟨-, c, hc, i, j, hj, hle, hwalk, -⟩ := h
  exact ⟨c, hc, i, by omega, hwalk⟩

section walk

variable {r : α → α → Prop} (hr : ∀ a bs, succ a = some bs → ∀ b, r a b ↔ b ∈ bs)
  (h : go succ n [] as = some marked')
include hr h

theorem ComesTo.exists_steps (hb : ComesTo succ n as b) : ∃ i ≤ n, ∃ a ∈ as, Steps r a i b := by
  obtain ⟨m, hb⟩ := hb
  obtain ⟨-, -, i, a, ha, hi, hsteps⟩ := (marks_of_go h).comes m b hb
  refine ⟨i, by omega, a, ha, hsteps.map (f := id) fun c d ⟨bs, hs, hd⟩ => ?_⟩
  exact (hr c bs hs d).mpr hd

/-- What is within the bound is marked, or lost. -/
theorem comes_or_lost {i : ℕ} (hi : i ≤ n) (ha : a ∈ as) (hsteps : Steps r a i b) :
    ComesTo succ n as b ∨ Lost succ r n as b := by
  have hmarks := marks_of_go h
  have hcomes {c : α} (hc : c ∈ marked') : ComesTo succ n as c := (mem_marked_iff h).mp hc
  -- the detour by the point that was cut off is no longer than the walk
  suffices hdetour : ComesTo succ n as b ∨ ¬ ComesTo succ n as b ∧ ∃ c, Comes succ n [] as 0 c ∧
      ∃ i' j, 0 < j ∧ i' + j ≤ i ∧ (∃ a ∈ as, Steps r a i' c) ∧ Steps r c j b by
    rcases hdetour with hb | ⟨hnot, c, hc, i', j, hj, hle, hwalk⟩
    · exact .inl hb
    · exact .inr ⟨hnot, c, hc, i', j, hj, hle.trans hi, hwalk⟩
  induction hsteps with
  | refl => exact .inl (hcomes (hmarks.mem a ha))
  | @tail i c b hsteps hedge ih =>
    refine or_iff_not_imp_left.mpr fun hnot => ⟨hnot, ?_⟩
    rcases ih (Nat.le_of_succ_le hi) with ⟨m, hc⟩ | ⟨-, d, hd, i', j, hj, hle, hwalk, hwalk'⟩
    · obtain ⟨m, hc, rfl | ⟨bs, hs, hnext⟩⟩ := hmarks.new c (hmarks.comes m c hc).1 not_mem_nil
      · exact ⟨c, hc, i, 1, Nat.one_pos, le_rfl, ⟨a, ha, hsteps⟩, .tail .refl hedge⟩
      · exact absurd (hcomes (hnext b ((hr c bs hs b).mp hedge))) hnot
    · exact ⟨d, hd, i', j + 1, Nat.succ_pos j, Nat.succ_le_succ hle, hwalk, hwalk'.tail hedge⟩

end walk

end Please.Lib.DepthBounded
