import Mathlib.Data.Finset.Card

/-!
# Breadth-first search

A queue of points with their depths, and the keys of all points that were ever in it. The point at
the head is taken off; if its depth is one at which the search goes on, its successors are recorded,
and those whose keys are new are put at the end.

* `exists_run`: the search ends, if the keys stay within a finite set.
-/

namespace Please.Lib.Bfs

open List

/-- `b` is `n` edges away from `a`, along some walk. -/
inductive Steps {α : Type*} (r : α → α → Prop) (a : α) : ℕ → α → Prop
  | refl : Steps r a 0 a
  | tail {n : ℕ} {b c : α} : Steps r a n b → r b c → Steps r a (n + 1) c

theorem Steps.map {α β : Type*} {r : α → α → Prop} {r' : β → β → Prop} {f : α → β}
    (hf : ∀ a b, r a b → r' (f a) (f b)) {a b : α} {n : ℕ} (h : Steps r a n b) :
    Steps r' (f a) n (f b) := by
  induction h with
  | refl => exact .refl
  | tail _ hbc ih => exact .tail ih (hf _ _ hbc)

theorem Steps.head {α : Type*} {r : α → α → Prop} {a b c : α} {n : ℕ} (hab : r a b)
    (h : Steps r b n c) : Steps r a (n + 1) c := by
  induction h with
  | refl => exact .tail .refl hab
  | tail _ hbc ih => exact .tail ih hbc

theorem Steps.trans {α : Type*} {r : α → α → Prop} {a b c : α} {m n : ℕ} (hab : Steps r a m b)
    (h : Steps r b n c) : Steps r a (m + n) c := by
  induction h with
  | refl => exact hab
  | tail _ hbc ih => exact .tail ih hbc

theorem Steps.exists_head {α : Type*} {r : α → α → Prop} {a c : α} {n : ℕ} (h : Steps r a n c)
    (hn : 0 < n) : ∃ b m, n = m + 1 ∧ r a b ∧ Steps r b m c := by
  induction h with
  | refl => omega
  | @tail n b c h hbc ih =>
    cases n with
    | zero =>
      cases h
      exact ⟨c, 0, rfl, hbc, .refl⟩
    | succ n =>
      obtain ⟨d, m, hm, had, hdb⟩ := ih (Nat.succ_pos n)
      exact ⟨d, m + 1, congrArg _ hm, had, hdb.tail hbc⟩

theorem steps_one_iff {α : Type*} {r : α → α → Prop} {a b : α} : Steps r a 1 b ↔ r a b := by
  constructor
  · rintro (_ | ⟨h, hedge⟩)
    cases h
    exact hedge
  · exact fun h => Steps.refl.tail h

theorem steps_two_iff {α : Type*} {r : α → α → Prop} {a c : α} :
    Steps r a 2 c ↔ ∃ b, r a b ∧ r b c := by
  constructor
  · rintro (_ | ⟨h, hedge⟩)
    exact ⟨_, steps_one_iff.mp h, hedge⟩
  · rintro ⟨b, hb, hc⟩
    exact (Steps.refl.tail hb).tail hc

/-- The queue, the keys of what was in it, and what was recorded. -/
structure Search (α κ : Type*) where
  items : List (α × ℕ) := []
  done : List κ := []
  found : List α := []

section search

variable {α κ : Type*} (key : α → κ) (succ : α → List α)

/-- `t` is a successor of `x`. -/
def Edge (x t : α) : Prop := t ∈ succ x

variable {key succ} in
theorem mem_of_steps {u : Finset κ} (hu : ∀ x, key x ∈ u → ∀ t ∈ succ x, key t ∈ u) {a x : α}
    (ha : key a ∈ u) {n : ℕ} (h : Steps (Edge succ) a n x) : key x ∈ u := by
  induction h with
  | refl => exact ha
  | tail _ hedge ih => exact hu _ ih _ hedge

/-- The successors that have been visited when the points `past` have been dealt with. -/
def edgesOf (expand : ℕ → Bool) (past : List (α × ℕ)) : List (ℕ × α) :=
  past.flatMap fun n => if expand n.2 then (succ n.1).map fun t => (n.2, t) else []

variable {succ} in
theorem mem_edgesOf {expand : ℕ → Bool} {past : List (α × ℕ)} {n : ℕ} {t : α} :
    (n, t) ∈ edgesOf succ expand past ↔
    ∃ x, (x, n) ∈ past ∧ expand n = true ∧ t ∈ succ x := by
  simp only [edgesOf, mem_flatMap, Prod.exists]
  constructor
  · rintro ⟨x, n', hx, h⟩
    split at h
    case isTrue hn =>
      obtain ⟨t', ht', heq⟩ := mem_map.mp h
      cases heq
      exact ⟨x, hx, hn, ht'⟩
    case isFalse => cases h
  · rintro ⟨x, hx, hn, ht⟩
    exact ⟨x, n, hx, by simpa [hn] using ht⟩

/-- What holds of the queue while the successors of a point at depth `d` are visited. `past` are the
points that were at its head, `edges` the successors visited so far, with the depths of the points
they belong to. -/
structure Inv (seeds : List α) (past : List (α × ℕ)) (edges : List (ℕ × α)) (d : ℕ)
    (s : Search α κ) : Prop where
  mem_done : ∀ k, k ∈ s.done ↔ ∃ n ∈ past ++ s.items, key n.1 = k
  nodup : ((past ++ s.items).map fun n => key n.1).Nodup
  nodup_found : s.found.Nodup
  walk : ∀ n ∈ past ++ s.items, ∃ a ∈ seeds, Steps (Edge succ) a n.2 n.1
  mem_found : ∀ t, t ∈ s.found ↔ ∃ n, (n, t) ∈ edges
  next : ∀ e ∈ edges, ∃ m ∈ past ++ s.items, key m.1 = key e.2 ∧ m.2 ≤ e.1 + 1
  low : ∀ n ∈ s.items, d ≤ n.2
  high : ∀ n ∈ past ++ s.items, n.2 ≤ d + 1
  sorted : s.items.Pairwise fun m n => m.2 ≤ n.2

variable {key succ} {expand : ℕ → Bool} {seeds : List α} {past : List (α × ℕ)}
  {edges : List (ℕ × α)} {d : ℕ} {s : Search α κ}

variable (key succ expand) in
/-- What a search that has ended leaves: the points that were in the queue, with their depths. -/
structure Trace (seeds : List α) (past : List (α × ℕ)) (found : List α) : Prop where
  seed : ∀ a ∈ seeds, ∃ n ∈ past, key n.1 = key a ∧ n.2 = 0
  walk : ∀ n ∈ past, ∃ a ∈ seeds, Steps (Edge succ) a n.2 n.1
  next : ∀ n ∈ past, expand n.2 = true → ∀ t ∈ succ n.1, ∃ m ∈ past, key m.1 = key t ∧ m.2 ≤ n.2 + 1
  mem_found : ∀ t, t ∈ found ↔ ∃ n ∈ past, expand n.2 = true ∧ t ∈ succ n.1

variable {found : List α}

/-- If the successors depend on the key alone, a walk along which the search went on has led it to
its end, not later than after as many edges. -/
theorem Trace.exists_past (h : Trace key succ expand seeds past found)
    (hsucc : ∀ x y, key x = key y → succ x = succ y) {a x : α} (ha : a ∈ seeds) {n : ℕ}
    (hwalk : Steps (Edge succ) a n x) (hn : ∀ m < n, expand m = true) :
    ∃ m ∈ past, key m.1 = key x ∧ m.2 ≤ n := by
  induction hwalk with
  | refl =>
    obtain ⟨m, hm, hkey, hzero⟩ := h.seed a ha
    exact ⟨m, hm, hkey, hzero.le⟩
  | tail _ hedge ih =>
    obtain ⟨m, hm, hkey, hle⟩ := ih fun m hm => hn m (hm.trans (Nat.lt_succ_self _))
    have ht := hedge
    rw [Edge, ← hsucc _ _ hkey] at ht
    obtain ⟨m', hm', hkey', hle'⟩ := h.next m hm (hn m.2 (Nat.lt_succ_of_le hle)) _ ht
    exact ⟨m', hm', hkey', hle'.trans (Nat.succ_le_succ hle)⟩

/-- What was recorded when the search ended: the successors of what can be reached by a walk of a
length at which the search goes on. -/
theorem Trace.mem_found_iff (h : Trace key succ expand seeds past found)
    (hsucc : ∀ x y, key x = key y → succ x = succ y)
    (hexpand : ∀ m n, m ≤ n → expand n = true → expand m = true) {t : α} :
    t ∈ found ↔ ∃ a ∈ seeds, ∃ n x, Steps (Edge succ) a n x ∧ expand n = true ∧ t ∈ succ x := by
  rw [h.mem_found]
  constructor
  · rintro ⟨n, hn, hexp, ht⟩
    obtain ⟨a, ha, hwalk⟩ := h.walk n hn
    exact ⟨a, ha, n.2, n.1, hwalk, hexp, ht⟩
  · rintro ⟨a, ha, n, x, hwalk, hn, ht⟩
    obtain ⟨m, hm, hkey, hle⟩ := h.exists_past hsucc ha hwalk fun i hi => hexpand i n hi.le hn
    exact ⟨m, hm, hexpand m.2 n hle hn, hsucc _ _ hkey ▸ ht⟩

variable (key) [DecidableEq κ]

/-- Put a point at the end of the queue, unless one with its key was there before. -/
def push (s : Search α κ) (n : α × ℕ) : Search α κ :=
  if key n.1 ∈ s.done then s else { s with items := s.items ++ [n], done := key n.1 :: s.done }

/-- The queue with the points to start from. -/
def start (seeds : List α) : Search α κ := seeds.foldl (fun s a => push key s (a, 0)) {}

variable {key}

theorem mem_done_push {s : Search α κ} {n : α × ℕ} {k : κ} :
    k ∈ (push key s n).done ↔ k ∈ s.done ∨ key n.1 = k := by
  rw [push]
  split
  case isTrue hmem => exact ⟨.inl, fun h => h.elim id fun h => h ▸ hmem⟩
  case isFalse => rw [mem_cons, or_comm, eq_comm]

theorem mem_of_mem_items_push {n m : α × ℕ} (h : n ∈ (push key s m).items) :
    n ∈ s.items ∨ n = m := by
  rw [push] at h
  split at h
  · exact .inl h
  · exact (mem_append.mp h).imp_right mem_singleton.mp

theorem mem_of_mem_items_start {n : α × ℕ} (h : n ∈ (start key seeds).items) : n.1 ∈ seeds := by
  revert h
  refine foldlRecOn (motive := fun s : Search α κ => n ∈ s.items → n.1 ∈ seeds) seeds _
    (absurd · not_mem_nil) fun s ih a ha h => ?_
  rcases mem_of_mem_items_push h with h | rfl
  · exact ih h
  · exact ha

namespace Inv

/-- A point that is put at the end of the queue. -/
theorem push (h : Inv key succ seeds past edges d s) {n : α × ℕ} (hlow : d ≤ n.2)
    (hhigh : n.2 ≤ d + 1) (hsorted : ∀ m ∈ s.items, m.2 ≤ n.2)
    (hwalk : ∃ a ∈ seeds, Steps (Edge succ) a n.2 n.1) :
    Inv key succ seeds past edges d (push key s n) := by
  rw [Bfs.push]
  split
  case isTrue => exact h
  case isFalse hnew =>
    have hmem {m : α × ℕ} : m ∈ past ++ (s.items ++ [n]) ↔ m ∈ past ++ s.items ∨ m = n := by
      simp [or_assoc]
    refine ⟨fun k => ?_, ?_, h.nodup_found, ?_, h.mem_found, fun e he => ?_, ?_, ?_, ?_⟩
    · rw [mem_cons, h.mem_done]
      constructor
      · rintro (rfl | ⟨m, hm, rfl⟩)
        · exact ⟨n, hmem.mpr (.inr rfl), rfl⟩
        · exact ⟨m, hmem.mpr (.inl hm), rfl⟩
      · rintro ⟨m, hm, rfl⟩
        rcases hmem.mp hm with hm | rfl
        · exact .inr ⟨m, hm, rfl⟩
        · exact .inl rfl
    · rw [← append_assoc, map_append, nodup_append]
      refine ⟨h.nodup, by simp, ?_⟩
      rintro k hk _ hn rfl
      obtain ⟨m, hm, rfl⟩ := mem_map.mp hk
      refine hnew ((h.mem_done _).mpr ⟨m, hm, ?_⟩)
      simpa using hn
    · intro m hm
      rcases hmem.mp hm with hm | rfl
      · exact h.walk m hm
      · exact hwalk
    · obtain ⟨m, hm, hkey⟩ := h.next e he
      exact ⟨m, hmem.mpr (.inl hm), hkey⟩
    · intro m hm
      rcases mem_append.mp hm with hm | hm
      · exact h.low m hm
      · exact mem_singleton.mp hm ▸ hlow
    · intro m hm
      rcases hmem.mp hm with hm | rfl
      · exact h.high m hm
      · exact hhigh
    · rw [pairwise_append]
      refine ⟨h.sorted, by simp, fun m hm m' hm' => ?_⟩
      exact mem_singleton.mp hm' ▸ hsorted m hm

/-- Distinct keys have been in the queue. -/
theorem length_le (h : Inv key succ seeds past edges d s) {u : Finset κ}
    (hseeds : ∀ a ∈ seeds, key a ∈ u) (hu : ∀ x, key x ∈ u → ∀ t ∈ succ x, key t ∈ u) :
    past.length + s.items.length ≤ u.card := by
  have hsub : ((past ++ s.items).map fun n => key n.1).toFinset ⊆ u := by
    intro k hk
    obtain ⟨n, hn, rfl⟩ := mem_map.mp (mem_toFinset.mp hk)
    obtain ⟨a, ha, hwalk⟩ := h.walk n hn
    exact mem_of_steps hu (hseeds a ha) hwalk
  have hcard := Finset.card_le_card hsub
  rw [toFinset_card_of_nodup h.nodup] at hcard
  simpa using hcard

theorem foldl_push (h : Inv key succ seeds [] [] 0 s) (hzero : ∀ n ∈ s.items, n.2 = 0)
    {as : List α} (has : ∀ a ∈ as, a ∈ seeds) :
    Inv key succ seeds [] [] 0 (as.foldl (fun s a => Bfs.push key s (a, 0)) s) ∧
      (∀ n ∈ (as.foldl (fun s a => Bfs.push key s (a, 0)) s).items, n.2 = 0) ∧
      ∀ k, k ∈ (as.foldl (fun s a => Bfs.push key s (a, 0)) s).done ↔
        k ∈ s.done ∨ ∃ a ∈ as, key a = k := by
  induction as generalizing s with
  | nil => exact ⟨h, hzero, by simp⟩
  | cons a as ih =>
    have ha : ∃ b ∈ seeds, Steps (Edge succ) b 0 a := ⟨a, has a mem_cons_self, .refl⟩
    have hpush := h.push (n := (a, 0)) le_rfl (Nat.zero_le _) (fun m hm => (hzero m hm).le) ha
    have hzero' : ∀ n ∈ (Bfs.push key s (a, 0)).items, n.2 = 0 := by
      intro n hn
      rcases mem_of_mem_items_push hn with hn | rfl
      · exact hzero n hn
      · rfl
    obtain ⟨hinv, hzero'', hdone⟩ := ih hpush hzero' (forall_mem_cons.mp has).2
    refine ⟨hinv, hzero'', fun k => (hdone k).trans ?_⟩
    simp [mem_done_push, or_assoc]

theorem start (seeds : List α) : Inv key succ seeds [] [] 0 (Bfs.start key seeds) ∧
    ∀ a ∈ seeds, ∃ n ∈ (Bfs.start key seeds).items, key n.1 = key a ∧ n.2 = 0 := by
  have hempty : Inv key succ seeds [] [] 0 ({} : Search α κ) := by constructor <;> simp
  obtain ⟨hinv, hzero, hdone⟩ := hempty.foldl_push (by simp) fun a (ha : a ∈ seeds) => ha
  refine ⟨hinv, fun a ha => ?_⟩
  obtain ⟨n, hn, hkey⟩ := (hinv.mem_done (key a)).mp ((hdone _).mpr (.inr ⟨a, ha, rfl⟩))
  exact ⟨n, hn, hkey, hzero n hn⟩

end Inv

variable (key succ expand) [DecidableEq α]

/-- Record a successor of a point at depth `d`. -/
def visit (d : ℕ) (s : Search α κ) (t : α) : Search α κ :=
  push key { s with found := s.found.insert t } (t, d + 1)

/-- Deal with the point at the head of the queue, which is gone from it. -/
def advance (x : α) (d : ℕ) (s : Search α κ) : Search α κ :=
  if expand d then (succ x).foldl (visit key d) s else s

/-- Go on until the queue is empty. -/
def run : ℕ → Search α κ → Option (Search α κ)
  | _, ⟨[], done, found⟩ => some ⟨[], done, found⟩
  | 0, _ => none
  | n + 1, ⟨(x, d) :: items, done, found⟩ =>
      run n (advance key succ expand x d ⟨items, done, found⟩)

/-- A point comes to the head of the queue. -/
inductive Pops : Search α κ → α × ℕ → Prop
  | head {n : α × ℕ} {items : List (α × ℕ)} {done : List κ} {found : List α} :
      Pops ⟨n :: items, done, found⟩ n
  | step {x : α} {d : ℕ} {n : α × ℕ} {items : List (α × ℕ)} {done : List κ} {found : List α} :
      Pops (advance key succ expand x d ⟨items, done, found⟩) n →
      Pops ⟨(x, d) :: items, done, found⟩ n

variable {key succ expand}

theorem visit_eq {t : α} : visit key d s t =
    { push key s (t, d + 1) with found := s.found.insert t } := by
  rw [visit, push, push]
  split <;> rfl

namespace Inv

/-- A successor of a point at depth `d`. -/
theorem visit (h : Inv key succ seeds past edges d s) {t : α}
    (hwalk : ∃ a ∈ seeds, Steps (Edge succ) a (d + 1) t) :
    Inv key succ seeds past (edges ++ [(d, t)]) d (visit key d s t) := by
  have hpush : Inv key succ seeds past edges d (Bfs.push key s (t, d + 1)) :=
    h.push (Nat.le_succ d) le_rfl (fun m hm => h.high m (mem_append_right _ hm)) hwalk
  have hdone : key t ∈ (Bfs.push key s (t, d + 1)).done := mem_done_push.mpr (.inr rfl)
  rw [visit_eq]
  refine ⟨hpush.mem_done, hpush.nodup, h.nodup_found.insert, hpush.walk, fun t' => ?_,
    fun e he => ?_, hpush.low, hpush.high, hpush.sorted⟩
  · rw [mem_insert_iff, h.mem_found]
    simp [or_comm, exists_or]
  · rcases mem_append.mp he with he | he
    · exact hpush.next e he
    · obtain rfl := mem_singleton.mp he
      obtain ⟨m, hm, hkey⟩ := (hpush.mem_done _).mp hdone
      exact ⟨m, hm, hkey, hpush.high m hm⟩

theorem foldl_visit (h : Inv key succ seeds past edges d s) {ts : List α}
    (hwalk : ∀ t ∈ ts, ∃ a ∈ seeds, Steps (Edge succ) a (d + 1) t) :
    Inv key succ seeds past (edges ++ ts.map fun t => (d, t)) d (ts.foldl (Bfs.visit key d) s) := by
  induction ts generalizing s edges with
  | nil => simpa using h
  | cons t ts ih =>
    have ht := h.visit (hwalk t mem_cons_self)
    simpa using ih ht fun t' ht' => hwalk t' (mem_cons_of_mem _ ht')

/-- Taking a point off the queue. -/
theorem advance {x : α} {items : List (α × ℕ)} {n : ℕ} {done : List κ} {found : List α}
    (h : Inv key succ seeds past (edgesOf succ expand past) d ⟨(x, n) :: items, done, found⟩) :
    Inv key succ seeds (past ++ [(x, n)]) (edgesOf succ expand (past ++ [(x, n)])) n
      (advance key succ expand x n ⟨items, done, found⟩) := by
  have hle : d ≤ n := h.low (x, n) mem_cons_self
  obtain ⟨hhead, hsorted⟩ := pairwise_cons.mp h.sorted
  have hpop : Inv key succ seeds (past ++ [(x, n)]) (edgesOf succ expand past) n
      ⟨items, done, found⟩ := by
    have happend : (past ++ [(x, n)]) ++ items = past ++ (x, n) :: items := by simp
    refine ⟨?_, ?_, h.nodup_found, ?_, h.mem_found, ?_, hhead, ?_, hsorted⟩
    · rw [happend]; exact h.mem_done
    · rw [happend]; exact h.nodup
    · rw [happend]; exact h.walk
    · rw [happend]; exact h.next
    · rw [happend]
      intro m hm
      exact (h.high m hm).trans (Nat.succ_le_succ hle)
  have hedges : edgesOf succ expand (past ++ [(x, n)]) = edgesOf succ expand past ++
      if expand n then (succ x).map fun t => (n, t) else [] := by
    simp [edgesOf]
  rw [Bfs.advance, hedges]
  split
  case isTrue =>
    refine hpop.foldl_visit fun t ht => ?_
    obtain ⟨a, ha, hwalk⟩ := h.walk (x, n) (by simp)
    exact ⟨a, ha, hwalk.tail ht⟩
  case isFalse => simpa using hpop

end Inv

/-- What is in the queue stays until it is at its head. -/
theorem mem_items_advance {x : α} {n : ℕ} {m : α × ℕ} (h : m ∈ s.items) :
    m ∈ (advance key succ expand x n s).items := by
  rw [advance]
  split
  · refine foldlRecOn (motive := fun s : Search α κ => m ∈ s.items) _ _ h fun s h t _ => ?_
    rw [visit_eq, push]
    split
    · exact h
    · exact mem_append_left _ h
  · exact h

/-- Only successors come into the queue. -/
theorem mem_of_mem_items_advance {x : α} {n : ℕ} {m : α × ℕ}
    (h : m ∈ (advance key succ expand x n s).items) : m ∈ s.items ∨ m.1 ∈ succ x := by
  rw [advance] at h
  split at h
  · revert h
    refine foldlRecOn (motive := fun s' : Search α κ => m ∈ s'.items → m ∈ s.items ∨ m.1 ∈ succ x)
      _ _ .inl fun s' ih t ht h => ?_
    rw [visit_eq] at h
    rcases mem_of_mem_items_push h with h | rfl
    · exact ih h
    · exact .inr ht
  · exact .inl h

theorem run_inv {fuel : ℕ} {s' : Search α κ} (hrun : run key succ expand fuel s = some s')
    (h : Inv key succ seeds past (edgesOf succ expand past) d s) :
    ∃ past' d', Inv key succ seeds past' (edgesOf succ expand past') d' s' ∧
      s'.items = [] ∧ (∀ m ∈ past ++ s.items, m ∈ past') ∧
      ∀ m, m ∈ past' ↔ m ∈ past ∨ Pops key succ expand s m := by
  fun_induction run key succ expand fuel s generalizing past d with
  | case1 =>
    obtain rfl := Option.some.inj hrun
    refine ⟨past, d, h, rfl, by simp, fun m => ⟨.inl, fun hm => hm.elim id nofun⟩⟩
  | case2 => cases hrun
  | case3 fuel x n items done found ih =>
    obtain ⟨past', d', hinv, hitems, hsub, hpops⟩ := ih hrun h.advance
    refine ⟨past', d', hinv, hitems, fun m hm => hsub m ?_, fun m => ?_⟩
    · simp only [mem_append, mem_cons, not_mem_nil, or_false] at hm ⊢
      rcases hm with hm | rfl | hm
      · exact .inl (.inl hm)
      · exact .inl (.inr rfl)
      · exact .inr (mem_items_advance hm)
    · rw [hpops, mem_append, mem_singleton, or_assoc]
      refine or_congr_right ⟨?_, fun hm => ?_⟩
      · rintro (rfl | hm)
        · exact .head
        · exact .step hm
      · cases hm with
        | head => exact .inl rfl
        | step hm => exact .inr hm

section bounded

variable {u : Finset κ} (hseeds : ∀ a ∈ seeds, key a ∈ u)
  (hu : ∀ x, key x ∈ u → ∀ t ∈ succ x, key t ∈ u)
include hseeds hu

theorem exists_run_of_inv {fuel : ℕ} (hfuel : u.card ≤ fuel + past.length)
    (h : Inv key succ seeds past (edgesOf succ expand past) d s) :
    ∃ s', run key succ expand fuel s = some s' := by
  induction fuel generalizing s past d with
  | zero =>
    have hlen := h.length_le hseeds hu
    obtain ⟨_ | ⟨⟨x, n⟩, items⟩, done, found⟩ := s
    · exact ⟨_, rfl⟩
    · simp only [length_cons] at hlen
      omega
  | succ _ ih =>
    obtain ⟨_ | ⟨⟨x, n⟩, items⟩, done, found⟩ := s
    · exact ⟨_, rfl⟩
    · refine ih ?_ h.advance
      simp only [length_append, length_singleton]
      omega

theorem exists_run {fuel : ℕ} (hfuel : u.card ≤ fuel) :
    ∃ s, run key succ expand fuel (start key seeds) = some s := by
  have h : Inv key succ seeds [] (edgesOf succ expand []) 0 (start key seeds) := (Inv.start seeds).1
  exact exists_run_of_inv hseeds hu (hfuel.trans (Nat.le_add_right _ _)) h

end bounded

variable {fuel : ℕ} (hrun : run key succ expand fuel (start key seeds) = some s)
include hrun

theorem exists_trace : ∃ past, Trace key succ expand seeds past s.found ∧
    ∀ n, n ∈ past ↔ Pops key succ expand (start key seeds) n := by
  obtain ⟨hstart, hseeds⟩ : Inv key succ seeds [] (edgesOf succ expand []) 0 (start key seeds) ∧
      ∀ a ∈ seeds, ∃ n ∈ (start key seeds).items, key n.1 = key a ∧ n.2 = 0 := Inv.start seeds
  obtain ⟨past, d, h, hitems, hsub, hpops⟩ := run_inv hrun hstart
  refine ⟨past, ⟨fun a ha => ?_, fun n hn => h.walk n (mem_append_left _ hn),
    fun n hn hexpand t ht => ?_, fun t => (h.mem_found t).trans ?_⟩, fun n => by simp [hpops]⟩
  · obtain ⟨n, hn, hkey⟩ := hseeds a ha
    exact ⟨n, hsub n hn, hkey⟩
  · obtain ⟨m, hm, hkey⟩ := h.next (n.2, t) (mem_edgesOf.mpr ⟨n.1, hn, hexpand, ht⟩)
    rw [hitems, append_nil] at hm
    exact ⟨m, hm, hkey⟩
  · simp only [mem_edgesOf, Prod.exists]
    exact ⟨fun ⟨n, x, h⟩ => ⟨x, n, h⟩, fun ⟨x, n, h⟩ => ⟨n, x, h⟩⟩

theorem nodup_found : s.found.Nodup := by
  have hstart : Inv key succ seeds [] (edgesOf succ expand []) 0 (start key seeds) :=
    (Inv.start seeds).1
  obtain ⟨past, d, h, -⟩ := run_inv hrun hstart
  exact h.nodup_found

end search

end Please.Lib.Bfs
