import Please.Lib.Except
import Mathlib.Data.Fintype.EquivFin

/-!
# Recursion along a relation, without marks

A function that calls itself for every point that the current one leads to, and keeps no record of
where it has been, ends if and only if the relation is well founded below the point it starts from;
on a finite set, if and only if no cycle can be reached.

* `unfolding`: a point is replaced by what it leads to, again and again; a point among those that it
  leads to itself stays.
* `exists_unfolding`, `acc_of_unfolding`: when this ends.
-/

namespace Please.Lib.Unfolding

open List Relation

variable {α : Type}

/-! ## Relations -/

section relation

variable {r : α → α → Prop} {a b : α}

/-- What is accessible leads to no cycle. -/
theorem not_transGen_of_acc (h : Acc (flip r) a) (hab : ReflTransGen r a b) :
    ¬TransGen r b b := by
  have hb : Acc (flip r) b := by
    induction hab with
    | refl => exact h
    | tail _ hbc ih => exact ih.inv hbc
  have hirrefl : ∀ c, Acc (flip r) c → ¬TransGen r c c := by
    intro c hc
    induction hc with
    | intro c _ ih =>
      intro hcycle
      obtain ⟨d, hcd, hdc⟩ := TransGen.head'_iff.mp hcycle
      exact ih d hcd (.tail' hdc hcd)
  exact hirrefl b hb

/-- In a finite set that no edge leaves, and without a cycle, every point is accessible. -/
theorem acc_of_finite {u : Finset α} (hu : ∀ a ∈ u, ∀ b, r a b → b ∈ u)
    (hcycle : ∀ a ∈ u, ¬TransGen r a a) (ha : a ∈ u) : Acc (flip r) a := by
  let below (x y : { a // a ∈ u }) : Prop := TransGen r y.1 x.1
  have hirrefl : Std.Irrefl below := ⟨fun x => hcycle x.1 x.2⟩
  have hwf : WellFounded below := Finite.wellFounded_of_trans_of_irrefl below
  have hacc : ∀ x : { a // a ∈ u }, Acc (flip r) x.1 := by
    intro x
    induction x using hwf.induction with
    | _ x ih => exact ⟨_, fun b hb => ih ⟨b, hu x.1 x.2 b hb⟩ (.single hb)⟩
  exact hacc ⟨a, ha⟩

end relation

/-- What holds from some number on for each element of a list, holds from some number on for all. -/
theorem exists_forall_of_forall_exists {P : α → ℕ → Prop} {as : List α}
    (h : ∀ a ∈ as, ∃ n, ∀ m, n ≤ m → P a m) : ∃ n, ∀ m, n ≤ m → ∀ a ∈ as, P a m := by
  induction as with
  | nil => exact ⟨0, by simp⟩
  | cons a as ih =>
    obtain ⟨n₁, h₁⟩ := h a mem_cons_self
    obtain ⟨n₂, h₂⟩ := ih (forall_mem_cons.mp h).2
    refine ⟨max n₁ n₂, fun m hm => forall_mem_cons.mpr ⟨h₁ m ?_, h₂ m ?_⟩⟩
    · exact (le_max_left _ _).trans hm
    · exact (le_max_right _ _).trans hm

/-! ## Unfolding -/

section unfolding

variable [DecidableEq α] (step : α → Option (List α))

/-- Replace a point by what it leads to, with calls nested at most `n` deep. -/
def unfolding : ℕ → α → Option (List α)
  | 0, _ => none
  | n + 1, a =>
    (step a).bind fun bs =>
      (bs.mapM fun b => if b = a then some [b] else unfolding n b).map List.flatten

omit [DecidableEq α] in
/-- `a` leads to another point `b`. -/
def Leads (a b : α) : Prop := ∃ bs, step a = some bs ∧ b ∈ bs ∧ b ≠ a

omit [DecidableEq α] in
/-- `a` stays. -/
def Stays (a : α) : Prop := ∃ bs, step a = some bs ∧ a ∈ bs

variable {step} {n m : ℕ} {a : α} {as : List α}

theorem unfolding_succ_eq_some : unfolding step (n + 1) a = some as ↔
    ∃ bs, step a = some bs ∧ ∃ rs,
      (bs.mapM fun b => if b = a then some [b] else unfolding step n b) = some rs ∧
        rs.flatten = as := by
  rw [unfolding, Option.bind_eq_some_iff]
  simp

/-- Each of the points that `a` leads to has a result. -/
theorem exists_unfolding_of_mapM {bs : List α} {rs : List (List α)} {b : α}
    (hrs : (bs.mapM fun b => if b = a then some [b] else unfolding step n b) = some rs)
    (hb : b ∈ bs) (hne : b ≠ a) : ∃ r ∈ rs, unfolding step n b = some r := by
  have hsome : (if b = a then some [b] else unfolding step n b) ∈ rs.map some := by
    rw [← Except.mapM_eq_some.mp hrs]
    exact mem_map_of_mem hb
  obtain ⟨r, hr, heq⟩ := mem_map.mp hsome
  rw [if_neg hne] at heq
  exact ⟨r, hr, heq.symm⟩

section some

variable (h : unfolding step n a = some as)

include h

theorem unfolding_mono (hle : n ≤ m) : unfolding step m a = some as := by
  induction n generalizing m a as with
  | zero => cases h
  | succ n ih =>
    obtain ⟨m, rfl⟩ : ∃ k, m = k + 1 := ⟨m - 1, by omega⟩
    obtain ⟨bs, hbs, rs, hrs, rfl⟩ := unfolding_succ_eq_some.mp h
    refine unfolding_succ_eq_some.mpr ⟨bs, hbs, rs, ?_, rfl⟩
    rw [Except.mapM_eq_some, ← Except.mapM_eq_some.mp hrs]
    refine map_congr_left fun b hb => ?_
    split
    · rfl
    case isFalse hne =>
      obtain ⟨r, -, hr⟩ := exists_unfolding_of_mapM hrs hb hne
      rw [hr]
      exact ih hr (by omega)

/-- The results with two bounds are the same. -/
theorem unfolding_unique {bs : List α} (h' : unfolding step m a = some bs) : as = bs := by
  have hn := unfolding_mono h (le_max_left n m)
  have hm := unfolding_mono h' (le_max_right n m)
  exact Option.some.inj (hn.symm.trans hm)

theorem acc_of_unfolding : Acc (flip (Leads step)) a := by
  induction n generalizing a as with
  | zero => cases h
  | succ n ih =>
    obtain ⟨bs, hbs, rs, hrs, -⟩ := unfolding_succ_eq_some.mp h
    refine ⟨_, fun b hb => ?_⟩
    obtain ⟨bs', hbs', hmem, hne⟩ := hb
    obtain rfl := Option.some.inj (hbs.symm.trans hbs')
    obtain ⟨r, -, hr⟩ := exists_unfolding_of_mapM hrs hmem hne
    exact ih hr

/-- What is left at the end are the points that can be reached and stay. -/
theorem mem_unfolding {x : α} : x ∈ as ↔ ReflTransGen (Leads step) a x ∧ Stays step x := by
  induction n generalizing a as with
  | zero => cases h
  | succ n ih =>
    obtain ⟨bs, hbs, rs, hrs, rfl⟩ := unfolding_succ_eq_some.mp h
    rw [mem_flatten]
    constructor
    · rintro ⟨r, hr, hx⟩
      obtain ⟨b, hb, hbr⟩ := (Except.mem_of_mapM_eq_some hrs).mp hr
      by_cases hba : b = a
      · subst hba
        rw [if_pos rfl] at hbr
        obtain rfl := Option.some.inj hbr
        obtain rfl := mem_singleton.mp hx
        exact ⟨.refl, bs, hbs, hb⟩
      · rw [if_neg hba] at hbr
        obtain ⟨hreach, hstays⟩ := (ih hbr).mp hx
        exact ⟨.head ⟨bs, hbs, hb, hba⟩ hreach, hstays⟩
    · rintro ⟨hreach, hstays⟩
      rcases ReflTransGen.cases_head hreach with rfl | ⟨b, hleads, hreach⟩
      · obtain ⟨bs', hbs', hmem⟩ := hstays
        obtain rfl := Option.some.inj (hbs.symm.trans hbs')
        exact ⟨[a], (Except.mem_of_mapM_eq_some hrs).mpr ⟨a, hmem, if_pos rfl⟩,
          mem_singleton.mpr rfl⟩
      · obtain ⟨bs', hbs', hmem, hne⟩ := hleads
        obtain rfl := Option.some.inj (hbs.symm.trans hbs')
        obtain ⟨r, hr, heq⟩ := exists_unfolding_of_mapM hrs hmem hne
        exact ⟨r, hr, (ih heq).mpr ⟨hreach, hstays⟩⟩

end some

/-- The unfolding of an accessible point ends, if what it leads to can be looked up. -/
theorem exists_unfolding (h : Acc (flip (Leads step)) a)
    (hstep : ∀ b, ReflTransGen (Leads step) a b → ∃ bs, step b = some bs) :
    ∃ n as, unfolding step n a = some as := by
  induction h with
  | intro a _ ih =>
    obtain ⟨bs, hbs⟩ := hstep a .refl
    have hall : ∀ b ∈ bs, ∃ n, ∀ m, n ≤ m →
        ∃ r, (if b = a then some [b] else unfolding step m b) = some r := by
      intro b hb
      by_cases hba : b = a
      · exact ⟨0, fun m _ => ⟨[b], if_pos hba⟩⟩
      · have hleads : Leads step a b := ⟨bs, hbs, hb, hba⟩
        obtain ⟨n, r, hr⟩ := ih b hleads fun c hc => hstep c (.head hleads hc)
        exact ⟨n, fun m hm => ⟨r, by rw [if_neg hba, unfolding_mono hr hm]⟩⟩
    obtain ⟨n, hn⟩ := exists_forall_of_forall_exists hall
    obtain ⟨rs, hrs⟩ := Except.exists_mapM_eq_some (hn n le_rfl)
    exact ⟨n + 1, rs.flatten, unfolding_succ_eq_some.mpr ⟨bs, hbs, rs, hrs, rfl⟩⟩

end unfolding

end Please.Lib.Unfolding
