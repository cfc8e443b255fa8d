import Please.Asp.Calls
import Mathlib.Tactic.Linarith
import Mathlib.Tactic.Ring

/-!
# Integers and ranges of the BUILD language

Division of integers, `pyInt.Operator` (`src/parse/asp/objects.go`, lines 213–251), and ranges,
`pyRange` (lines 1039–1095) with `pyRangeFunc` (`src/parse/asp/builtins.go`, lines 1071–1085).

* `divisionLaw_iff`: `//` rounds down and `%` takes the sign of the dividend, so the two fit
  together only if the signs agree or the division leaves no rest.
* `rangeWellBehaved_iff`: when the length, the items and the iteration of a range agree.
-/

namespace Please.Asp

/-! ## Division -/

/-- The floating-point division behind `//` rounds the quotient of small integers down. -/
def Prims.FloorDivides (P : Prims) : Prop :=
  ∀ a b : Int64, b ≠ 0 → |a.toInt| < 9007199254740992 → |b.toInt| < 9007199254740992 →
    (P.floorDivide a b).toInt = a.toInt.fdiv b.toInt

/-- `a == (a // b) * b + (a % b)`, and `a % b` is zero or has the sign of `b`. -/
def DivisionLaw (P : Prims) (a b : Int64) : Prop :=
  ∃ q r p, operator P .floorDivide (.int a) (.int b) = .ok (.int q) ∧
    operator P .modulo (.int a) (.int b) = .ok (.int r) ∧
    operator P .multiply (.int q) (.int b) = .ok (.int p) ∧
    operator P .add (.int p) (.int r) = .ok (.int a) ∧ (r = 0 ∨ (r < 0 ↔ b < 0))

/-- The law, in terms of the integers that are computed. -/
theorem divisionLaw_eq {P : Prims} {a b : Int64} (hb : b ≠ 0) :
    DivisionLaw P a b ↔ P.floorDivide a b * b + a % b = a ∧ (a % b = 0 ∨ (a % b < 0 ↔ b < 0)) := by
  constructor
  · rintro ⟨q, r, p, hq, hr, hp, ha, hsign⟩
    cases hq
    simp only [operator, Value.intOperator, if_neg hb] at hr
    cases hr
    cases hp
    exact ⟨Value.int.inj (Except.ok.inj ha), hsign⟩
  · rintro ⟨hlaw, hsign⟩
    refine ⟨_, _, _, rfl, by simp only [operator, Value.intOperator, if_neg hb], rfl, ?_, hsign⟩
    simp only [operator, Value.intOperator, hlaw]

section

variable {a b : ℤ}

/-- The remainder of the truncated division has the sign of the dividend. -/
theorem tmod_neg_iff (h : a.tmod b ≠ 0) : a.tmod b < 0 ↔ a < 0 := by
  rcases le_or_gt 0 a with ha | ha
  · have := Int.tmod_nonneg b ha
    omega
  · have := Int.tmod_nonneg b (show 0 ≤ -a by omega)
    rw [Int.neg_tmod] at this
    omega

/-- Truncated and rounded quotient are the same if there is no rest or the signs agree. -/
theorem fdiv_eq_tdiv_of_sign (h : b ∣ a ∨ (a < 0 ↔ b < 0)) : a.fdiv b = a.tdiv b := by
  rw [Int.fdiv_eq_tdiv]
  by_cases hdvd : b ∣ a
  · rw [if_pos hdvd, sub_zero]
  have hsign := h.resolve_left hdvd
  rw [if_neg hdvd]
  rcases le_or_gt 0 a with ha | ha
  · rw [if_pos ha, if_pos (by omega), sub_zero]
  · rw [if_neg (by omega), if_neg (by omega), Int.sign_eq_neg_one_of_neg (by omega)]
    omega

end

theorem divisionLaw_iff {P : Prims} (hP : P.FloorDivides) {a b : Int64} (hb : b ≠ 0)
    (ha : |a.toInt| < 9007199254740992) (hb' : |b.toInt| < 9007199254740992) :
    DivisionLaw P a b ↔ b.toInt ∣ a.toInt ∨ (a < 0 ↔ b < 0) := by
  have hneg (x : Int64) : x < 0 ↔ x.toInt < 0 := by rw [Int64.lt_iff_toInt_lt, Int64.toInt_zero]
  have hzero : a % b = 0 ↔ b.toInt ∣ a.toInt := by
    rw [← Int64.toInt_inj, Int64.toInt_mod, Int64.toInt_zero]
    exact ⟨Int.dvd_of_tmod_eq_zero, Int.tmod_eq_zero_of_dvd⟩
  have hrest (hdvd : ¬ b.toInt ∣ a.toInt) : a % b < 0 ↔ a < 0 := by
    rw [hneg, hneg, Int64.toInt_mod]
    exact tmod_neg_iff fun h => hdvd (Int.dvd_of_tmod_eq_zero h)
  rw [divisionLaw_eq hb]
  constructor
  · rintro ⟨-, hsign⟩
    by_cases hdvd : b.toInt ∣ a.toInt
    · exact .inl hdvd
    · exact .inr ((hrest hdvd).symm.trans (hsign.resolve_left (mt hzero.mp hdvd)))
  · intro h
    refine ⟨?_, ?_⟩
    · have hquot : (P.floorDivide a b).toInt = a.toInt.tdiv b.toInt := by
        rw [hP a b hb ha hb', fdiv_eq_tdiv_of_sign (by rwa [hneg, hneg] at h)]
      rw [← Int64.toInt_inj, Int64.toInt_add, Int64.toInt_mul, Int64.toInt_mod, hquot,
        Int.bmod_add_bmod, Int.tdiv_mul_add_tmod]
      exact Int64.toInt_bmod a
    · by_cases hdvd : b.toInt ∣ a.toInt
      · exact .inl (hzero.mpr hdvd)
      · exact .inr ((hrest hdvd).trans (h.resolve_left hdvd))

/-- Primitives whose division is exact. -/
def exactPrims : Prims where
  floorDivide a b := Int64.ofInt (a.toInt.fdiv b.toInt)
  sprintf s _ := s

theorem exactPrims_floorDivides : exactPrims.FloorDivides := by
  intro a b hb ha _
  have hle := Int.natAbs_fdiv_le_natAbs a.toInt b.toInt
  rw [Int.abs_eq_natAbs] at ha
  exact Int64.toInt_ofInt_of_le (by omega) (by omega)

theorem divisionLaw_seven_two : DivisionLaw exactPrims 7 2 :=
  (divisionLaw_iff exactPrims_floorDivides (by decide) (by decide) (by decide)).mpr
    (.inr (by decide))

/-- `-7 // 2` is `-4` and `-7 % 2` is `-1`. -/
theorem divisionLaw_minus_seven_two :
    operator exactPrims .floorDivide (.int (-7)) (.int 2) = .ok (.int (-4)) ∧
    operator exactPrims .modulo (.int (-7)) (.int 2) = .ok (.int (-1)) ∧
    ¬ DivisionLaw exactPrims (-7) 2 := by
  refine ⟨rfl, rfl, ?_⟩
  rw [divisionLaw_eq (by decide)]
  decide

end Please.Asp

namespace Please.Asp.Interp

open Please.Fs (Bytes)
open Please.Build (utf8)
open Please.Lib

/-! ## Ranges -/

/-- `pyRangeFunc`. Without a stop the range starts at 0, and the start is the stop. -/
def pyRangeFunc : Obj → Obj → Obj → Except Bytes Obj
  | .int start, .int stop, .int step => .ok (.range start stop step)
  | .int start, _, .int step => .ok (.range 0 start step)
  | _, _, _ => .error (utf8 "interface conversion: asp.pyObject is not asp.pyInt")

/-- `pyRange.Len`. -/
def rangeLen (start stop step : Int64) : Except Bytes Int64 :=
  if step = 0 then .error (utf8 "runtime error: integer divide by zero")
  else .ok ((stop - start) / step)

/-- `pyRange.Item`. -/
def rangeItem (start step index : Int64) : Int64 := start + index * step

/-- The items of `pyRange.Iter` from `i` on, if there are at most `n`. -/
def rangeIter (stop step : Int64) : ℕ → Int64 → Option (List Int64)
  | 0, i => if i < stop then none else some []
  | n + 1, i => if i < stop then (rangeIter stop step n (i + step)).map (i :: ·) else some []

/-- `pyRange.toList`, of a range with at most `n` items. -/
def rangeToList (start stop step : Int64) (extraCapacity n : ℕ) :
    Except Bytes (Option (List Int64)) := do
  let l ← rangeLen start stop step
  if l.toInt + extraCapacity < 0 then
    .error (utf8 "runtime error: makeslice: cap out of range")
  else .ok (rangeIter stop step n start)

variable {H : Type} {start stop step : Int64}

theorem capHint_range {l : Int64} {c : ℕ} (h : rangeLen start stop step = .ok l)
    (hc : l.toInt = c) : (capHint (.range start stop step) : P H ℕ) = pure c := by
  have hhint : (lenHint (.range start stop step) : P H ℤ) = pure l.toInt := by
    unfold rangeLen at h
    split at h
    · cases h
    · rename_i hstep
      cases h
      exact if_neg hstep
  rw [capHint, hhint, pure_bind, hc, if_neg (by omega), Int.toNat_natCast]

variable {items : List Int64} {i : Int64}

/-- The rule for `Iter`: it ends at once, or after an item it goes on from the next one. -/
theorem rangeIter_rule {M : ℕ → Int64 → List Int64 → Prop} (hstop : ∀ n i, ¬ i < stop → M n i [])
    (hstep : ∀ n i items, i < stop → M n (i + step) items → M (n + 1) i (i :: items)) {n : ℕ}
    (h : rangeIter stop step n i = some items) : M n i items := by
  induction n generalizing i items with
  | zero =>
    rw [rangeIter] at h
    split at h
    case isTrue => cases h
    case isFalse hi =>
      obtain rfl := Option.some.inj h
      exact hstop 0 i hi
  | succ n ih =>
    rw [rangeIter] at h
    split at h
    case isTrue hi =>
      obtain ⟨rest, hrest, rfl⟩ := Option.map_eq_some_iff.mp h
      exact hstep n i rest hi (ih hrest)
    case isFalse hi =>
      obtain rfl := Option.some.inj h
      exact hstop (n + 1) i hi

/-- A loop over a range that is not left early goes over the items of `Iter`. -/
theorem forRange_eq_foldlM {α : Type} (f : α → Obj → P H α) {n : ℕ}
    (h : rangeIter stop step n i = some items) (a : α) :
    forRange stop step (fun a obj => do
      let a ← f a obj
      pure (a, true)) n i a = items.foldlM (fun a i => f a (.int i)) a := by
  refine rangeIter_rule (M := fun n i items => ∀ a, forRange stop step (fun a obj => do
    let a ← f a obj
    pure (a, true)) n i a = items.foldlM (fun a i => f a (.int i)) a) ?_ ?_ h a
  · intro n i hi a
    cases n <;> rw [forRange, if_neg hi] <;> rfl
  · intro n i items hi ih a
    rw [forRange, if_pos hi, List.foldlM_cons, bind_assoc]
    refine congrArg (f a (.int i) >>= ·) (funext fun a' => ?_)
    exact ih a'

/-- `Iter` ends, `Len` counts its items and `Item` finds them; a list comprehension makes room for
the items and goes over them, and the conversion to a list does not fail. -/
def RangeWellBehaved (start stop step : Int64) : Prop :=
  ∃ n items, rangeIter stop step n start = some items ∧
    (∃ l, rangeLen start stop step = .ok l ∧ l.toInt = items.length) ∧
    (∀ i (hi : i < items.length), items[i] = rangeItem start step (Int64.ofNat i)) ∧
    (capHint (.range start stop step) : P Unit ℕ) = pure items.length ∧
    (∀ (f : List Obj → Obj → P Unit (List Obj)) (objs : List Obj),
      forRange stop step (fun objs obj => do
        let objs ← f objs obj
        pure (objs, true)) n start objs = items.foldlM (fun objs i => f objs (.int i)) objs) ∧
    ∀ extraCapacity, rangeToList start stop step extraCapacity n = .ok (some items)

/-- The step goes from the start to the stop exactly, or there are no items and the span is less
than a step. -/
def RangeExact (start stop step : Int64) : Prop :=
  (start < stop → 0 < step ∧ stop.toInt - start.toInt < 9223372036854775808 ∧
    step.toInt ∣ stop.toInt - start.toInt) ∧
  (¬ start < stop → start.toInt - stop.toInt < |step.toInt|)

/-- An integer that an `int` can hold. -/
def FitsInt (i : ℤ) : Prop := -9223372036854775808 ≤ i ∧ i < 9223372036854775808

theorem toInt_add_of_fits {a b : Int64} (h : FitsInt (a.toInt + b.toInt)) :
    (a + b).toInt = a.toInt + b.toInt := by
  obtain ⟨h₁, h₂⟩ := h
  rw [Int64.toInt_add, Int.bmod_eq_of_le (by norm_num; omega) (by norm_num; omega)]

theorem toInt_sub_of_fits {a b : Int64} (h : FitsInt (a.toInt - b.toInt)) :
    (a - b).toInt = a.toInt - b.toInt := by
  obtain ⟨h₁, h₂⟩ := h
  rw [Int64.toInt_sub, Int.bmod_eq_of_le (by norm_num; omega) (by norm_num; omega)]

theorem rangeItem_succ (i step : Int64) (j : ℕ) :
    rangeItem i step (Int64.ofNat (j + 1)) = rangeItem (i + step) step (Int64.ofNat j) := by
  simp only [rangeItem, Int64.ofNat_add]
  grind

section

variable {n : ℕ} (h : rangeIter stop step n i = some items)
include h

/-- The items of a range are those that `Item` gives. -/
theorem getElem_rangeIter (j : ℕ) (hj : j < items.length) :
    items[j] = rangeItem i step (Int64.ofNat j) := by
  refine rangeIter_rule (M := fun _ i items => ∀ (j : ℕ) (hj : j < items.length),
    items[j] = rangeItem i step (Int64.ofNat j)) ?_ ?_ h j hj
  · exact fun _ _ _ j hj => absurd hj (Nat.not_lt_zero j)
  · intro n i items _ ih j hj
    cases j with
    | zero => simp [rangeItem]
    | succ j => rw [List.getElem_cons_succ, ih j (by simpa using hj), rangeItem_succ]

/-- The first value that is not an item is not below the stop. -/
theorem not_lt_of_rangeIter : ¬ rangeItem i step (Int64.ofNat items.length) < stop := by
  refine rangeIter_rule (M := fun _ i items =>
    ¬ rangeItem i step (Int64.ofNat items.length) < stop) ?_ ?_ h
  · intro n i hi
    simpa [rangeItem] using hi
  · intro n i items _ ih
    rwa [List.length_cons, rangeItem_succ]

theorem rangeIter_eq_nil_iff : items = [] ↔ ¬ i < stop := by
  refine rangeIter_rule (M := fun _ i items => items = [] ↔ ¬ i < stop) ?_ ?_ h
  · exact fun _ _ hi => iff_of_true rfl hi
  · exact fun _ _ _ hi _ => iff_of_false (List.cons_ne_nil _ _) (not_not.mpr hi)

end

/-- Steps that reach the stop exactly. -/
theorem exists_rangeIter {c : ℕ} (hstep : 0 < step.toInt)
    (hc : stop.toInt - i.toInt = c * step.toInt) :
    ∃ items, rangeIter stop step c i = some items ∧ items.length = c := by
  induction c generalizing i with
  | zero =>
    have hi : ¬ i < stop := by
      rw [Int64.lt_iff_toInt_lt]
      omega
    exact ⟨[], by rw [rangeIter, if_neg hi], rfl⟩
  | succ c ih =>
    have hc' : stop.toInt - i.toInt = c * step.toInt + step.toInt := by
      rw [hc]
      push_cast
      ring
    have hpos : 0 ≤ c * step.toInt := by positivity
    have hi : i < stop := by
      rw [Int64.lt_iff_toInt_lt]
      omega
    have hnext : (i + step).toInt = i.toInt + step.toInt := by
      have := stop.toInt_lt
      have := i.le_toInt
      exact toInt_add_of_fits ⟨by omega, by omega⟩
    obtain ⟨items, hitems, hlen⟩ := ih (i := i + step) (by omega)
    exact ⟨i :: items, by rw [rangeIter, if_pos hi, hitems]; rfl, by rw [List.length_cons, hlen]⟩

/-- `Len`, if the span fits in an `int`; the quotient does not fit only for the least `int` by
`-1`. -/
theorem rangeLen_of_fits (hstep : step ≠ 0) (h : FitsInt (stop.toInt - start.toInt)) :
    ∃ l, rangeLen start stop step = .ok l ∧
      l.toInt = ((stop.toInt - start.toInt).tdiv step.toInt).bmod 18446744073709551616 := by
  refine ⟨(stop - start) / step, if_neg hstep, ?_⟩
  rw [Int64.toInt_div, toInt_sub_of_fits h]

theorem bmod_of_fits {i : ℤ} (h : FitsInt i) : i.bmod 18446744073709551616 = i := by
  obtain ⟨h₁, h₂⟩ := h
  exact Int.bmod_eq_of_le (by norm_num; omega) (by norm_num; omega)

theorem toInt_ne_zero (h : step ≠ 0) : step.toInt ≠ 0 := by
  intro hzero
  exact h (Int64.toInt_inj.mp (by rw [hzero, Int64.toInt_zero]))

/-- What the length and the items of a range have to do with each other. -/
theorem rangeWellBehaved_of_iter {n c : ℕ} {l : Int64}
    (hitems : rangeIter stop step n start = some items) (hlen : items.length = c)
    (hl : rangeLen start stop step = .ok l) (hc : l.toInt = c) :
    RangeWellBehaved start stop step := by
  subst hlen
  refine ⟨n, items, hitems, ⟨l, hl, hc⟩, getElem_rangeIter hitems, capHint_range hl hc,
    fun f objs => forRange_eq_foldlM f hitems objs, ?_⟩
  intro extraCapacity
  rw [rangeToList, hl, Please.Lib.Except.ok_bind, if_neg (by omega), hitems]

theorem rangeWellBehaved_of_exact (h : RangeExact start stop step) :
    RangeWellBehaved start stop step ∧ FitsInt (stop.toInt - start.toInt) := by
  by_cases hlt : start < stop
  · obtain ⟨hpos, hspan, c, hc⟩ := h.1 hlt
    rw [Int64.lt_iff_toInt_lt] at hlt hpos
    rw [Int64.toInt_zero] at hpos
    have hfits : FitsInt (stop.toInt - start.toInt) := ⟨by omega, hspan⟩
    have hc0 : 0 ≤ c := by
      by_contra hneg
      have : step.toInt * c < 0 := mul_neg_of_pos_of_neg hpos (by omega)
      omega
    obtain ⟨c, rfl⟩ := Int.eq_ofNat_of_zero_le hc0
    obtain ⟨items, hitems, hlen⟩ := exists_rangeIter hpos (by rw [hc, mul_comm])
    have hstep : step ≠ 0 := by
      rintro rfl
      exact absurd hpos (by decide)
    obtain ⟨l, hl, hquot⟩ := rangeLen_of_fits hstep hfits
    rw [hc, Int.mul_tdiv_cancel_left _ hpos.ne'] at hquot
    have hle : (c : ℤ) ≤ step.toInt * c := by nlinarith
    rw [bmod_of_fits ⟨by omega, by omega⟩] at hquot
    exact ⟨rangeWellBehaved_of_iter hitems hlen hl hquot, hfits⟩
  · have hspan := h.2 hlt
    rw [Int64.lt_iff_toInt_lt] at hlt
    have hstep0 : step.toInt ≠ 0 := by
      intro h0
      rw [h0, abs_zero] at hspan
      omega
    have hbound := step.toInt_lt
    have hbound' := step.le_toInt
    rw [Int.abs_eq_natAbs] at hspan
    have hfits : FitsInt (stop.toInt - start.toInt) := ⟨by omega, by omega⟩
    have hstep : step ≠ 0 := by
      rintro rfl
      exact hstep0 Int64.toInt_zero
    obtain ⟨l, hl, hquot⟩ := rangeLen_of_fits hstep hfits
    have hzero : (stop.toInt - start.toInt).tdiv step.toInt = 0 := by
      rw [← Int.natAbs_eq_zero, Int.natAbs_tdiv]
      exact Nat.div_eq_of_lt (by omega)
    rw [hzero] at hquot
    have hnil : rangeIter stop step 0 start = some [] := by
      rw [rangeIter, if_neg (by rwa [Int64.lt_iff_toInt_lt])]
    exact ⟨rangeWellBehaved_of_iter hnil rfl hl hquot, hfits⟩

theorem rangeExact_of_wellBehaved (h : RangeWellBehaved start stop step)
    (hfits : FitsInt (stop.toInt - start.toInt)) : RangeExact start stop step := by
  obtain ⟨n, items, hitems, ⟨l, hl, hlen⟩, -⟩ := h
  have hstep : step ≠ 0 := by
    intro h0
    rw [rangeLen, if_pos h0] at hl
    cases hl
  obtain ⟨l', hl', hquot⟩ := rangeLen_of_fits hstep hfits
  obtain rfl : l' = l := Except.ok.inj (hl'.symm.trans hl)
  rw [hlen] at hquot
  have hle := Int.natAbs_tdiv_le_natAbs (stop.toInt - start.toInt) step.toInt
  have hrest := Int.tdiv_mul_add_tmod (stop.toInt - start.toInt) step.toInt
  refine ⟨fun hlt => ?_, fun hlt => ?_⟩
  · rw [Int64.lt_iff_toInt_lt] at hlt
    obtain ⟨hfits₁, hfits₂⟩ := hfits
    rw [bmod_of_fits ⟨by omega, by omega⟩] at hquot
    -- the start is an item
    have hpos : 0 < items.length := List.length_pos_iff.mpr fun hnil =>
      (rangeIter_eq_nil_iff hitems).mp hnil (Int64.lt_iff_toInt_lt.mpr hlt)
    have hmod := Int.tmod_nonneg step.toInt (show 0 ≤ stop.toInt - start.toInt by omega)
    rw [← hquot] at hrest
    have hstep_pos : 0 < step.toInt := by
      by_contra hneg
      have hdiv := Int.tdiv_nonneg (show 0 ≤ stop.toInt - start.toInt by omega)
        (show 0 ≤ -step.toInt by omega)
      rw [Int.tdiv_neg] at hdiv
      omega
    have hprod : 0 ≤ (items.length : ℤ) * step.toInt := by positivity
    have hcount : (Int64.ofNat items.length).toInt = items.length :=
      Int64.toInt_ofNat_of_lt (by omega)
    have hmul : (Int64.ofNat items.length * step).toInt = items.length * step.toInt := by
      rw [Int64.toInt_mul, hcount]
      exact bmod_of_fits ⟨by omega, by omega⟩
    have hlast := not_lt_of_rangeIter hitems
    have := start.le_toInt
    have := stop.toInt_lt
    rw [rangeItem, Int64.lt_iff_toInt_lt, toInt_add_of_fits (by
      exact ⟨by omega, by omega⟩), hmul] at hlast
    exact ⟨Int64.lt_iff_toInt_lt.mpr (by rwa [Int64.toInt_zero]), hfits₂, items.length,
      by rw [mul_comm]; omega⟩
  · have hnil : items = [] := (rangeIter_eq_nil_iff hitems).mpr hlt
    rw [hnil, List.length_nil] at hquot
    obtain ⟨hfits₁, hfits₂⟩ := hfits
    have hzero : (stop.toInt - start.toInt).tdiv step.toInt = 0 := by
      have hdvd := Int.dvd_of_bmod_eq_zero hquot.symm
      omega
    have habs : (stop.toInt - start.toInt).natAbs / step.toInt.natAbs = 0 := by
      have h := Int.natAbs_tdiv (stop.toInt - start.toInt) step.toInt
      rw [hzero] at h
      exact h.symm
    have hlt' := (Nat.div_eq_zero_iff.mp habs).resolve_left
      (Int.natAbs_ne_zero.mpr (toInt_ne_zero hstep))
    rw [Int.abs_eq_natAbs]
    omega

/-- Where the span of the range does not overflow, a range is well behaved exactly if the step goes
from the start to the stop, or if there is nothing to go over and the span is less than a step. -/
theorem rangeWellBehaved_iff :
    RangeWellBehaved start stop step ∧ FitsInt (stop.toInt - start.toInt) ↔
      RangeExact start stop step :=
  ⟨fun h => rangeExact_of_wellBehaved h.1 h.2, rangeWellBehaved_of_exact⟩

/-- `range(0, 5, 2)` has three items and the length 2; a comprehension over `range(3, 0)` panics. -/
theorem range_zero_five_two :
    pyRangeFunc (.int 0) (.int 5) (.int 2) = .ok (.range 0 5 2) ∧
    rangeIter 5 2 3 0 = some [0, 2, 4] ∧ rangeLen 0 5 2 = .ok 2 ∧ ¬ RangeWellBehaved 0 5 2 ∧
    (capHint (.range 3 0 1) : P Unit ℕ) =
      raise (utf8 "runtime error: makeslice: cap out of range") := by
  refine ⟨rfl, by decide, rfl, fun h => ?_, rfl⟩
  have hexact := rangeExact_of_wellBehaved h (by constructor <;> decide)
  obtain ⟨-, -, hdvd⟩ := hexact.1 (by decide)
  exact absurd hdvd (by decide)

end Please.Asp.Interp
