import Please.Asp.Expressions
import Please.Asp.Lexer
import Mathlib.Algebra.BigOperators.Group.List.Basic

/-!
# Indexing and slicing

`x[i]` and `x[a:b]` on lists and strings: `pyIndex` (`src/parse/asp/objects.go`, lines 186–199),
the `Index` operators, and `scope.interpretSlice` (`src/parse/asp/interpreter.go`, lines 903–924),
against Python's sequences. A string is the sequence of its characters.

`pyIndex` adds the length to a negative bound and clamps a bound that is too large, but leaves a
bound that is still negative to Go, and Go slices a string by bytes.

* `agreesWithPython_iff`: which objects are indexed and sliced as in Python, and where.
-/

namespace Please.Asp.Interp

open Please.Fs (Bytes)
open Please.Build (utf8)
open Please.Lib
open Please.Lib.Utf8
open Please.Asp.Syntax (runeText)
open List

/-! ## Strings -/

/-- `[]rune(s)`, each rune as the string that it is turned into. Of the current rune, `k` bytes are
still to come. -/
def runesFrom : ℕ → Bytes → List Bytes
  | _, [] => []
  | k + 1, _ :: rest => runesFrom k rest
  | 0, b :: rest => runeText (b :: rest) :: runesFrom ((decodeRune (b :: rest)).2 - 1) rest

/-- The characters of a string. -/
def runes (s : Bytes) : List Bytes := runesFrom 0 s

/-- `t[start:end]` on a string: the bounds are in bytes. -/
def goSubstr (t : Bytes) (start stop : ℤ) : Except Bytes Bytes :=
  if 0 ≤ start ∧ start ≤ stop ∧ stop ≤ t.length then
    .ok ((t.take stop.toNat).drop start.toNat)
  else .error (utf8 "runtime error: slice bounds out of range")

variable {H : Type}

/-- The runtime with `pyString.Len`, and with Go's slices of strings. -/
def Runtime.withRunes (R : Runtime H) : Runtime H :=
  { R with strLen := fun s => (runes s).length, substr := goSubstr }

/-- `pyString.Operator`, for `Index`. -/
def strIndex (R : Runtime H) (s : Bytes) (index : Obj) : Except Bytes Obj := do
  let i ← pyIndex R (.str s) index false
  match if i < 0 then none else (runes s)[i.toNat]? with
  | some c => .ok (.str c)
  | none => .error (utf8 "runtime error: index out of range")

/-- The runtime with the strings of the language. -/
def Runtime.withStrings (R : Runtime H) : Runtime H :=
  { R.withRunes with
    index := fun obj index st =>
      match obj with
      | .str s => strIndex R.withRunes s index
      | obj => R.index obj index st }

/-! ### Characters -/

/-- A string in ASCII. -/
def Ascii (s : Bytes) : Prop := ∀ b ∈ s, b < 0x80

/-- A character is not empty, and it is in ASCII if it is a byte. -/
theorem runeText_cons (b : UInt8) (rest : Bytes) :
    runeText (b :: rest) ≠ [] ∧
      ((runeText (b :: rest)).length = 1 → Ascii (runeText (b :: rest))) := by
  unfold runeText
  split_ifs with herror
  · simp
  obtain h | ⟨h, hlen⟩ := decodeRune_cons b rest
  · exact absurd (congrArg Prod.fst h) herror
  rw [h]
  refine ⟨by simp [hlen], fun hone => ?_⟩
  have hle := decodeRune_le_length (b :: rest)
  rw [length_take, ← h, min_eq_left hle, h] at hone
  rw [hone]
  simpa [Ascii] using runeLen_eq_one_iff.mp hone

theorem mem_runesFrom {k : ℕ} {s c : Bytes} (hc : c ∈ runesFrom k s) :
    c ≠ [] ∧ (c.length = 1 → Ascii c) := by
  fun_induction runesFrom k s with
  | case1 => cases hc
  | case2 k _ rest ih => exact ih hc
  | case3 b rest ih =>
    rcases mem_cons.mp hc with rfl | hc
    · exact runeText_cons b rest
    · exact ih hc

/-- The characters of a string in ASCII are its bytes. -/
theorem runes_of_ascii {s : Bytes} (hs : Ascii s) : runes s = s.map fun b => [b] := by
  induction s with
  | nil => rfl
  | cons b rest ih =>
    have hb : runeLen b = 1 := runeLen_eq_one_iff.mpr (hs b mem_cons_self)
    have hdecode : decodeRune (b :: rest) = (b.toNat, 1) := by simp [decodeRune, hb]
    have htext : runeText (b :: rest) = [b] := by
      have hne : b.toNat ≠ runeError := by
        have := b.toNat_lt
        unfold runeError
        omega
      rw [runeText, hdecode, if_neg hne]
      rfl
    have hrest : runesFrom 0 rest = rest.map fun b => [b] :=
      ih fun c hc => hs c (mem_cons_of_mem b hc)
    rw [runes, runesFrom, htext, hdecode, map_cons, ← hrest]
    rfl

/-- A string in UTF-8 has fewer characters than bytes, if it is not in ASCII. -/
theorem length_runes_lt {s : Bytes} (hs : (runes s).flatten = s) (hascii : ¬ Ascii s) :
    (runes s).length < s.length := by
  have hchars (c : Bytes) (hc : c ∈ runes s) : 1 ≤ c.length :=
    length_pos_iff.mpr (mem_runesFrom hc).1
  obtain ⟨b, hb, hlarge⟩ : ∃ b ∈ s, ¬ b < 0x80 := by simpa [Ascii] using hascii
  rw [← hs] at hb
  obtain ⟨c, hc, hbc⟩ := mem_flatten.mp hb
  have hlong : 1 < c.length := by
    refine lt_of_le_of_ne (hchars c hc) fun hone => hlarge ?_
    exact (mem_runesFrom hc).2 hone.symm b hbc
  obtain ⟨cs, cs', hsplit⟩ := append_of_mem hc
  have hcount (l : List Bytes) (hl : ∀ c ∈ l, 1 ≤ c.length) : l.length ≤ l.flatten.length := by
    simpa using length_le_sum_of_one_le (l.map length) (by simpa using hl)
  have hleft := hcount cs fun c hc => hchars c (by simp [hsplit, hc])
  have hright := hcount cs' fun c hc => hchars c (by simp [hsplit, hc])
  calc (runes s).length = cs.length + (cs'.length + 1) := by simp [hsplit]
    _ < cs.flatten.length + (c.length + cs'.flatten.length) := by omega
    _ = s.length := by
      conv_rhs => rw [← hs]
      simp [hsplit]

/-! ## Python's sequences -/

/-- Where a bound points in a sequence of length `n`. -/
def clamp (n : ℕ) (i : ℤ) : ℕ := if i < 0 then (n + i).toNat else min i.toNat n

/-- The start of a slice. -/
def lower (n : ℕ) (a : Option Int64) : ℕ := a.elim 0 fun i => clamp n i.toInt

/-- The end of a slice. -/
def upper (n : ℕ) (b : Option Int64) : ℕ := b.elim n fun i => clamp n i.toInt

/-- The items of `x[a:b]`. -/
def pySlice {α : Type} (items : List α) (a b : Option Int64) : List α :=
  (items.take (upper items.length b)).drop (lower items.length a)

/-- The object is the sequence of these items: a list, or a string in UTF-8. The length of a string
is an `int`. -/
def IsSeq (st : Store H) : Obj → List Obj → Prop
  | .list l, items | .frozenList l, items => l.Valid st.arrays ∧ l.contents st.arrays = items
  | .str s, items =>
    (runes s).flatten = s ∧ s.length < 9223372036854775808 ∧ (runes s).map .str = items
  | _, _ => False

/-- An expression with an integer as its value. -/
def intExp (i : Int64) : Exp H := fun _ => pure (.int i)

/-- `[a:b]`, where either bound may be omitted. -/
def slice (a b : Option Int64) : SliceDen H := ⟨a.map intExp, true, b.map intExp⟩

/-- `[i]` -/
def subscript (i : Int64) : SliceDen H := ⟨some (intExp i), false, none⟩

section

variable (R : Runtime H) (s : ℕ) (st : Store H) (x : Obj) (items : List Obj)

/-- `x[a:b]` is the sequence of the items from `a` to `b`. -/
def SliceAgrees (a b : Option Int64) : Prop :=
  ∃ o, Evaluates st (interpretSuffix R.withStrings s x (slice a b)) (.ok o) ∧ o.type = x.type ∧
    IsSeq st o (pySlice items a b)

/-- The index counts from the start or from the end of the sequence. -/
def InRange (i : Int64) : Prop := -(items.length : ℤ) ≤ i.toInt ∧ i.toInt < items.length

/-- `x[i]` is the item at `i`, or an index error if there is none. -/
def IndexAgrees (i : Int64) : Prop :=
  (InRange items i → ∃ item, items[(i.toInt % items.length).toNat]? = some item ∧
    Evaluates st (interpretSuffix R.withStrings s x (subscript i)) (.ok item)) ∧
  (¬ InRange items i → Evaluates st (interpretSuffix R.withStrings s x (subscript i))
    (.error (x.type ++ utf8 " index out of range")))

/-- `x[i]` is `x[i:i+1]`, for a string. -/
def CharacterAgrees (i : Int64) : Prop :=
  ∀ t, x = .str t → InRange items i → ∀ j : Int64, j.toInt = i.toInt + 1 →
    ∃ o, Evaluates st (interpretSuffix R.withStrings s x (subscript i)) (.ok o) ∧
      Evaluates st (interpretSuffix R.withStrings s x (slice (some i) (some j))) (.ok o)

/-- Indexing and slicing are as in Python. -/
def AgreesWithPython (a b : Option Int64) (i : Int64) : Prop :=
  SliceAgrees R s st x items a b ∧ IndexAgrees R s st x items i ∧ CharacterAgrees R s st x items i

end

/-- The bounds of a slice are not before the start, and they are in order. -/
def SliceBounds (n : ℕ) (a b : Option Int64) : Prop :=
  (∀ i ∈ a, -(n : ℤ) ≤ i.toInt) ∧ (∀ i ∈ b, -(n : ℤ) ≤ i.toInt) ∧ lower n a ≤ upper n b

/-- The index is not before the start and not at the end; for a string, it is not the last one from
the end, where `i + 1` is the start. -/
def IndexBounds (x : Obj) (n : ℕ) (i : Int64) : Prop :=
  -(n : ℤ) ≤ i.toInt ∧ i.toInt ≠ n ∧ ∀ t, x = .str t → i.toInt ≠ -1

/-- A list that is not frozen, or a string in ASCII. -/
def Plain : Obj → Prop
  | .list _ => True
  | .str s => Ascii s
  | _ => False

/-! ## The bounds that Go gets -/

/-- The bound that `pyIndex` gives for a slice. -/
def goBound (n : ℕ) (i : ℤ) : ℤ := if i < 0 then n + i else min i n

/-- The bounds of a slice, with the default for one that is omitted. -/
def goBounds (n : ℕ) (dflt : ℤ) (a : Option Int64) : ℤ := a.elim dflt fun i => goBound n i.toInt

variable {n : ℕ} {a b : Option Int64}

theorem goBound_eq_clamp {i : ℤ} (hi : -(n : ℤ) ≤ i) : goBound n i = clamp n i := by
  unfold goBound clamp
  split_ifs <;> omega

theorem goBounds_eq_lower (ha : ∀ i ∈ a, -(n : ℤ) ≤ i.toInt) : goBounds n 0 a = lower n a := by
  cases a with
  | none => rfl
  | some i => exact goBound_eq_clamp (ha i rfl)

theorem goBounds_eq_upper (hb : ∀ i ∈ b, -(n : ℤ) ≤ i.toInt) : goBounds n n b = upper n b := by
  cases b with
  | none => rfl
  | some i => exact goBound_eq_clamp (hb i rfl)

theorem clamp_le (n : ℕ) (i : ℤ) : clamp n i ≤ n := by
  unfold clamp
  split_ifs <;> omega

theorem lower_le (n : ℕ) (a : Option Int64) : lower n a ≤ n := by
  cases a with
  | none => exact Nat.zero_le n
  | some i => exact clamp_le n i.toInt

theorem upper_le (n : ℕ) (b : Option Int64) : upper n b ≤ n := by
  cases b with
  | none => exact le_rfl
  | some i => exact clamp_le n i.toInt

theorem neg_le_of_goBounds {dflt : ℤ} (ha : 0 ≤ goBounds n dflt a) :
    ∀ i ∈ a, -(n : ℤ) ≤ i.toInt := by
  rintro i rfl
  simp only [goBounds, Option.elim_some, goBound] at ha
  split_ifs at ha <;> omega

/-- Go takes no other bounds. -/
theorem sliceBounds_of_le {dflt : ℤ} (ha : 0 ≤ goBounds n 0 a)
    (hab : goBounds n 0 a ≤ goBounds n dflt b) : SliceBounds n a b := by
  have ha' := neg_le_of_goBounds ha
  have hb' := neg_le_of_goBounds (ha.trans hab)
  refine ⟨ha', hb', ?_⟩
  cases b with
  | none => exact lower_le n a
  | some j =>
    rw [goBounds_eq_lower ha', show goBounds n dflt (some j) = goBounds n n (some j) from rfl,
      goBounds_eq_upper hb'] at hab
    exact_mod_cast hab

/-! ## Evaluation -/

variable {R : Runtime H} {s : ℕ} {st : Store H} {x : Obj} {items : List Obj}

theorem objLen_of_isSeq (hx : IsSeq st x items) : objLen R.withStrings x = .ok items.length := by
  cases x with
  | list l | frozenList l => rw [← hx.2, hx.1.length_contents, objLen]
  | str =>
    obtain ⟨-, -, rfl⟩ := hx
    rw [length_map]
    rfl
  | _ => exact hx.elim

theorem pyIndex_int (hn : objLen R x = .ok n) (i : Int64) (sl : Bool) :
    pyIndex R x (.int i) sl =
      if i.toInt < 0 then .ok (n + i.toInt)
      else if i.toInt > n then
        if sl then .ok n else .error (x.type ++ utf8 " index out of range")
      else .ok i.toInt := by
  simp [pyIndex, hn]

/-- A bound is evaluated to what Go gets. -/
theorem evaluates_interpretSliceExpression (hn : objLen R x = .ok n) (a : Option Int64) (dflt : ℤ) :
    Evaluates st (interpretSliceExpression R s x (a.map intExp) dflt)
      (.ok (goBounds n dflt a)) := by
  cases a with
  | none => exact .pure _ st
  | some i =>
    have hindex : pyIndex R x (.int i) true = .ok (goBound n i.toInt) := by
      rw [pyIndex_int hn, goBound, if_pos rfl]
      split_ifs with hneg hlarge
      · rfl
      · rw [min_eq_right (by omega)]
      · rw [min_eq_left (by omega)]
    exact hindex ▸ evaluates_readOr (fun _ => pyIndex R x (.int i) true) st

theorem evaluates_slice_list {l : Slice} (hn : objLen R (.list l) = .ok n) (a b : Option Int64) :
    Evaluates st (interpretSuffix R s (.list l) (slice a b))
      ((goSlice l (goBounds n 0 a) (goBounds n l.len b)).map .list) :=
  (evaluates_interpretSliceExpression hn a 0).bind <|
    (evaluates_interpretSliceExpression hn b l.len).bind <|
      (evaluates_readOr (fun _ => goSlice l (goBounds n 0 a) (goBounds n l.len b)) st).map
        Obj.list

variable {t : Bytes}

theorem evaluates_slice_str (hn : objLen R (.str t) = .ok n) (a b : Option Int64) :
    Evaluates st (interpretSuffix R s (.str t) (slice a b))
      ((R.substr t (goBounds n 0 a) (goBounds n t.length b)).map .str) :=
  (evaluates_interpretSliceExpression hn a 0).bind <|
    (evaluates_interpretSliceExpression hn b t.length).bind <|
      (evaluates_readOr (fun _ => R.substr t (goBounds n 0 a) (goBounds n t.length b)) st).map
        Obj.str

theorem evaluates_slice_frozen {l : Slice} (hn : objLen R (.frozenList l) = .ok n)
    (a b : Option Int64) :
    Evaluates st (interpretSuffix R s (.frozenList l) (slice a b))
      (.error (utf8 "Unsliceable type " ++ utf8 "list")) :=
  (evaluates_interpretSliceExpression hn a 0).bind fun _ _ => rfl

theorem evaluates_subscript (i : Int64) :
    Evaluates st (interpretSuffix R s x (subscript i)) (operatorIndex R x (.int i) st) :=
  evaluates_readOr _ st

/-- `items[j]` in Go. -/
def goIndex (items : List Obj) (j : ℤ) : Except Bytes Obj :=
  match if j < 0 then none else items[j.toNat]? with
  | some item => .ok item
  | none => .error (utf8 "runtime error: index out of range")

theorem goIndex_eq_ok {j : ℤ} {item : Obj} (hj : 0 ≤ j) (h : items[j.toNat]? = some item) :
    goIndex items j = .ok item := by
  rw [goIndex, if_neg (by omega), h]

theorem goIndex_eq_error {j : ℤ} (hj : j < 0 ∨ items.length ≤ j) :
    goIndex items j = .error (utf8 "runtime error: index out of range") := by
  unfold goIndex
  split_ifs with hneg
  · rfl
  · rw [getElem?_eq_none (by omega)]

/-- The item that Go gets for an index, unless `pyIndex` finds that it is too large. -/
theorem operatorIndex_of_isSeq (hx : IsSeq st x items) (i : Int64) :
    operatorIndex R.withStrings x (.int i) st =
      if i.toInt < 0 then goIndex items (items.length + i.toInt)
      else if i.toInt > items.length then .error (x.type ++ utf8 " index out of range")
      else goIndex items i.toInt := by
  have hindex : operatorIndex R.withStrings x (.int i) st =
      pyIndex R.withStrings x (.int i) false >>= goIndex items := by
    cases x with
    | list l | frozenList l =>
      obtain ⟨-, rfl⟩ := hx
      rfl
    | str t =>
      obtain ⟨-, -, rfl⟩ := hx
      show strIndex R.withRunes t (.int i) = pyIndex R.withRunes (.str t) (.int i) false >>= _
      unfold strIndex
      congr 1
      funext j
      simp only [goIndex, getElem?_map]
      split_ifs with hneg
      · rfl
      · cases (runes t)[j.toNat]? <;> rfl
    | _ => exact hx.elim
  rw [hindex, pyIndex_int (objLen_of_isSeq hx), if_neg Bool.false_ne_true]
  split_ifs <;> rfl

/-! ## Where indexing and slicing agree -/

theorem type_of_isSeq (hx : IsSeq st x items) : x.type = utf8 "list" ∨ x.type = utf8 "str" := by
  cases x with
  | list l | frozenList l => exact .inl rfl
  | str => exact .inr rfl
  | _ => exact hx.elim

/-- The panic of Go is not the error for an index. -/
theorem indexError_ne (hx : IsSeq st x items) :
    utf8 "runtime error: index out of range" ≠ x.type ++ utf8 " index out of range" := by
  rcases type_of_isSeq hx with h | h
  · rw [h]
    decide
  · rw [h]
    decide

theorem indexAgrees_iff (hx : IsSeq st x items) (i : Int64) :
    IndexAgrees R s st x items i ↔ -(items.length : ℤ) ≤ i.toInt ∧ i.toInt ≠ items.length := by
  have heval : Evaluates st (interpretSuffix R.withStrings s x (subscript i)) _ :=
    evaluates_subscript i
  rw [operatorIndex_of_isSeq hx] at heval
  unfold IndexAgrees InRange
  constructor
  · rintro ⟨-, houtside⟩
    have hno {j : ℤ} (hj : j < 0 ∨ items.length ≤ j)
        (hi : ¬ (-(items.length : ℤ) ≤ i.toInt ∧ i.toInt < items.length))
        (h : Evaluates st (interpretSuffix R.withStrings s x (subscript i)) (goIndex items j)) :
        False := by
      rw [goIndex_eq_error hj] at h
      exact indexError_ne hx (Except.error.inj (h.unique (houtside hi)))
    refine ⟨?_, ?_⟩
    · by_contra hlt
      rw [if_pos (by omega)] at heval
      exact hno (.inl (by omega)) (by omega) heval
    · intro heq
      rw [if_neg (by omega), if_neg (by omega)] at heval
      exact hno (.inr (by omega)) (by omega) heval
  · rintro ⟨hlow, hne⟩
    refine ⟨fun hi => ?_, fun hi => ?_⟩
    · have hpos : 0 ≤ i.toInt % items.length := Int.emod_nonneg _ (by omega)
      have hlt : i.toInt % items.length < items.length := Int.emod_lt_of_pos _ (by omega)
      have hitem := getElem?_eq_getElem
        (show (i.toInt % items.length).toNat < items.length by omega)
      have hgo := goIndex_eq_ok hpos hitem
      refine ⟨_, hitem, ?_⟩
      rw [← hgo]
      split_ifs at heval with hneg hlarge
      · rwa [← Int.emod_eq_of_lt (show 0 ≤ items.length + i.toInt by omega)
          (show items.length + i.toInt < items.length by omega), Int.add_emod_left] at heval
      · omega
      · rwa [← Int.emod_eq_of_lt (show 0 ≤ i.toInt by omega) hi.2] at heval
    · rw [if_neg (by omega), if_pos (by omega)] at heval
      exact heval

theorem sliceAgrees_list {l : Slice} (hl : l.Valid st.arrays) (hab : SliceBounds l.len a b) :
    SliceAgrees R s st (.list l) (l.contents st.arrays) a b := by
  obtain ⟨ha, hb, hle⟩ := hab
  have heval : Evaluates st (interpretSuffix R.withStrings s (.list l) (slice a b)) _ :=
    evaluates_slice_list rfl a b
  have hupper := upper_le l.len b
  have hcap := hl.len_le
  have hgo : goSlice l (goBounds l.len 0 a) (goBounds l.len l.len b) =
      .ok (l.reslice (lower l.len a) (upper l.len b)) := by
    rw [goBounds_eq_lower ha, goBounds_eq_upper hb, goSlice, if_pos (by omega), Int.toNat_natCast,
      Int.toNat_natCast]
  rw [hgo] at heval
  refine ⟨_, heval, rfl, hl.reslice hle (by omega), ?_⟩
  rw [Slice.contents_reslice _ hupper, pySlice, hl.length_contents]

section

variable (ht : Ascii t) (hlen : t.length < 9223372036854775808)
include ht hlen

theorem Ascii.isSeq : IsSeq st (.str t) (t.map fun b => .str [b]) := by
  have hrunes := runes_of_ascii ht
  refine ⟨?_, hlen, ?_⟩
  · rw [hrunes, ← flatMap_def, flatMap_singleton']
  · rw [hrunes, map_map]
    rfl

theorem evaluates_slice_ascii (hab : SliceBounds t.length a b) :
    Evaluates st (interpretSuffix R.withStrings s (.str t) (slice a b))
      (.ok (.str (pySlice t a b))) := by
  obtain ⟨ha, hb, hle⟩ := hab
  have hn : objLen R.withStrings (.str t) = .ok t.length := by
    have hseq : IsSeq st (.str t) _ := ht.isSeq hlen
    rw [objLen_of_isSeq hseq, length_map]
  have heval : Evaluates st (interpretSuffix R.withStrings s (.str t) (slice a b)) _ :=
    evaluates_slice_str hn a b
  have hupper := upper_le t.length b
  have hgo : R.withStrings.substr t (goBounds t.length 0 a) (goBounds t.length t.length b) =
      .ok (pySlice t a b) := by
    show goSubstr t _ _ = _
    rw [goBounds_eq_lower ha, goBounds_eq_upper hb, goSubstr, if_pos (by omega), Int.toNat_natCast,
      Int.toNat_natCast, pySlice]
  rwa [hgo] at heval

theorem sliceAgrees_ascii (hab : SliceBounds t.length a b) :
    SliceAgrees R s st (.str t) (t.map fun b => .str [b]) a b := by
  refine ⟨_, evaluates_slice_ascii ht hlen hab, rfl, ?_⟩
  have hslice : pySlice (t.map fun b => Obj.str [b]) a b = (pySlice t a b).map fun b =>
      .str [b] := by
    simp [pySlice]
  rw [hslice]
  refine Ascii.isSeq (fun c hc => ht c (mem_of_mem_take (mem_of_mem_drop hc))) ?_
  simp only [pySlice, length_drop, length_take]
  omega

/-- The character at `i` is the slice from `i` to `i + 1`, unless that is the start. -/
theorem characterAgrees_ascii {i : Int64} (hi : i.toInt ≠ -1) :
    CharacterAgrees R s st (.str t) (t.map fun b => .str [b]) i := by
  rintro _ - hrange j hj
  have hlength : (t.map fun b => Obj.str [b]).length = t.length := length_map _
  have hrange' := hrange
  rw [InRange, hlength] at hrange'
  obtain ⟨hlow, hhigh⟩ := hrange'
  obtain ⟨item, hitem, heval⟩ := ((indexAgrees_iff (R := R) (s := s) (ht.isSeq hlen) i).mpr
    ⟨by omega, by omega⟩).1 hrange
  rw [hlength] at hitem
  have hstart : (i.toInt % t.length).toNat = clamp t.length i.toInt := by
    unfold clamp
    split_ifs with hneg
    · rw [← Int.add_emod_left, Int.emod_eq_of_lt (by omega) (by omega)]
    · rw [Int.emod_eq_of_lt (by omega) hhigh]
      omega
  have hstop : clamp t.length j.toInt = clamp t.length i.toInt + 1 := by
    unfold clamp
    split_ifs <;> omega
  have hlt : clamp t.length i.toInt < t.length := by
    unfold clamp
    split_ifs <;> omega
  refine ⟨item, heval, ?_⟩
  have hbounds : SliceBounds t.length (some i) (some j) :=
    ⟨by simpa using hlow, by simp; omega, by simp [lower, upper, hstop]⟩
  have hslice : Evaluates st
      (interpretSuffix R.withStrings s (.str t) (slice (some i) (some j))) _ :=
    evaluates_slice_ascii ht hlen hbounds
  rw [hstart, getElem?_map, getElem?_eq_getElem hlt] at hitem
  obtain rfl := Option.some.inj hitem
  rwa [pySlice, show upper t.length (some j) = clamp t.length i.toInt + 1 from hstop,
    show lower t.length (some i) = clamp t.length i.toInt from rfl, drop_take,
    Nat.add_sub_cancel_left, take_one_drop_eq_of_lt_length hlt] at hslice

end

/-! ## Where they do not -/

/-- A slice that has a value has its bounds in order. -/
theorem sliceBounds_of_agrees (hx : IsSeq st x items) {o : Obj}
    (h : Evaluates st (interpretSuffix R.withStrings s x (slice a b)) (.ok o)) :
    SliceBounds items.length a b := by
  have hn : objLen R.withStrings x = .ok items.length := objLen_of_isSeq hx
  cases x with
  | list =>
    have hvalue := (evaluates_slice_list hn a b).unique h
    unfold goSlice at hvalue
    split_ifs at hvalue with hbounds
    · exact sliceBounds_of_le hbounds.1 hbounds.2.1
    · cases hvalue
  | frozenList => cases (evaluates_slice_frozen hn a b).unique h
  | str t =>
    have hvalue := (evaluates_slice_str hn a b).unique h
    change (goSubstr t _ _).map _ = _ at hvalue
    unfold goSubstr at hvalue
    split_ifs at hvalue with hbounds
    · exact sliceBounds_of_le hbounds.1 hbounds.2.1
    · cases hvalue
  | _ => exact hx.elim

/-- The last character is not the slice from the last character to the start. -/
theorem not_characterAgrees (hx : IsSeq st (.str t) items) (hpos : 0 < items.length) :
    ¬ CharacterAgrees R s st (.str t) items (-1) := by
  intro h
  obtain ⟨o, hchar, hslice⟩ :=
    h t rfl ⟨show _ ≤ (-1 : ℤ) by omega, show (-1 : ℤ) < _ by omega⟩ 0 rfl
  have hn : objLen R.withStrings (.str t) = .ok items.length := objLen_of_isSeq hx
  -- Go takes the bounds only if the string has one character
  have hone : items.length = 1 := by
    obtain ⟨-, -, hle⟩ := sliceBounds_of_agrees hx hslice
    have hle' : clamp items.length (-1) ≤ clamp items.length 0 := hle
    unfold clamp at hle'
    split_ifs at hle' <;> omega
  have hempty : o = .str [] := by
    have hvalue := (evaluates_slice_str hn (some (-1)) (some 0)).unique hslice
    rw [hone] at hvalue
    change (goSubstr t 0 0).map Obj.str = _ at hvalue
    exact (Except.ok.inj hvalue).symm
  have hvalue := (evaluates_subscript (-1)).unique hchar
  obtain ⟨item, hitem⟩ : ∃ item, items = [item] := length_eq_one_iff.mp hone
  rw [operatorIndex_of_isSeq hx, hitem, if_pos (by decide)] at hvalue
  obtain rfl : item = o := Except.ok.inj hvalue
  obtain ⟨-, -, hrunes⟩ := hx
  rw [hitem, hempty] at hrunes
  obtain ⟨c, hc, hcempty⟩ := mem_map.mp (hrunes ▸ mem_singleton_self (Obj.str []))
  exact (mem_runesFrom hc).1 (Obj.str.inj hcempty)

theorem exists_indexBounds (x : Obj) (n : ℕ) : ∃ i, IndexBounds x n i := by
  cases n with
  | zero => exact ⟨1, by decide, by decide, fun _ _ => by decide⟩
  | succ =>
    refine ⟨0, ?_, ?_, fun _ _ => by decide⟩
    · rw [Int64.toInt_zero]
      omega
    · rw [Int64.toInt_zero]
      omega

/-- The first bytes of a string, as many as it has characters, are not all of it. -/
theorem not_sliceAgrees_str (hx : IsSeq st (.str t) items) (hascii : ¬ Ascii t) :
    ∃ b, SliceBounds items.length (some 0) b ∧ ¬ SliceAgrees R s st (.str t) items (some 0) b := by
  have hn : objLen R.withStrings (.str t) = .ok items.length := objLen_of_isSeq hx
  obtain ⟨hflat, hlen, hitems⟩ := hx
  have hlength : items.length = (runes t).length := by rw [← hitems, length_map]
  have hlt : items.length < t.length := hlength ▸ length_runes_lt hflat hascii
  have hi : (Int64.ofNat items.length).toInt = items.length := Int64.toInt_ofNat_of_lt (by omega)
  have hupper : upper items.length (some (Int64.ofNat items.length)) = items.length := by
    simp only [upper, Option.elim_some, hi, clamp]
    split_ifs <;> omega
  have hlower : lower items.length (some 0) = 0 := by simp [lower, clamp]
  refine ⟨some (Int64.ofNat items.length), ⟨by simp, ?_, by omega⟩, ?_⟩
  · simp only [Option.mem_def, Option.some.injEq, forall_eq', hi]
    omega
  · rintro ⟨o, heval, -, hseq⟩
    have hvalue := (evaluates_slice_str hn _ _).unique heval
    have hstart : goBounds items.length 0 (some 0) = 0 := by simp [goBounds, goBound]
    have hstop : goBounds items.length t.length (some (Int64.ofNat items.length)) =
        items.length := by
      simp [goBounds, goBound, hi]
    rw [hstart, hstop] at hvalue
    change (goSubstr t 0 _).map Obj.str = _ at hvalue
    rw [goSubstr, if_pos (by omega)] at hvalue
    obtain rfl : Obj.str (t.take items.length) = o := Except.ok.inj hvalue
    rw [pySlice, hupper, hlower, drop_zero, take_length] at hseq
    obtain ⟨hflat', -, hitems'⟩ := hseq
    have hrunes : runes (t.take items.length) = runes t :=
      map_injective_iff.mpr (fun _ _ h => Obj.str.inj h) (hitems'.trans hitems.symm)
    rw [hrunes, hflat] at hflat'
    have := congrArg length hflat'
    rw [length_take] at this
    omega

/-- Every other sequence has a slice that is wrong. -/
theorem exists_not_sliceAgrees (hx : IsSeq st x items) (hplain : ¬ Plain x) :
    ∃ a b, SliceBounds items.length a b ∧ ¬ SliceAgrees R s st x items a b := by
  cases x with
  | list => exact absurd trivial hplain
  | frozenList =>
    refine ⟨none, none, ⟨by simp, by simp, Nat.zero_le _⟩, ?_⟩
    rintro ⟨o, heval, -⟩
    cases (evaluates_slice_frozen (objLen_of_isSeq hx) none none).unique heval
  | str => exact ⟨some 0, not_sliceAgrees_str hx hplain⟩
  | _ => exact hx.elim

theorem agreesWithPython_of_plain (hx : IsSeq st x items) (hplain : Plain x) {i : Int64}
    (hab : SliceBounds items.length a b) (hi : IndexBounds x items.length i) :
    AgreesWithPython R s st x items a b i := by
  obtain ⟨hlow, hne, hlast⟩ := hi
  have hindex : IndexAgrees R s st x items i := (indexAgrees_iff hx i).mpr ⟨hlow, hne⟩
  cases x with
  | list =>
    obtain ⟨hl, rfl⟩ := hx
    rw [hl.length_contents] at hab
    exact ⟨sliceAgrees_list hl hab, hindex, fun t ht => by cases ht⟩
  | str t =>
    obtain ⟨-, hlen, hitems⟩ := hx
    obtain rfl : (t.map fun b => Obj.str [b]) = items := by
      rw [← hitems, runes_of_ascii hplain, map_map]
      rfl
    rw [length_map] at hab
    exact ⟨sliceAgrees_ascii hplain hlen hab, hindex, characterAgrees_ascii hplain hlen
      (hlast t rfl)⟩
  | _ => exact hplain.elim

theorem bounds_of_agreesWithPython (hx : IsSeq st x items) {i : Int64}
    (h : AgreesWithPython R s st x items a b i) :
    SliceBounds items.length a b ∧ IndexBounds x items.length i := by
  obtain ⟨⟨o, hslice, -⟩, hindex, hchar⟩ := h
  obtain ⟨hlow, hne⟩ := (indexAgrees_iff hx i).mp hindex
  refine ⟨sliceBounds_of_agrees hx hslice, hlow, hne, ?_⟩
  rintro t rfl hlast
  obtain rfl : i = -1 := Int64.toInt_inj.mp hlast
  exact not_characterAgrees hx (by omega) hchar

/-- Exactly the lists that are not frozen and the strings in ASCII are indexed and sliced as in
Python within the bounds, and nothing is outside of them. -/
theorem agreesWithPython_iff (hx : IsSeq st x items) :
    ((∀ a b i, AgreesWithPython R s st x items a b i ↔
      SliceBounds items.length a b ∧ IndexBounds x items.length i) ↔ Plain x) ∧
    ∀ a b i, AgreesWithPython R s st x items a b i →
      SliceBounds items.length a b ∧ IndexBounds x items.length i := by
  refine ⟨⟨fun h => ?_, fun hplain a b i => ?_⟩, fun a b i => bounds_of_agreesWithPython hx⟩
  · by_contra hplain
    obtain ⟨a, b, hab, hnot⟩ :
        ∃ a b, SliceBounds items.length a b ∧ ¬ SliceAgrees R s st x items a b :=
      exists_not_sliceAgrees hx hplain
    obtain ⟨i, hi⟩ := exists_indexBounds x items.length
    exact hnot ((h a b i).mpr ⟨hab, hi⟩).1
  · exact ⟨bounds_of_agreesWithPython hx, fun h => agreesWithPython_of_plain hx hplain h.1 h.2⟩

/-- A store with the list `[1, 2, 3]`. -/
def listStore : Store Unit := ⟨[[.int 1, .int 2, .int 3]], [], [], [], ()⟩

theorem isSeq_listStore : IsSeq listStore (.list ⟨0, 0, 3, 3, false⟩) [.int 1, .int 2, .int 3] :=
  ⟨⟨le_rfl, _, rfl, le_rfl⟩, rfl⟩

theorem agreesWithPython_listStore :
    AgreesWithPython (Runtime.bare Unit) 0 listStore (.list ⟨0, 0, 3, 3, false⟩)
      [.int 1, .int 2, .int 3] (some (-2)) none (-1) :=
  have hbounds : SliceBounds 3 (some (-2)) none :=
    ⟨by rintro _ ⟨⟩; decide, by rintro _ ⟨⟩, by decide⟩
  (((agreesWithPython_iff isSeq_listStore).1.mpr trivial) (some (-2)) none (-1)).mpr
    ⟨hbounds, by decide, by decide, fun t ht => by cases ht⟩

/-- `[1, 2, 3][2:1]` and `[1, 2, 3][3]` are panics of Go, and `"é"[0:1]` is half a character. -/
theorem not_agreesWithPython_listStore :
    (∃ l, IsSeq listStore l [.int 1, .int 2, .int 3] ∧
      Evaluates listStore
        (interpretSuffix (Runtime.bare Unit).withStrings 0 l (slice (some 2) (some 1)))
        (.error (utf8 "runtime error: slice bounds out of range")) ∧
      ¬ SliceAgrees (Runtime.bare Unit) 0 listStore l [.int 1, .int 2, .int 3] (some 2) (some 1) ∧
      Evaluates listStore (interpretSuffix (Runtime.bare Unit).withStrings 0 l (subscript 3))
        (.error (utf8 "runtime error: index out of range")) ∧
      ¬ IndexAgrees (Runtime.bare Unit) 0 listStore l [.int 1, .int 2, .int 3] 3) ∧
    IsSeq listStore (.str [0xC3, 0xA9]) [.str [0xC3, 0xA9]] ∧
    Evaluates listStore (interpretSuffix (Runtime.bare Unit).withStrings 0 (.str [0xC3, 0xA9])
      (slice (some 0) (some 1))) (.ok (.str [0xC3])) := by
  refine ⟨⟨_, isSeq_listStore, evaluates_slice_list rfl _ _, ?_, evaluates_subscript 3, ?_⟩,
    ⟨by decide, by decide, by decide⟩, evaluates_slice_str rfl _ _⟩
  · rintro ⟨o, heval, -⟩
    exact absurd (sliceBounds_of_agrees isSeq_listStore heval).2.2 (by decide)
  · intro h
    exact absurd ((indexAgrees_iff isSeq_listStore 3).mp h).2 (by decide)

end Please.Asp.Interp
