import Please.Asp.TokenText

/-!
# The strings of printed rules

`plz query print` prints a string as it is between two quotes (`src/query/print.go`), where the
lexer of BUILD files (`consumeString`) looks for the closing quote and for escape sequences.

* `nextToken_quote_iff`: which strings the lexer reads back.
-/

namespace Please.Query

open Please.Asp.Syntax Please.Lib.Utf8 Please.Lib.Except List Scan
open Please.Fs (Bytes)
open Please.Build (utf8)

/-- `printer.quote` (lines 438–443), with the surrounding syntax. -/
def quote (s : Bytes) : Bytes := byte '\'' :: s ++ [byte '\'']

/-- No byte ends the literal, and a backslash comes before a byte with which it stands for itself.
The first argument says whether a backslash came before. -/
def readsBack : Bool → Bytes → Bool
  | escaped, [] => !escaped
  | true, c :: s => unescape false c = [byte '\\', c] && readsBack false s
  | false, c :: s => c ≠ byte '\'' && c ≠ byte '\n' && c ≠ 0 && readsBack (c = byte '\\') s

theorem stringBytes_of_readsBack {escaped : Bool} {s : Bytes} (h : readsBack escaped s)
    (rest : Bytes) (pos : ℕ) :
    stringBytes (byte '\'') false false pos escaped (s ++ byte '\'' :: rest) =
      .ok (if escaped then byte '\\' :: s else s, s.length + 1) := by
  induction s generalizing escaped with
  | nil =>
    cases escaped with
    | true => cases h
    | false => rfl
  | cons c s ih =>
    cases escaped with
    | true =>
      simp only [readsBack, Bool.and_eq_true, decide_eq_true_eq] at h
      rw [cons_append, stringBytes, ih h.2, h.1]
      rfl
    | false =>
      simp only [readsBack, Bool.and_eq_true, decide_eq_true_eq] at h
      obtain ⟨⟨⟨hquote, hline⟩, hzero⟩, h⟩ := h
      by_cases hc : c = byte '\\'
      · subst hc
        rw [decide_eq_true rfl] at h
        simp [stringBytes, hquote, hline, hzero, ih h]
      · rw [decide_eq_false hc] at h
        simp [stringBytes, hquote, hline, hzero, hc, ih h]

/-- A step of the loop adds no more bytes to the literal than it has read. -/
theorem length_le_of_stringStep {quote : UInt8} {multiline raw escaped : Bool} {pos : ℕ}
    {next : UInt8} {rest : Bytes} {step : ℕ ⊕ Bool × Bytes}
    (h : stringStep quote multiline raw pos escaped next rest = .ok step) :
    step.elim (fun n => (if multiline then 3 else 1) ≤ n)
      fun s => s.2.length + s.1.toNat ≤ 1 + escaped.toNat := by
  unfold stringStep at h
  split at h
  · rename_i hesc
    cases h
    unfold unescape
    simp only [Sum.elim_inr, hesc, Bool.toNat_true, Bool.toNat_false]
    split_ifs <;> simp
  · split_ifs at h with hquote hmulti
    · cases h
      simp_all
    · obtain ⟨closes, -, h⟩ := bind_eq_ok.mp h
      cases closes <;> cases h <;> simp_all
    all_goals
      cases h
      simp

/-- A literal has no more bytes than are read for it, beside its closing quotes. -/
theorem length_le_of_stringBytes {quote : UInt8} {multiline raw escaped : Bool} {pos : ℕ}
    {s : Bytes} {r : Bytes × ℕ} (h : stringBytes quote multiline raw pos escaped s = .ok r) :
    r.1.length + (if multiline then 3 else 1) ≤ r.2 + escaped.toNat := by
  induction s generalizing escaped r with
  | nil => cases escaped <;> cases h
  | cons next rest ih =>
    rw [stringBytes_cons] at h
    obtain ⟨step, hstep, h⟩ := bind_eq_ok.mp h
    have hlen := length_le_of_stringStep hstep
    cases step with
    | inl n =>
      cases h
      simp only [Sum.elim_inl, length_nil] at hlen ⊢
      omega
    | inr step =>
      obtain ⟨r', hr', rfl⟩ := map_eq_ok.mp h
      have hle := ih hr'
      simp only [Sum.elim_inr, length_append] at hlen ⊢
      omega

/-- If the string is read back as it is, with its closing quote, the literal ends nowhere else and
no backslash makes an escape sequence. -/
theorem readsBack_of_stringBytes {escaped : Bool} {s rest : Bytes} {pos : ℕ}
    (h : stringBytes (byte '\'') false false pos escaped (s ++ byte '\'' :: rest) =
      .ok (if escaped then byte '\\' :: s else s, s.length + 1)) : readsBack escaped s := by
  induction s generalizing escaped with
  | nil =>
    cases escaped with
    | true =>
      obtain ⟨r, hr, heq⟩ := bind_eq_ok.mp h
      have hpos := (stringBytes_length hr).1
      simp only [pure, Except.pure, Except.ok.injEq, Prod.mk.injEq, length_nil] at heq
      omega
    | false => rfl
  | cons c s ih =>
    cases escaped with
    | true =>
      obtain ⟨⟨v, n⟩, hr, heq⟩ := bind_eq_ok.mp h
      have hle := length_le_of_stringBytes hr
      simp only [pure, Except.pure, Except.ok.injEq, Prod.mk.injEq, length_cons, if_true,
        if_false, Bool.false_eq_true, Bool.toNat_false] at heq hle
      obtain ⟨hv, hn⟩ := heq
      have hlen := congrArg length hv
      simp only [length_append, length_cons] at hlen
      have hunescape : unescape false c = [byte '\\', c] := by
        unfold unescape at hlen ⊢
        split_ifs at hlen ⊢ <;> simp at hlen <;> first | omega | rfl
      rw [hunescape] at hv
      obtain rfl : v = s := by simpa using hv
      have hs : readsBack false v := ih (by simpa [← Nat.add_right_cancel hn] using hr)
      simp [readsBack, hunescape, hs]
    | false =>
      simp only [cons_append, stringBytes, Bool.false_eq_true, and_false, if_false, Bool.not_false,
        and_true, if_true] at h
      by_cases hquote : c = byte '\''
      · rw [if_pos hquote] at h
        cases h
      by_cases hzero : c = byte '\n' ∨ c = 0
      · rw [if_neg hquote, if_pos hzero] at h
        cases h
      have hc : c ≠ byte '\n' ∧ c ≠ 0 := not_or.mp hzero
      rw [if_neg hquote, if_neg hzero] at h
      by_cases hback : c = byte '\\'
      · rw [if_pos hback] at h
        obtain ⟨⟨v, n⟩, hr, heq⟩ := bind_eq_ok.mp h
        obtain ⟨rfl, hn⟩ := Prod.mk.inj (Except.ok.inj heq)
        have hn : n = s.length + 1 := Nat.add_right_cancel hn
        have hs : readsBack true s := ih (by rw [hr, if_pos rfl, hback, hn])
        simp [readsBack, hquote, hc, decide_eq_true hback, hs]
      · rw [if_neg hback] at h
        obtain ⟨⟨v, n⟩, hr, heq⟩ := bind_eq_ok.mp h
        obtain ⟨hv, hn⟩ := Prod.mk.inj (Except.ok.inj heq)
        have hv : v = s := (cons.inj hv).2
        have hn : n = s.length + 1 := Nat.add_right_cancel hn
        have hs : readsBack false s := ih (by rw [hr, hv, hn]; rfl)
        simp [readsBack, hquote, hc, hback, hs]

/-- The literal is read up to its closing quote exactly if the string is one that reads back. -/
theorem symbol_quote_iff {l : Scan} {s rest : Bytes} {b : UInt8}
    (hrest : l.rest = s ++ byte '\'' :: b :: rest) (hb : b ≠ byte '\'') (pos : ℕ) :
    l.symbol (byte '\'') pos =
        .ok (⟨.string, byte '"' :: s ++ [byte '"'], pos⟩, l.skip (s.length + 1)) ↔
      readsBack false s := by
  show l.consumePossiblyTripleQuotedString (byte '\'') pos false false = _ ↔ _
  have hposition {n m : ℕ} (h : l.skip n = l.skip m) : n = m := by
    have := congrArg Scan.pos h
    simpa [skip] using this
  rw [consumePossiblyTripleQuotedString]
  constructor
  · intro h
    obtain ⟨triple, htriple, h⟩ := bind_eq_ok.mp h
    cases triple with
    | true =>
      -- three quotes end a literal of three quotes, so that less of the text is its value
      obtain ⟨⟨v, n⟩, hr, heq⟩ := bind_eq_ok.mp h
      have hle := length_le_of_stringBytes hr
      simp only [pure, Except.pure, Except.ok.injEq, Prod.mk.injEq, Token.mk.injEq, skip_skip,
        Bool.false_eq_true, if_false, true_and, cons_append, cons.injEq, append_left_inj] at heq
      have hn := hposition heq.2
      simp only [heq.1.1, if_true, Bool.toNat_false] at hle
      omega
    | false =>
      obtain ⟨⟨v, n⟩, hr, heq⟩ := bind_eq_ok.mp h
      simp only [pure, Except.pure, Except.ok.injEq, Prod.mk.injEq, Token.mk.injEq,
        Bool.false_eq_true, if_false, true_and, cons_append, cons.injEq, append_left_inj] at heq
      rw [heq.1.1, hposition heq.2, hrest] at hr
      exact readsBack_of_stringBytes hr
  · intro hs
    have htriple : closesTriple (byte '\'') l.rest = .ok false := by
      rw [hrest]
      cases s with
      | nil => simp [closesTriple, hb]
      | cons c =>
        have hc : c ≠ byte '\'' := by
          rintro rfl
          simp [readsBack] at hs
        simp [closesTriple, hc]
    rw [htriple]
    show l.consumeString (byte '\'') pos false false false = _
    rw [consumeString, hrest, stringBytes_of_readsBack hs]
    rfl

/-- What is printed for a string is one token, which has the string for its value, exactly if the
string is one that reads back. -/
theorem nextToken_quote_iff [Unicode] {l : Scan} {s rest : Bytes} {b : UInt8}
    (hrest : l.rest = quote s ++ b :: rest) (hb : b ≠ byte '\'') (hl : l.unindents = 0) (n : ℕ) :
    l.nextToken (n + 1) =
        .ok (⟨.string, byte '"' :: s ++ [byte '"'], l.pos⟩, l.skip (quote s).length) ↔
      readsBack false s := by
  have hget : l.get 0 = .ok (byte '\'') := get_zero_eq_ok.mpr ⟨_, hrest⟩
  have hscan : l.scan = (.token <$> (l.skip 1).symbol (byte '\'') l.pos : Except Error Pass) := by
    simp [scan, hl, hget]
    rfl
  have hskip : (l.skip 1).rest = s ++ byte '\'' :: b :: rest := by simp [hrest, quote]
  have hlen : (quote s).length = 1 + (s.length + 1) := by simp [quote, Nat.add_comm]
  rw [← symbol_quote_iff hskip hb l.pos, hlen, ← skip_skip]
  -- no space comes before the quote
  rw [nextToken, pass_eq, strip_eq_self (by rw [hrest]; rfl),
    if_neg (by simp [hrest, quote]), hscan]
  cases (l.skip 1).symbol (byte '\'') l.pos <;> rfl

/-- A backslash before another byte than those of escape sequences is read back. -/
theorem nextToken_quote_iff_backslash :
    ∃ l, @nextToken Unicode.ascii 1 (start (buffer (quote (utf8 "a\\d")))) =
      .ok (⟨.string, utf8 "\"a\\d\"", 0⟩, l) :=
  ⟨_, (@nextToken_quote_iff Unicode.ascii _ (utf8 "a\\d") [0, 0] (byte '\n') rfl (by decide) rfl
    0).mpr (by decide)⟩

/-- A quote in a string ends the literal. -/
theorem nextToken_quote_apostrophe :
    ∃ l, @nextToken Unicode.ascii 1 (start (buffer (quote (utf8 "it's")))) =
      .ok (⟨.string, utf8 "\"it\"", 0⟩, l) :=
  ⟨_, rfl⟩

end Please.Query
