import Please.Asp.LexerBounds

/-!
# What the lexer reads

The bytes of a text that the lexer goes over, piece by piece. Between two tokens there are blanks
and comments. The text of a token are the bytes from its position on up to where the lexer stops; a
space that is consumed with an identifier is not part of it, and the end of a line or of a block has
no text.
-/

namespace Please.Asp.Syntax

open Please.Lib.Utf8 Please.Lib.Except
open Please.Fs (Bytes)
open Please.Build (utf8)
open List

/-! ## Strings -/

theorem two_le_of_closesTriple {quote : UInt8} {s : Bytes} (h : closesTriple quote s = .ok true) :
    2 ≤ s.length := by
  match s, h with
  | [], h => cases h
  | [x], h =>
    rw [closesTriple] at h
    split at h <;> cases h
  | x :: y :: s, _ => simp

section strings

variable {quote : UInt8} {multiline raw escaped : Bool} {pos : ℕ} {r : Bytes × ℕ}

/-- What the loop of `consumeString` does at a byte: it ends, with the number of quotes, or it goes
on, with the bytes of the literal that the byte stands for. -/
def stringStep (quote : UInt8) (multiline raw : Bool) (pos : ℕ) (escaped : Bool) (next : UInt8)
    (rest : Bytes) : Except Error (ℕ ⊕ Bool × Bytes) :=
  if escaped then return .inr (false, unescape multiline next)
  else if next = quote then
    if !multiline then return .inl 1
    else do
      if ← closesTriple quote rest then return .inl 3 else return .inr (false, [next])
  else if next = byte '\n' ∧ multiline then return .inr (false, [next])
  else if next = byte '\n' ∨ next = 0 then
    throw (.fail pos (utf8 "Unterminated string literal"))
  else if next = byte '\\' ∧ !raw then return .inr (true, [])
  else return .inr (false, [next])

theorem stringBytes_cons (next : UInt8) (rest : Bytes) :
    stringBytes quote multiline raw pos escaped (next :: rest) =
      stringStep quote multiline raw pos escaped next rest >>= Sum.elim (fun n => pure ([], n))
        fun s => (fun r => (s.2 ++ r.1, r.2 + 1)) <$>
          stringBytes quote multiline raw pos s.1 rest := by
  cases escaped with
  | true => rfl
  | false =>
    rw [stringBytes, stringStep, if_neg Bool.false_ne_true]
    split_ifs
    all_goals try rfl
    cases closesTriple quote rest with
    | error => rfl
    | ok closes => cases closes <;> rfl

/-- The loop reads one byte at least, and none that is not there. -/
theorem stringBytes_length {s : Bytes}
    (h : stringBytes quote multiline raw pos escaped s = .ok r) : 0 < r.2 ∧ r.2 ≤ s.length := by
  induction s generalizing escaped r with
  | nil => cases escaped <;> cases h
  | cons _ _ ih =>
    rw [stringBytes_cons] at h
    obtain ⟨s, hs, h⟩ := bind_eq_ok.mp h
    rw [length_cons]
    cases s with
    | inl =>
      cases h
      unfold stringStep at hs
      split_ifs at hs
      all_goals try cases hs
      · exact ⟨Nat.one_pos, Nat.le_add_left 1 _⟩
      · obtain ⟨closes, hcloses, hs⟩ := bind_eq_ok.mp hs
        cases closes <;> cases hs
        have := two_le_of_closesTriple hcloses
        exact ⟨Nat.succ_pos 2, by omega⟩
    | inr =>
      obtain ⟨r', hr', rfl⟩ := map_eq_ok.mp h
      have := ih hr'
      exact ⟨Nat.succ_pos _, Nat.succ_le_succ this.2⟩

end strings

/-! ## Pieces of a text -/

/-- White space, to the lexer. -/
def isBlank (b : UInt8) : Bool := isSpace b || b = byte '\r' || b = byte '\n'

/-- A piece of a text. -/
inductive Piece
  | token (tok : Token) (text : Bytes)
  | blank (text : Bytes)
  | comment (text : Bytes)

namespace Piece

def text : Piece → Bytes
  | token _ text | blank text | comment text => text

/-- The token of a piece, with its text. -/
def read : Piece → Option (Token × Bytes)
  | token tok text => some (tok, text)
  | _ => none

/-- A piece with no token in it: blanks, or a `#` and what follows it on its line. -/
def IsGap : Piece → Prop
  | token _ _ => False
  | blank text => ∀ b ∈ text, isBlank b
  | comment text => ∃ body, text = byte '#' :: body ∧ ∀ b ∈ body, isCommentByte b

/-- What a piece is like that starts at `i`: a token is where its position says. -/
def OkAt (i : ℕ) : Piece → Prop
  | token tok _ => tok.type.InLine → tok.pos = i
  | p => p.IsGap

theorem IsGap.okAt {p : Piece} (h : p.IsGap) (i : ℕ) : p.OkAt i := by
  cases p with
  | token => exact h.elim
  | blank text | comment text => exact h

theorem IsGap.read_eq {p : Piece} (h : p.IsGap) : p.read = none := by
  cases p with
  | token => exact h.elim
  | blank text | comment text => rfl

end Piece

/-- The text of pieces. -/
def textOf (pieces : List Piece) : Bytes := pieces.flatMap Piece.text

/-- Pieces one after the other, from `i` on. -/
def Layout : ℕ → List Piece → Prop
  | _, [] => True
  | i, p :: ps => p.OkAt i ∧ Layout (i + p.text.length) ps

theorem textOf_append (ps qs : List Piece) : textOf (ps ++ qs) = textOf ps ++ textOf qs :=
  flatMap_append

theorem layout_append {i : ℕ} {ps qs : List Piece} :
    Layout i (ps ++ qs) ↔ Layout i ps ∧ Layout (i + (textOf ps).length) qs := by
  induction ps generalizing i with
  | nil => simp [Layout, textOf]
  | cons p ps ih =>
    rw [cons_append, Layout, Layout, ih, and_assoc]
    simp [textOf, Nat.add_assoc]

theorem layout_of_isGap {ps : List Piece} (h : ∀ p ∈ ps, p.IsGap) (i : ℕ) : Layout i ps := by
  induction ps generalizing i with
  | nil => trivial
  | cons p ps ih =>
    exact ⟨(h p mem_cons_self).okAt i, ih (forall_mem_cons.mp h).2 _⟩

/-! ## Moving over bytes -/

namespace Scan

variable {l l' l₁ : Scan} {r : Token × Scan} {n pos : ℕ}

/-- The lexer moves over the bytes `text`. -/
def Over (l : Scan) (text : Bytes) (l' : Scan) : Prop :=
  l.rest = text ++ l'.rest ∧ l'.pos = l.pos + text.length

theorem Over.trans {s s' : Bytes} (h : l.Over s l₁) (h' : l₁.Over s' l') : l.Over (s ++ s') l' := by
  constructor
  · rw [h.1, h'.1, append_assoc]
  · rw [h'.2, h.2, length_append, Nat.add_assoc]

theorem over_skip (hn : n ≤ l.rest.length) : l.Over (l.rest.take n) (l.skip n) := by
  refine ⟨(take_append_drop n l.rest).symm, ?_⟩
  rw [length_take, Nat.min_eq_left hn]
  rfl

theorem over_takeWhile (p : UInt8 → Bool) :
    l.Over (l.rest.takeWhile p) (l.skip (l.rest.takeWhile p).length) := by
  have h := over_skip (l := l) (n := (l.rest.takeWhile p).length)
    (List.takeWhile_prefix p).length_le
  rwa [← prefix_iff_eq_take.mp (List.takeWhile_prefix p)] at h

/-! ## Blanks and comments -/

/-- The lexer goes over blanks and comments. -/
def Passes (l l' : Scan) : Prop := ∃ ps, (∀ p ∈ ps, Piece.IsGap p) ∧ l.Over (textOf ps) l'

theorem Passes.trans (h : l.Passes l₁) (h' : l₁.Passes l') : l.Passes l' := by
  obtain ⟨ps, hps, hover⟩ := h
  obtain ⟨qs, hqs, hover'⟩ := h'
  refine ⟨ps ++ qs, forall_mem_append.mpr ⟨hps, hqs⟩, ?_⟩
  rw [textOf_append]
  exact hover.trans hover'

theorem Over.passes {p : Piece} (h : l.Over p.text l') (hp : p.IsGap) : l.Passes l' := by
  refine ⟨[p], forall_mem_singleton.mpr hp, ?_⟩
  simpa [textOf] using h

theorem isBlank_of_mem_spaces {s : Bytes} {b : UInt8} (h : b ∈ s.takeWhile isSpace) :
    isBlank b := by
  rw [isBlank, mem_takeWhile_imp h]
  rfl

theorem passes_strip : l.Passes l.strip :=
  Over.passes (p := .blank _) (over_takeWhile isSpace) fun _ => isBlank_of_mem_spaces

/-- The state after `indentTo` is at the same byte. -/
theorem indentTo_over {indent : ℕ} {x : Scan × ℕ} (h : l.indentTo indent pos = .ok x) :
    l.Over [] x.1 := by
  unfold indentTo at h
  split at h
  · split at h
    · cases h
    · split at h <;> cases h
      exact ⟨rfl, rfl⟩
  · split at h <;> cases h <;> exact ⟨rfl, rfl⟩

end Scan

/-- The state that a round leaves. -/
def Pass.state : Pass → Scan
  | .token r => r.2
  | .again l => l

namespace Scan

variable {l l' l₁ : Scan} {r : Token × Scan} {n pos : ℕ}

/-- The end of a line, with the indentation of the next one. -/
theorem newline_over {rest : Bytes} (hrest : l.rest = byte '\n' :: rest) {x : Pass}
    (h : (l.skip 1).newline pos = .ok x) :
    (∃ text, (∀ b ∈ text, isBlank b) ∧ l.Over text x.state) ∧ ∀ r, x = .token r →
      r.1.type = .eol := by
  have hone : l.Over [byte '\n'] (l.skip 1) := by
    simpa [hrest] using over_skip (l := l) (n := 1) (by simp [hrest])
  have hblank : ∀ b ∈ [byte '\n'] ++ (l.skip 1).rest.takeWhile isSpace, isBlank b :=
    forall_mem_append.mpr
      ⟨forall_mem_singleton.mpr rfl, fun _ => isBlank_of_mem_spaces⟩
  obtain ⟨⟨spaces, l₁⟩, hspaces, h⟩ := bind_eq_ok.mp h
  obtain ⟨rfl, -, rfl⟩ := takeWhile_eq_ok.mp hspaces
  have hover := hone.trans (over_takeWhile isSpace)
  obtain ⟨b, -, h⟩ := bind_eq_ok.mp h
  split at h
  · cases h
    exact ⟨⟨_, hblank, hover⟩, fun _ h => by cases h⟩
  split at h
  · obtain ⟨y, hy, h⟩ := bind_eq_ok.mp h
    have hover := hover.trans (indentTo_over hy)
    rw [append_nil] at hover
    dsimp only at h
    split at h
    · cases h
      exact ⟨⟨_, hblank, hover⟩, fun _ h => by cases h⟩
    · cases h
      refine ⟨⟨_, hblank, hover⟩, ?_⟩
      rintro _ ⟨⟩
      rfl
  · cases h
    exact ⟨⟨_, hblank, hover⟩, fun _ h => by cases h⟩

/-! ## Tokens -/

/-- The text of a token that is read from `l` on. -/
def tokenText (l : Scan) (r : Token × Scan) : Bytes :=
  if r.1.type = .eol ∨ r.1.type = .unindent then []
  else if r.1.type = .ident then r.1.value
  else (l.rest.drop (r.1.pos - l.pos)).take (r.2.pos - r.1.pos)

/-- A token at `pos` that is read from `l` on, after bytes that have been read before. -/
structure Taken (l : Scan) (pos : ℕ) (r : Token × Scan) : Prop where
  state : ∃ n braces, n ≤ l.rest.length ∧ r.2 = { l.skip n with braces }
  pos : r.1.pos = pos
  inLine : r.1.type.InLine
  ident : r.1.type ≠ .ident

theorem taken_skip {type : TokenType} {value : Bytes} (hn : n ≤ l.rest.length) (htype : type.InLine)
    (hident : type ≠ .ident) : l.Taken pos (⟨type, value, pos⟩, l.skip n) :=
  ⟨⟨n, l.braces, hn, rfl⟩, rfl, htype, hident⟩

theorem Taken.of_skip (h : (l.skip n).Taken pos r) (hn : n ≤ l.rest.length) : l.Taken pos r := by
  obtain ⟨m, braces, hm, hr⟩ := h.state
  rw [skip_skip] at hr
  rw [skip_rest, length_drop] at hm
  exact { h with state := ⟨n + m, braces, by omega, hr⟩ }

theorem taken_charToken (b : UInt8) (braces : ℕ) :
    l.Taken pos (charToken b pos, { l with braces }) :=
  ⟨⟨0, braces, Nat.zero_le _, rfl⟩, rfl, TokenType.inLine_char _, fun h => by cases h⟩

theorem taken_consumeInteger {initial : UInt8} (h : l.consumeInteger initial pos = .ok r) :
    l.Taken pos r := by
  obtain ⟨⟨digits, l₁⟩, hdigits, heq⟩ := bind_eq_ok.mp h
  cases heq
  obtain ⟨-, hlen, rfl⟩ := takeWhile_eq_ok.mp hdigits
  exact taken_skip hlen.le (by decide) (by decide)

theorem taken_consumeString {quote : UInt8} {multiline raw fString : Bool}
    (h : l.consumeString quote pos multiline raw fString = .ok r) : l.Taken pos r := by
  obtain ⟨x, hx, heq⟩ := bind_eq_ok.mp h
  cases heq
  exact taken_skip (stringBytes_length hx).2 (by decide) (by decide)

theorem taken_tripleQuoted {quote : UInt8} {raw fString : Bool}
    (h : l.consumePossiblyTripleQuotedString quote pos raw fString = .ok r) : l.Taken pos r := by
  obtain ⟨closes, hcloses, h⟩ := bind_eq_ok.mp h
  cases closes with
  | true => exact (taken_consumeString h).of_skip (two_le_of_closesTriple hcloses)
  | false => exact taken_consumeString h

theorem taken_symbol {b : UInt8} (hb : b ≠ 0) (h : l.symbol b pos = .ok r) : l.Taken pos r := by
  have hskip {c : UInt8} (hc : l.get 0 = .ok c) : 1 ≤ l.rest.length := by
    obtain ⟨rest, hrest⟩ := get_zero_eq_ok.mp hc
    simp [hrest]
  rw [symbol, if_neg hb] at h
  split at h
  · obtain ⟨c, hc, h⟩ := bind_eq_ok.mp h
    split at h
    · exact (taken_consumeInteger h).of_skip (hskip hc)
    · exact taken_consumeInteger h
  split at h
  · exact taken_consumeInteger h
  split at h
  · exact taken_tripleQuoted h
  split at h
  · cases h
    exact taken_charToken b _
  split at h
  · cases h
    exact taken_charToken b _
  split at h
  · cases h
    exact taken_charToken b l.braces
  split at h
  · obtain ⟨c, -, h⟩ := bind_eq_ok.mp h
    split at h
    · exact taken_consumeInteger h
    · cases h
      exact taken_charToken b l.braces
  split at h
  · obtain ⟨c, hc, h⟩ := bind_eq_ok.mp h
    split at h
    · cases h
      exact taken_skip (hskip hc) (by decide) (by decide)
    · cases h
      exact taken_charToken b l.braces
  · split at h <;> cases h

/-- What is read with a token: its text, and blanks after it. -/
structure Gives (l : Scan) (r : Token × Scan) : Prop where
  state : ∃ gap, (∀ b ∈ gap, isBlank b) ∧ l.Over (l.tokenText r ++ gap) r.2
  eof : r.1.type = .eof → l.tokenText r = [0]
  pos : r.1.type.InLine ∨ r.1.type = .eof → r.1.pos = l.pos

/-- A token that is not an identifier is all that is read. -/
theorem Taken.gives (h : (l.skip n).Taken l.pos r) (hn : n ≤ l.rest.length) : l.Gives r := by
  have htype := h.inLine
  obtain ⟨m, braces, hm, hr⟩ := (h.of_skip hn).state
  have hpos : r.2.pos = l.pos + m := by rw [hr]; rfl
  have htext : l.tokenText r = l.rest.take m := by
    rw [tokenText, if_neg (by simp [htype.2.1, htype.2.2]), if_neg h.ident, h.pos, hpos]
    simp
  refine ⟨⟨[], forall_mem_nil _, ?_⟩, fun heof => absurd heof htype.1, fun _ => h.pos⟩
  rw [append_nil, htext, hr]
  exact over_skip hm

/-- The text of a token is the same from wherever the lexer has come to it. -/
theorem Passes.tokenText_eq (h : l.Passes l₁) (hr : l₁.Gives r) :
    l.tokenText r = l₁.tokenText r := by
  obtain ⟨ps, -, hrest, hpos⟩ := h
  unfold tokenText
  split
  · rfl
  rename_i hmark
  split
  · rfl
  have htok : r.1.pos = l₁.pos := by
    refine hr.pos ?_
    by_cases heof : r.1.type = .eof
    · exact .inr heof
    · exact .inl ⟨heof, not_or.mp hmark⟩
  rw [htok, hpos, hrest, Nat.add_sub_cancel_left, drop_left]
  simp

/-! ## Rounds -/

variable [Unicode]

theorem passes_of_again (h : l.pass = .ok (.again l')) : l.Passes l' := by
  rw [pass_eq] at h
  split at h
  · cases h
  refine passes_strip.trans ?_
  obtain ⟨next, rest, -, hrest, hcases⟩ := scan_eq_again h
  have hone : l.strip.Over [next] (l.strip.skip 1) := by
    simpa [hrest] using over_skip (l := l.strip) (n := 1) (by simp [hrest])
  obtain ⟨rfl, rfl⟩ | ⟨rfl, h⟩ | ⟨rfl, h⟩ := hcases
  · exact Over.passes (p := .blank [byte '\r']) hone (forall_mem_singleton.mpr rfl)
  · obtain ⟨⟨text, htext, hover⟩, -⟩ := newline_over hrest h
    exact Over.passes (p := .blank text) hover htext
  · obtain ⟨⟨body, l₁⟩, hbody, heq⟩ := bind_eq_ok.mp h
    cases heq
    obtain ⟨rfl, -, rfl⟩ := takeWhile_eq_ok.mp hbody
    have hover := hone.trans (over_takeWhile isCommentByte)
    exact Over.passes (p := .comment _) hover ⟨_, rfl, fun b hb => mem_takeWhile_imp hb⟩

/-- The bytes of an identifier come first. -/
theorem identBytes_prefix {k : ℕ} {s s' : Bytes} (h : identBytes pos k s = .ok s') : s' <+: s := by
  induction s generalizing k s' with
  | nil => cases k <;> cases h
  | cons b rest ih =>
    have hcons {k : ℕ} (h : (identBytes pos k rest >>= fun s => pure (b :: s)) = .ok s') :
        s' <+: b :: rest := by
      obtain ⟨t, ht, heq⟩ := bind_eq_ok.mp h
      cases heq
      exact cons_prefix_cons.mpr ⟨rfl, ih ht⟩
    cases k with
    | succ => exact hcons h
    | zero =>
      rw [identBytes] at h
      split at h
      · dsimp only at h
        split at h
        · cases h
        · exact hcons h
      split at h
      · exact hcons h
      · cases h
        exact nil_prefix

theorem gives_of_consumeIdent (h : l.consumeIdent l.pos = .ok r) : l.Gives r := by
  obtain ⟨s, hs, h⟩ := bind_eq_ok.mp h
  obtain ⟨c, hc, heq⟩ := bind_eq_ok.mp h
  have hover : l.Over s (l.skip s.length) := by
    have hprefix := identBytes_prefix hs
    have h := over_skip (l := l) hprefix.length_le
    rwa [← prefix_iff_eq_take.mp hprefix] at h
  obtain ⟨gap, hgap, hstate⟩ : ∃ gap, (∀ b ∈ gap, isBlank b) ∧ l.Over (s ++ gap) r.2 := by
    cases heq
    split
    · rename_i hspace
      obtain ⟨t, ht⟩ := get_zero_eq_ok.mp hc
      refine ⟨[c], forall_mem_singleton.mpr (by rw [isBlank, hspace]; rfl), hover.trans ?_⟩
      have hlen : 1 ≤ (l.skip s.length).rest.length := by
        rw [ht]
        exact Nat.le_add_left 1 _
      have h := over_skip hlen
      rwa [ht] at h
    · exact ⟨[], forall_mem_nil _, by rwa [append_nil]⟩
  cases heq
  exact ⟨⟨gap, hgap, hstate⟩, (fun h => by cases h), fun _ => rfl⟩

theorem gives_of_scan (h : l.scan = .ok (.token r)) : l.Gives r := by
  unfold scan at h
  split at h
  · cases h
    exact ⟨⟨[], forall_mem_nil _, ⟨rfl, rfl⟩⟩, (fun h => by cases h), fun _ => rfl⟩
  obtain ⟨next, hnext, h⟩ := bind_eq_ok.mp h
  obtain ⟨rest, hrest⟩ := get_zero_eq_ok.mp hnext
  obtain ⟨follows, hfollows, h⟩ := bind_eq_ok.mp h
  split at h
  · obtain ⟨quote, hquote, h⟩ := bind_eq_ok.mp h
    obtain ⟨r', hr', heq⟩ := map_eq_ok.mp h
    cases heq
    have hlen := (List.getElem?_eq_some_iff.mp (get_eq_ok.mp hquote)).1
    exact (taken_tripleQuoted hr').gives hlen
  split at h
  · obtain ⟨r', hr', heq⟩ := map_eq_ok.mp h
    cases heq
    exact gives_of_consumeIdent hr'
  split at h
  · cases h
  split at h
  · rename_i hnl
    obtain ⟨⟨text, htext, hover⟩, hmark⟩ := newline_over (hnl ▸ hrest) h
    have htype := hmark r rfl
    have hnil : l.tokenText r = [] := by rw [tokenText, if_pos (.inl htype)]
    refine ⟨⟨text, htext, by rwa [hnil]⟩, fun h => ?_, fun h => ?_⟩
    · cases htype.symm.trans h
    · rcases h with h | h
      · exact absurd htype h.2.1
      · cases htype.symm.trans h
  split at h
  · obtain ⟨x, -, heq⟩ := bind_eq_ok.mp h
    cases heq
  obtain ⟨r', hr', heq⟩ := map_eq_ok.mp h
  cases heq
  have hlen : 1 ≤ l.rest.length := by simp [hrest]
  by_cases hzero : next = 0
  · rw [symbol, if_pos hzero] at hr'
    cases hr'
    have htext : l.tokenText (⟨.eof, [], l.pos⟩, l.skip 1) = [0] := by
      simp [tokenText, skip, hrest, hzero]
    refine ⟨⟨[], forall_mem_nil _, ?_⟩, fun _ => htext, fun _ => rfl⟩
    rw [htext]
    simpa [hrest, hzero] using over_skip hlen
  · exact (taken_symbol hzero hr').gives hlen

/-! ## Calls of `Next` -/

theorem exists_of_nextToken (h : l.nextToken n = .ok r) :
    ∃ l₁, l.Passes l₁ ∧ l₁.scan = .ok (.token r) := by
  induction n generalizing l with
  | zero => cases h
  | succ n ih =>
    cases hpass : l.pass with
    | error =>
      rw [nextToken, hpass] at h
      cases h
    | ok x =>
      cases x with
      | token =>
        rw [nextToken_of_token hpass] at h
        cases h
        rw [pass_eq] at hpass
        split at hpass
        · cases hpass
        · exact ⟨l.strip, passes_strip, hpass⟩
      | again =>
        rw [nextToken_of_again hpass] at h
        obtain ⟨l₁, hl₁, hscan⟩ := ih h
        exact ⟨l₁, (passes_of_again hpass).trans hl₁, hscan⟩

end Scan

end Please.Asp.Syntax
