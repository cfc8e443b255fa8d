import Please.Asp.ParserTotality
import Please.Asp.TokenText

/-!
# The tokens that the parser consumes

The parser reads its tokens through `Peek`, `Next` and `AssignFollows`. `Recorded` is the lexer with
a record of the tokens that have been taken by `Next`, each with its text; the parser runs on it as
it runs on the lexer alone.

A text may hold NUL bytes, and the lexer takes the first of them outside of strings for its end.
What follows it is not read.
-/

namespace Please.Asp.Syntax

open Please.Lib.Utf8 Please.Lib.Except Unicode Scan Piece
open Please.Fs (Bytes)
open Please.Build (utf8)
open List

/-- The lexer, with the text of the next token and the tokens that have been consumed. -/
structure Recorded extends Lex where
  source : Bytes
  consumed : List (Token × Bytes)

/-- What `Next` makes of a token. -/
def Lex.result (l : Lex) : Token × Scan := (l.peek, l.toScan)

section record

variable [Unicode]

instance : TokenSource Recorded where
  peek r := .ok r.peek
  next r := do
    let l ← r.toScan.next
    return {
      toLex := l
      source := r.toScan.tokenText l.result
      consumed := r.consumed ++ [(r.peek, r.source)] }
  assignFollows r := do
    let (follows, l) ← r.toLex.assignFollows
    return (follows, { r with toLex := l })

/-- The record at the start of a text. -/
def record (b : Bytes) (l : Lex) : Recorded where
  toLex := l
  source := (start (buffer b)).tokenText l.result
  consumed := []

/-- `parseFileInput`, with the tokens that it consumes, and the position of the end of the file. -/
def parseRecorded {P : Type} (mark : ℕ → P) (n : ℕ) (b : Bytes) :
    Except Error (List (Statement P) × List (Token × Bytes) × ℕ) := do
  let l ← newLexer b
  let (stmts, p) ← parseFile mark n { l := record b l, endPos := 0, inFor := false }
  return (stmts, p.l.consumed, p.l.peek.pos)

end record

/-! ## What has been read -/

/-- The text `buf` up to where the lexer is. -/
structure Recorded.Inv (buf : Bytes) (r : Recorded) : Prop where
  read : ∃ ps gap, Layout 0 ps ∧ ps.filterMap read = r.consumed ∧ (∀ b ∈ gap, isBlank b) ∧
    (start buf).Over (textOf ps ++ r.source ++ gap) r.toScan ∧
    (r.peek.type.InLine ∨ r.peek.type = .eof → r.peek.pos = (textOf ps).length)
  eof : r.peek.type = .eof → r.source = [0]

/-- A token is read after the pieces `ps`. -/
theorem Scan.Over.inv {buf : Bytes} {ps : List Piece} {l l₁ : Scan} {l' : Lex}
    (hover : (start buf).Over (textOf ps) l) (hlayout : Layout 0 ps) (hl : l.Passes l₁)
    (hl' : l₁.Gives l'.result) {source : Bytes} (hsource : source = l₁.tokenText l'.result) :
    Recorded.Inv buf ⟨l', source, ps.filterMap read⟩ := by
  obtain ⟨qs, hqs, hover'⟩ := hl
  obtain ⟨gap, hgap, hover''⟩ := hl'.state
  have hall := (hover.trans hover').trans hover''
  rw [← textOf_append] at hall
  refine ⟨⟨ps ++ qs, gap, ?_, ?_, hgap, ?_, fun h => ?_⟩, fun h => ?_⟩
  · exact layout_append.mpr ⟨hlayout, layout_of_isGap hqs _⟩
  · rw [filterMap_append, filterMap_eq_nil_iff.mpr fun p hp => (hqs p hp).read_eq, append_nil]
  · rwa [append_assoc, hsource]
  · have hpos := (hover.trans hover').2
    rw [← textOf_append] at hpos
    exact (hl'.pos h).trans (hpos.trans (Nat.zero_add _))
  · rw [hsource]
    exact hl'.eof h

/-- A file ends at the end of the text. -/
theorem peek_of_parseFile {σ P : Type} [TokenSource σ] {mark : ℕ → P} {n : ℕ} {p q : Parser σ}
    {stmts : List (Statement P)} (h : parseFile mark n p = .ok (stmts, q)) :
    ∃ t, TokenSource.peek q.l = .ok t ∧ t.type = .eof := by
  induction n generalizing p stmts with
  | zero => cases h
  | succ n ih =>
    obtain ⟨more, p₁, hmore, h⟩ := Parse.bind_eq_ok.mp h
    cases more with
    | true =>
      obtain ⟨stmt, p₂, -, h⟩ := Parse.bind_eq_ok.mp h
      obtain ⟨stmts', p₃, hstmts, heq⟩ := Parse.bind_eq_ok.mp h
      cases heq
      exact ih hstmts
    | false =>
      cases h
      obtain ⟨t, p₂, ht, heq⟩ := Parse.bind_eq_ok.mp hmore
      obtain ⟨ht, rfl⟩ := peek_eq_ok.mp ht
      obtain ⟨hne, rfl⟩ := Prod.mk.inj (Except.ok.inj heq)
      exact ⟨t, ht, by simpa using hne⟩

section inv

variable [Unicode] {buf : Bytes} {r : Recorded}

theorem Scan.exists_of_next {l : Scan} {l' : Lex} (h : l.next = .ok l') :
    ∃ l₁, l.Passes l₁ ∧ l₁.Gives l'.result := by
  obtain ⟨r, hr, rfl⟩ := map_eq_ok.mp h
  obtain ⟨l₁, hl₁, hscan⟩ := exists_of_nextToken hr
  have hgives := gives_of_scan hscan
  exact ⟨l₁, hl₁, ⟨hgives.state, hgives.eof, hgives.pos⟩⟩

theorem Recorded.Inv.next {r' : Recorded} (h : r.Inv buf) (hr : TokenSource.next r = .ok r') :
    r'.Inv buf := by
  obtain ⟨l', hl', heq⟩ := bind_eq_ok.mp hr
  cases heq
  obtain ⟨ps, gap, hlayout, hread, hgap, hover, hpos⟩ := h.read
  obtain ⟨l₁, hpasses, hgives⟩ := exists_of_next hl'
  have htext :
      textOf (ps ++ [.token r.peek r.source, .blank gap]) = textOf ps ++ r.source ++ gap := by
    simp [textOf, text]
  rw [← htext] at hover
  have hlayout' : Layout 0 (ps ++ [.token r.peek r.source, .blank gap]) := by
    refine layout_append.mpr ⟨hlayout, fun h => ?_, hgap, trivial⟩
    rw [Nat.zero_add]
    exact hpos (.inl h)
  have hinv := hover.inv hlayout' hpasses hgives (hpasses.tokenText_eq hgives)
  rwa [filterMap_append, hread] at hinv

theorem Recorded.Inv.assignFollows {r' : Recorded} {b : Bool} (h : r.Inv buf)
    (hr : TokenSource.assignFollows r = .ok (b, r')) : r'.Inv buf := by
  obtain ⟨⟨b', l'⟩, hl', heq⟩ := bind_eq_ok.mp hr
  cases heq
  obtain ⟨s, hs, hl'⟩ := bind_eq_ok.mp hl'
  obtain ⟨follows, -, heq⟩ := bind_eq_ok.mp hl'
  cases heq
  rw [stripSpaces_eq] at hs
  split at hs
  · cases hs
  · cases hs
    obtain ⟨ps, gap, hlayout, hread, hgap, hover, hpos⟩ := h.read
    have hspaces : ∀ b ∈ gap ++ r.rest.takeWhile isSpace, isBlank b :=
      forall_mem_append.mpr ⟨hgap, fun _ => isBlank_of_mem_spaces⟩
    refine ⟨⟨ps, _, hlayout, hread, hspaces, ?_, hpos⟩, h.eof⟩
    rw [← append_assoc]
    exact hover.trans (over_takeWhile isSpace)

/-- The line ends that are discarded at the start are blanks. -/
theorem passes_of_discardEOLs {n : ℕ} {l₀ l₁ : Scan} {l l' : Lex} (h : discardEOLs n l = .ok l')
    (hl₁ : l₀.Passes l₁) (hl : l₁.Gives l.result) : ∃ l₂, l₀.Passes l₂ ∧ l₂.Gives l'.result := by
  induction n generalizing l l₁ with
  | zero => cases h
  | succ n ih =>
    rw [discardEOLs] at h
    split at h
    · rename_i heol
      obtain ⟨l₂, hnext, h⟩ := bind_eq_ok.mp h
      obtain ⟨gap, hgap, hover⟩ := hl.state
      have hnil : l₁.tokenText l.result = [] := by rw [tokenText, if_pos (.inl heol)]
      rw [hnil, nil_append] at hover
      obtain ⟨l₃, hl₃, hgives⟩ := exists_of_next hnext
      have hpasses := hl₁.trans (Over.passes (p := .blank gap) hover hgap)
      exact ih h (hpasses.trans hl₃) hgives
    · cases h
      exact ⟨l₁, hl₁, hl⟩

theorem inv_record {b : Bytes} {l : Lex} (h : newLexer b = .ok l) :
    (record b l).Inv (buffer b) := by
  obtain ⟨l₀, hnext, h⟩ := bind_eq_ok.mp h
  obtain ⟨l₁, hl₁, hgives₁⟩ := exists_of_next hnext
  obtain ⟨l₂, hl₂, hgives₂⟩ := passes_of_discardEOLs h hl₁ hgives₁
  have hstart : (start (buffer b)).Over (textOf []) (start (buffer b)) := ⟨rfl, rfl⟩
  exact hstart.inv trivial hl₂ hgives₂ (hl₂.tokenText_eq hgives₂)

/-- The lexer with the record does what the lexer does. -/
def recorder (buf : Bytes) : Mirror Recorded where
  lex := Recorded.toLex
  Good r := r.Inv buf
  short := True
  inFor := false
  peek_eq _ := rfl
  next_eq := by
    intro r hinv _
    cases hl : r.toScan.next with
    | error err =>
      refine .inl ⟨err, ?_, rfl⟩
      show (do let l ← r.toScan.next; return _) = _
      rw [hl]
      rfl
    | ok l =>
      have hnext : TokenSource.next r = .ok _ := bind_eq_ok.mpr ⟨l, hl, rfl⟩
      exact .inr ⟨_, l, hnext, rfl, rfl, fun _ => hinv.next hnext⟩
  assignFollows_eq := by
    intro r hinv _ _
    cases hl : r.toLex.assignFollows with
    | error err =>
      refine .inl ⟨err, ?_, rfl⟩
      show (do let (follows, l) ← r.toLex.assignFollows; return _) = _
      rw [hl]
      rfl
    | ok x =>
      have hfollows : TokenSource.assignFollows r = .ok _ := bind_eq_ok.mpr ⟨x, hl, rfl⟩
      exact .inr ⟨_, x, hfollows, rfl, rfl, rfl, hinv.assignFollows hfollows⟩

/-- What the parser accepts it accepts with the record too. -/
theorem exists_parseRecorded {P : Type} {mark : ℕ → P} {n : ℕ} {b : Bytes}
    {stmts : List (Statement P)} (h : parseFileInput mark n b = .ok stmts) :
    ∃ r : Recorded, parseRecorded mark n b = .ok (stmts, r.consumed, r.peek.pos) ∧
      r.Inv (buffer b) ∧ r.peek.type = .eof := by
  obtain ⟨l, hl, h⟩ := bind_eq_ok.mp h
  obtain ⟨⟨stmts', q⟩, hfile, heq⟩ := bind_eq_ok.mp h
  cases heq
  have hnew := newLexer_ends b
  rw [hl] at hnew
  have hready : (recorder (buffer b)).Ready anyToken (tokenBound b) ⟨record b l, 0, false⟩ :=
    ⟨hnew.1, inv_record hl, rfl, hnew.2, trivial⟩
  -- both runs have the bound `n`, which need not be enough for every text
  obtain ⟨err, -, -, herr⟩ | ⟨_, q', hfile', hplain, hgo, -⟩ :=
    Mirror.tracks_parseFile (A := fun _ => True) (fun _ => trivial) (.inr ⟨trivial, rfl⟩) _ hready
  · cases hfile.symm.trans herr
  · cases hfile.symm.trans hplain
    obtain ⟨t, ht, heof⟩ := peek_of_parseFile hfile'
    cases ht
    exact ⟨q'.l, bind_eq_ok.mpr ⟨l, hl, bind_eq_ok.mpr ⟨_, hfile', rfl⟩⟩, hgo.good, heof⟩

end inv

/-! ## Nothing is ignored -/

/-- Every byte of the text `b` is in a token that was consumed, in a comment, or blank: it consists
of such pieces, one after the other. (There may be more of the buffer than the text.) -/
def Accounted (b : Bytes) (consumed : List (Token × Bytes)) : Prop :=
  ∃ ps, Layout 0 ps ∧ b <+: textOf ps ∧ textOf ps <+: buffer b ∧ ps.filterMap read = consumed

theorem Piece.IsGap.zero_not_mem {p : Piece} (h : p.IsGap) : 0 ∉ p.text := by
  intro hmem
  cases p with
  | token => exact h
  | blank => exact absurd (h 0 hmem) (by decide)
  | comment =>
    obtain ⟨body, rfl, hbody⟩ := h
    rcases mem_cons.mp hmem with h | h
    · exact absurd h (by decide)
    · exact absurd (hbody 0 h) (by decide)

/-- The NUL bytes of pieces are in the tokens. -/
theorem Layout.count_zero {i : ℕ} {ps : List Piece} (h : Layout i ps) :
    (textOf ps).count 0 = ((ps.filterMap read).flatMap Prod.snd).count 0 := by
  induction ps generalizing i with
  | nil => rfl
  | cons p ps ih =>
    obtain ⟨hp, hps⟩ := h
    rw [textOf, flatMap_cons, count_append, ← textOf, ih hps, filterMap_cons]
    cases p with
    | token tok text => exact count_append.symm
    | blank text =>
      rw [count_eq_zero.mpr (IsGap.zero_not_mem (p := .blank text) hp), Nat.zero_add]
      rfl
    | comment text =>
      rw [count_eq_zero.mpr (IsGap.zero_not_mem (p := .comment text) hp), Nat.zero_add]
      rfl

theorem prefix_buffer (b : Bytes) : b <+: buffer b := by
  unfold buffer
  split
  · rw [append_assoc]
    exact prefix_append _ _
  · exact prefix_append _ _

/-- A statement, and a comment. -/
def commentText : Bytes := utf8 "x = 1  # one\n"

/-- A text with a NUL byte, and what follows it. -/
def nulText : Bytes := utf8 "x = 1\n" ++ 0 :: utf8 "junk"

end Please.Asp.Syntax
