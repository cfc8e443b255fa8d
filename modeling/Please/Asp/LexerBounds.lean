import Please.Asp.LexerRuns
import Mathlib.Data.List.TakeWhile

/-!
# The lexer stays in its buffer

The lexer looks ahead without a check of bounds. It relies on the two NUL bytes at the end of its
buffer, and on the line end before them, which keeps an escape in a string from swallowing the
first NUL.

Each call of `Next` makes `size` smaller, which bounds the number of tokens.
-/

namespace Please.Asp.Syntax

open Please.Lib.Utf8 Please.Lib.Except Error Scan TokenType
open Please.Fs (Bytes)
open Please.Build (utf8)
open List

/-- The error is a call of `fail`. -/
def Error.IsFail : Error → Prop
  | .fail _ _ => True
  | _ => False

/-! ## The end of the buffer -/

/-- The bytes are what is left of a buffer before the two NUL bytes at its end. -/
def Terminated (s : Bytes) : Prop := s = [0, 0] ∨ [byte '\n', 0, 0] <:+ s

namespace Terminated

variable {s : Bytes} {b : UInt8} {n : ℕ}

theorem suffix (h : Terminated s) : [0, 0] <:+ s := by
  obtain rfl | h := h
  · exact suffix_refl _
  · exact (suffix_cons _ _).trans h

theorem length (h : Terminated s) : 2 ≤ s.length := h.suffix.length_le

theorem drop (h : Terminated s) (hn : n + 2 ≤ s.length) : Terminated (s.drop n) := by
  obtain rfl | ⟨v, rfl⟩ := h
  · obtain rfl : n = 0 := by simpa using hn
    exact .inl rfl
  · rw [drop_append]
    simp only [length_append, length_cons, length_nil] at hn
    by_cases hv : n ≤ v.length
    · rw [Nat.sub_eq_zero_of_le hv]
      exact .inr (suffix_append _ _)
    · have hd : n - v.length = 1 := by omega
      rw [hd, drop_eq_nil_of_le (by omega)]
      exact .inl rfl

/-- A byte that is not NUL stands before the NUL bytes. -/
theorem length_of_getElem? (h : Terminated s) (hn : s[n]? = some b) (hb : b ≠ 0) :
    n + 1 + 2 ≤ s.length := by
  obtain ⟨v, rfl⟩ := h.suffix
  have hlt : n < v.length := by
    by_contra hge
    rw [getElem?_append_right (by omega)] at hn
    have hmem := mem_of_getElem? hn
    exact hb (by simpa using hmem)
  rw [length_append]
  exact Nat.add_le_add_right hlt 2

theorem length_of_ne_zero (h : Terminated (b :: s)) (hb : b ≠ 0) : 2 ≤ s.length := by
  simpa [Nat.add_comm] using h.length_of_getElem? (n := 0) rfl hb

theorem tail (h : Terminated (b :: s)) (hb : b ≠ 0) : Terminated s :=
  h.drop (n := 1) (by simpa using h.length_of_ne_zero hb)

/-- A byte before a NUL that ends the buffer is a line end. -/
theorem length_of_ne_newline (h : Terminated (b :: s)) (hb : b ≠ 0) (hnl : b ≠ byte '\n') :
    3 ≤ s.length := by
  obtain h | h := h
  · exact absurd (cons.inj h).1 hb
  · obtain h | h := suffix_cons_iff.mp h
    · exact absurd (cons.inj h).1.symm hnl
    · simpa using h.length_le

/-- After a NUL byte, another is left. -/
theorem of_zero (h : Terminated (0 :: s)) : s = [0] ∨ Terminated s := by
  obtain h | h := h
  · exact .inl (cons.inj h).2
  · obtain h | h := suffix_cons_iff.mp h
    · exact absurd (cons.inj h).1 (by decide)
    · exact .inr (.inr h)

theorem length_takeWhile (h : Terminated s) {p : UInt8 → Bool} (hp : p 0 = false) :
    (s.takeWhile p).length + 2 ≤ s.length := by
  obtain ⟨v, rfl⟩ := h.suffix
  have hle : ((v ++ [0, 0]).takeWhile p).length ≤ v.length := by
    rw [takeWhile_append]
    split
    · simp [hp]
    · exact (List.takeWhile_prefix p).length_le
  simpa using hle

end Terminated

theorem terminated_buffer (b : Bytes) : Terminated (buffer b) := by
  unfold buffer
  split
  · exact .inr ⟨b, by simp⟩
  · rename_i h
    by_cases hb : b = []
    · subst hb
      exact .inl rfl
    · have hlast : b.getLast? = some (byte '\n') := by
        by_contra hne
        exact h ⟨hb, hne⟩
      obtain ⟨v, rfl⟩ := getLast?_eq_some_iff.mp hlast
      exact .inr ⟨v, by simp⟩

theorem length_buffer (b : Bytes) : (buffer b).length ≤ b.length + 3 := by
  unfold buffer
  split <;> simp

/-! ## Strings and identifiers -/

section tokens

variable {s : Bytes} {quote : UInt8} {n k pos : ℕ} {multiline raw : Bool}

theorem closesTriple_ends (hs : Terminated s) (hquote : quote ≠ 0) :
    Ends IsFail (fun closes : Bool => closes → 4 ≤ s.length) (closesTriple quote s) := by
  match s, hs with
  | [], hs | [a], hs => exact absurd hs.length (by simp)
  | a :: b :: s, hs =>
    rw [closesTriple]
    split
    · rename_i ha
      intro hb
      rw [decide_eq_true_eq] at hb
      have hlen := (hs.tail (ha ▸ hquote)).length_of_ne_zero (hb ▸ hquote)
      simpa using hlen
    · intro h
      cases h

/-- The closing quote is found before the NUL bytes. An escaped byte is not one of them either. -/
theorem stringBytes_ends (hs : Terminated s) (hquote : quote ≠ 0) (escape : Bool)
    (hescape : escape → 3 ≤ s.length) :
    Ends IsFail (fun r => r.2 + 2 ≤ s.length ∧ 0 < r.2)
      (stringBytes quote multiline raw pos escape s) := by
  induction s generalizing escape with
  | nil => exact absurd hs.length (by simp)
  | cons next rest ih =>
    -- the rest of the loop, after a byte that is not the last before the NUL bytes
    have hloop (escape' : Bool) (f : Bytes → Bytes) (h2 : 2 ≤ rest.length)
        (h3 : escape' → 3 ≤ rest.length) :
        Ends IsFail (fun r => r.2 + 2 ≤ (next :: rest).length ∧ 0 < r.2) (do
          let r ← stringBytes quote multiline raw pos escape' rest
          return (f r.1, r.2 + 1)) := by
      refine (ih (hs.drop (n := 1) (by simpa using h2)) escape' h3).bind fun r hr => ?_
      change r.2 + 1 + 2 ≤ rest.length + 1 ∧ 0 < r.2 + 1
      omega
    cases escape with
    | true =>
      have h3 := hescape rfl
      simp only [length_cons] at h3
      exact hloop false (unescape multiline next ++ ·) (by omega) (by simp)
    | false =>
      rw [stringBytes]
      split
      · rename_i hnext
        have hne : next ≠ 0 := hnext ▸ hquote
        have h2 := hs.length_of_ne_zero hne
        cases multiline with
        | false =>
          change 1 + 2 ≤ rest.length + 1 ∧ 0 < 1
          omega
        | true =>
          refine (closesTriple_ends (hs.tail hne) hquote).bind fun closes hcloses => ?_
          cases closes with
          | true =>
            have h4 := hcloses rfl
            change 3 + 2 ≤ rest.length + 1 ∧ 0 < 3
            omega
          | false => exact hloop false (next :: ·) h2 (by simp)
      split
      · rename_i hnl
        exact hloop false (next :: ·) (hs.length_of_ne_zero (by rw [hnl.1]; decide)) (by simp)
      split
      · trivial
      rename_i hstop
      push Not at hstop
      have h3 := hs.length_of_ne_newline hstop.2 hstop.1
      split
      · exact hloop true id (by omega) (fun _ => h3)
      · exact hloop false (next :: ·) (by omega) (by simp)

variable [Unicode]

/-- An identifier ends before the NUL bytes, with the encodings of its characters. -/
theorem identBytes_ends (hs : Terminated s) (hk : k + 2 ≤ s.length) :
    Ends IsFail (fun r => r.length + 2 ≤ s.length) (identBytes pos k s) := by
  induction s generalizing k with
  | nil => exact absurd hs.length (by simp)
  | cons b rest ih =>
    have hloop (k' : ℕ) (hk' : k' + 2 ≤ rest.length) :
        Ends IsFail (fun r => r.length + 2 ≤ (b :: rest).length) (do
          let s ← identBytes pos k' rest
          return b :: s) := by
      refine (ih (hs.drop (n := 1) (by simp; omega)) hk').bind fun r hr => ?_
      change r.length + 1 + 2 ≤ rest.length + 1
      omega
    cases k with
    | succ k =>
      simp only [length_cons] at hk
      exact hloop k (by omega)
    | zero =>
      rw [identBytes]
      split
      · rename_i hb
        have hne : b ≠ 0 := by
          rintro rfl
          exact absurd hb (by decide)
        -- the bytes of the character are all before the NUL bytes
        obtain ⟨v, hv⟩ := hs.suffix
        have hrune : (decodeRune (b :: rest)).2 + 2 ≤ (b :: rest).length := by
          have hvne : v ≠ [] := by
            rintro rfl
            exact hne (cons.inj hv).1.symm
          have hle := decodeRune_le_length v
          have happend : decodeRune (v ++ 0 :: [0]) = decodeRune v :=
            decodeRune_append hvne (by decide)
          rw [← happend] at hle
          rw [← hv]
          simpa using hle
        have h2 := hs.length_of_ne_zero hne
        simp only [length_cons] at hrune
        dsimp only
        split
        · trivial
        · exact hloop _ (by omega)
      split
      · rename_i hb
        have hne : b ≠ 0 := by
          rintro rfl
          exact absurd hb (by decide)
        exact hloop 0 (by simpa using hs.length_of_ne_zero hne)
      · change 0 + 2 ≤ rest.length + 1
        simpa using hk

/-- A byte that starts an identifier is part of it. -/
theorem identBytes_ne_nil {b : UInt8} {rest r : Bytes} (hb : isIdentStart b)
    (h : identBytes pos 0 (b :: rest) = .ok r) : r ≠ [] := by
  rw [identBytes] at h
  split at h
  · dsimp only at h
    split at h
    · cases h
    · obtain ⟨s, -, h⟩ := bind_eq_ok.mp h
      cases h
      exact cons_ne_nil _ _
  split at h
  · obtain ⟨s, -, h⟩ := bind_eq_ok.mp h
    cases h
    exact cons_ne_nil _ _
  · rename_i hascii hident
    simp only [isIdentStart, isIdentByte] at hb hident
    grind

end tokens

/-! ## States -/

namespace Scan

variable {l l' : Scan} {b : UInt8} {i n pos : ℕ} {p : UInt8 → Bool}

/-- Both NUL bytes are still to be read, and the indentation 0 is on the stack. -/
structure Sound (l : Scan) : Prop where
  rest : Terminated l.rest
  indents : 0 ∈ l.indents

/-- A bound on the number of tokens that are still to come. A line end may push an indentation,
and each indentation that is popped is a token later on. -/
def size (l : Scan) : ℕ := 3 * l.rest.length + 2 * l.indents.length + l.unindents

theorem Sound.skip (hl : l.Sound) (hn : n + 2 ≤ l.rest.length) : (l.skip n).Sound :=
  ⟨hl.rest.drop hn, hl.indents⟩

theorem size_skip (hn : n ≤ l.rest.length) : (l.skip n).size + 3 * n = l.size := by
  simp only [size, length_drop, skip]
  omega

theorem get_ends (hi : i < l.rest.length) :
    Ends IsFail (fun b => l.rest[i]? = some b) (l.get i) := by
  rw [get, getElem?_eq_getElem hi]
  exact rfl

theorem takeWhile_ends (hl : l.Sound) (hp : p 0 = false) :
    Ends IsFail
      (fun r => ∃ n, r.2 = l.skip n ∧ n + 2 ≤ l.rest.length) (l.takeWhile p) := by
  have hlen := hl.rest.length_takeWhile hp
  rw [takeWhile_eq_ok.mpr ⟨rfl, by omega, rfl⟩]
  exact ⟨_, rfl, hlen⟩

end Scan

/-! ## Tokens -/

/-- A token of this type does not end a line, a block or the file. -/
def TokenType.InLine (type : TokenType) : Prop := type ≠ .eof ∧ type ≠ .eol ∧ type ≠ .unindent

instance : DecidablePred InLine := fun type =>
  inferInstanceAs (Decidable (type ≠ .eof ∧ type ≠ .eol ∧ type ≠ .unindent))

theorem TokenType.inLine_char (c : Char) : (char c).InLine := by
  simp [InLine]

/-- What is left after a token: a sound state, or one NUL byte if the token is the end of the
file. A token that ends a line, a block or the file has no text. -/
structure Delivered (tok : Token) (l : Scan) : Prop where
  value : ¬ tok.type.InLine → tok.value = []
  state : l.Sound ∨ tok.type = .eof ∧ l.rest = [0] ∧ l.unindents = 0

namespace Scan

variable {l l' : Scan} {b : UInt8} {n pos : ℕ} {p : UInt8 → Bool}

/-- What is read of a token from `l`. -/
structure Reads (l : Scan) (r : Token × Scan) : Prop where
  delivered : Delivered r.1 r.2
  size : r.2.size ≤ l.size
  length : r.2.rest.length ≤ l.rest.length
  eol : r.1.type ≠ .eol

theorem Sound.reads_skip {type : TokenType} {value : Bytes} (hl : l.Sound)
    (hn : n + 2 ≤ l.rest.length) (htype : type.InLine) :
    l.Reads (⟨type, value, pos⟩, l.skip n) where
  delivered := ⟨fun h => absurd htype h, .inl (hl.skip hn)⟩
  size := by
    have hsize := size_skip (l := l) (n := n) (by omega)
    change (l.skip n).size ≤ l.size
    omega
  length := by
    simp
  eol := htype.2.1

theorem Reads.of_skip {r : Token × Scan} (h : (l.skip n).Reads r) : l.Reads r where
  delivered := h.delivered
  size := by
    have hle : (l.skip n).size ≤ l.size := by
      simp only [Scan.size, length_drop, skip]
      omega
    exact h.size.trans hle
  length := h.length.trans (by simp)
  eol := h.eol

theorem consumeInteger_ends (hl : l.Sound) (initial : UInt8) :
    Ends IsFail l.Reads (l.consumeInteger initial pos) := by
  refine (takeWhile_ends hl (by decide)).bind fun r hr => ?_
  obtain ⟨digits, l'⟩ := r
  obtain ⟨n, rfl, hlen⟩ := hr
  exact hl.reads_skip hlen (by decide)

theorem consumeString_ends (hl : l.Sound) {quote : UInt8} (hquote : quote ≠ 0)
    (multiline raw fString : Bool) :
    Ends IsFail l.Reads (l.consumeString quote pos multiline raw fString) := by
  refine (stringBytes_ends hl.rest hquote false (by simp)).bind fun r hr => ?_
  exact hl.reads_skip hr.1 (by decide)

theorem consumePossiblyTripleQuotedString_ends (hl : l.Sound) {quote : UInt8} (hquote : quote ≠ 0)
    (raw fString : Bool) :
    Ends IsFail l.Reads
      (l.consumePossiblyTripleQuotedString quote pos raw fString) := by
  refine (closesTriple_ends hl.rest hquote).bind fun closes hcloses => ?_
  cases closes with
  | true =>
    exact (consumeString_ends (hl.skip (hcloses rfl)) hquote _ _ _).mono fun r hr => hr.of_skip
  | false => exact consumeString_ends hl hquote _ _ _

theorem consumeIdent_ends [Unicode] (hl : l.Sound) {rest : Bytes} (hrest : l.rest = b :: rest)
    (hb : isIdentStart b) :
    Ends IsFail (fun r => l.Reads r ∧ r.2.size < l.size) (l.consumeIdent pos) := by
  have hident : Ends IsFail (fun r => r.length + 2 ≤ l.rest.length)
      (identBytes pos 0 l.rest) :=
    identBytes_ends hl.rest (by simpa using hl.rest.length)
  unfold consumeIdent
  cases hs : identBytes pos 0 l.rest with
  | error =>
    rw [hs] at hident
    exact hident
  | ok s =>
    rw [hs] at hident
    have hne : 0 < s.length := by
      rw [hrest] at hs
      exact length_pos_iff.mpr (identBytes_ne_nil hb hs)
    have hlen : s.length + 2 ≤ l.rest.length := hident
    have hsize (m : ℕ) (hm : 0 < m) (hm' : m + 2 ≤ l.rest.length) :
        l.Reads (⟨.ident, s, pos⟩, l.skip m) ∧ (l.skip m).size < l.size := by
      have := size_skip (l := l) (n := m) (by omega)
      exact ⟨hl.reads_skip hm' (by decide), by omega⟩
    refine (get_ends (by simp; omega)).bind fun c hc => ?_
    split
    · -- the space is not one of the NUL bytes
      rename_i hspace
      have hc0 : c ≠ 0 := by
        rintro rfl
        exact absurd hspace (by decide)
      have h3 := hl.rest.length_of_getElem? (by simpa using hc) hc0
      rw [skip_skip]
      exact hsize _ (by omega) h3
    · exact hsize _ hne hlen

/-- A token that is the next byte alone. -/
theorem charToken_reads (hl : l.Sound) : l.Reads (charToken b pos, l) :=
  hl.reads_skip (n := 0) (by simpa using hl.rest.length) (inLine_char _)

theorem symbol_ends (hl : b ≠ 0 → l.Sound) (hend : b = 0 → Delivered ⟨.eof, [], pos⟩ l) :
    Ends IsFail l.Reads (l.symbol b pos) := by
  unfold symbol
  split
  · rename_i hb
    exact ⟨hend hb, le_rfl, le_rfl, fun h => by cases h⟩
  rename_i hb
  replace hl := hl hb
  have h2 := hl.rest.length
  have hget : Ends IsFail (fun c => l.rest[0]? = some c) (l.get 0) := get_ends (by omega)
  split
  · refine hget.bind fun c hc => ?_
    split
    · rename_i ho
      have h3 := hl.rest.length_of_getElem? hc (by rw [ho]; decide)
      exact (consumeInteger_ends (hl.skip h3) b).mono fun r hr => hr.of_skip
    · exact consumeInteger_ends hl b
  split
  · exact consumeInteger_ends hl b
  split
  · exact consumePossiblyTripleQuotedString_ends hl hb _ _
  split
  · have h : l.Reads (charToken b pos, l) := charToken_reads hl
    exact ⟨⟨h.delivered.value, .inl ⟨hl.rest, hl.indents⟩⟩, h.size, h.length, h.eol⟩
  split
  · have h : l.Reads (charToken b pos, l) := charToken_reads hl
    exact ⟨⟨h.delivered.value, .inl ⟨hl.rest, hl.indents⟩⟩, h.size, h.length, h.eol⟩
  split
  · exact charToken_reads hl
  split
  · refine hget.bind fun c hc => ?_
    split
    · exact consumeInteger_ends hl b
    · exact charToken_reads hl
  split
  · rename_i second hsecond
    refine hget.bind fun c hc => ?_
    split
    · rename_i heq
      have hne : second ≠ 0 := by
        unfold operatorSecond at hsecond
        split at hsecond
        · cases hsecond
          decide
        · split at hsecond
          · cases hsecond
            decide
          · cases hsecond
      exact hl.reads_skip (hl.rest.length_of_getElem? hc (heq ▸ hne)) (by decide)
    · exact charToken_reads hl
  · split <;> trivial

/-! ## Rounds -/

theorem indentTo_ends {indent : ℕ} (hl : l.Sound) :
    Ends IsFail (fun r => r.1.Sound ∧ r.1.size ≤ l.size + 2 ∧ r.1.rest = l.rest)
      (l.indentTo indent pos) := by
  unfold indentTo
  split
  · -- 0 is on the stack, and no indentation is below it
    have hmem : 0 ∈ l.indents.dropWhile (indent < ·) := by
      have h := hl.indents
      rw [← takeWhile_append_dropWhile (p := (indent < ·)) (l := l.indents)] at h
      obtain h | h := mem_append.mp h
      · exact absurd (mem_takeWhile_imp h) (by simp)
      · exact h
    have hlen := congrArg length
      (takeWhile_append_dropWhile (p := (indent < ·)) (l := l.indents))
    rw [length_append] at hlen
    split
    · rename_i hnil
      rw [hnil] at hmem
      cases hmem
    · rename_i top indents htop
      rw [htop] at hmem hlen
      split
      · refine ⟨⟨hl.rest, hmem⟩, ?_, rfl⟩
        change 3 * l.rest.length + 2 * (top :: indents).length + (l.unindents + _) ≤
          3 * l.rest.length + 2 * l.indents.length + l.unindents + 2
        omega
      · trivial
  split
  · refine ⟨⟨hl.rest, mem_cons_of_mem _ hl.indents⟩, ?_, rfl⟩
    change 3 * l.rest.length + 2 * (indent :: l.indents).length + l.unindents ≤
      3 * l.rest.length + 2 * l.indents.length + l.unindents + 2
    rw [length_cons]
    omega
  · exact ⟨hl, Nat.le_add_right _ _, rfl⟩

/-- What a round does, from the state `l`. -/
def Turns (l : Scan) : Pass → Prop
  | .token (tok, l') => Delivered tok l' ∧ l'.size < l.size ∧ l'.rest.length ≤ l.rest.length ∧
      (tok.type = .eol → l'.rest.length < l.rest.length)
  | .again l' => l'.Sound ∧ l'.size < l.size ∧ l'.rest.length ≤ l.rest.length

theorem Reads.turns {r : Token × Scan} (h : (l.skip (n + 1)).Reads r) (hn : n + 1 ≤ l.rest.length) :
    l.Turns (.token r) := by
  have hsize := size_skip hn
  have hle := h.size
  refine ⟨h.delivered, by omega, h.of_skip.length, fun heol => absurd heol h.eol⟩

theorem newline_ends (hl : (l.skip 1).Sound) :
    Ends IsFail l.Turns ((l.skip 1).newline pos) := by
  have hlen := hl.rest.length
  refine (takeWhile_ends hl (by decide)).bind fun r hr => ?_
  obtain ⟨spaces, l₁⟩ := r
  obtain ⟨n, rfl, hn⟩ := hr
  have hl₁ := hl.skip hn
  rw [skip_skip] at hl₁
  simp only [skip_rest, length_drop] at hn
  have hsize := size_skip (l := l) (n := 1 + n) (by omega)
  have hrest : (l.skip (1 + n)).rest.length < l.rest.length := by
    simp
    omega
  rw [skip_skip]
  refine (get_ends (by have := hl₁.rest.length; omega)).bind fun c hc => ?_
  split
  · exact ⟨hl₁, by omega, hrest.le⟩
  split
  · refine (indentTo_ends hl₁).bind fun r hr => ?_
    obtain ⟨l₂, pos'⟩ := r
    obtain ⟨hl₂, hsize₂, hrest₂⟩ := hr
    dsimp only at hl₂ hsize₂ hrest₂ ⊢
    rw [← hrest₂] at hrest
    split
    · exact ⟨hl₂, by omega, hrest.le⟩
    · exact ⟨⟨fun _ => rfl, .inl hl₂⟩, by omega, hrest.le, fun _ => hrest⟩
  · exact ⟨hl₁, by omega, hrest.le⟩

theorem comment_ends (hl : (l.skip 1).Sound) : Ends IsFail l.Turns (l.skip 1).comment := by
  have hlen := hl.rest.length
  refine (takeWhile_ends hl (by decide)).bind fun r hr => ?_
  obtain ⟨text, l₁⟩ := r
  obtain ⟨n, rfl, hn⟩ := hr
  have hl₁ := hl.skip hn
  simp only [skip_rest, length_drop] at hn
  rw [skip_skip] at hl₁ ⊢
  have hsize := size_skip (l := l) (n := 1 + n) (by omega)
  exact ⟨hl₁, by omega, by simp⟩

theorem quoteFollows_ends (hl : l.Sound) :
    Ends IsFail (fun follows : Bool => follows → ∃ quote, l.rest[1]? = some quote ∧ quote ≠ 0)
      (l.quoteFollows b) := by
  have h2 := hl.rest.length
  unfold quoteFollows
  split
  · refine (get_ends (by omega)).map fun quote hquote hq => ⟨quote, hquote, ?_⟩
    rintro rfl
    exact absurd hq (by decide)
  · exact fun h => by cases h

theorem scan_ends [Unicode] (hl : l.Sound) : Ends IsFail l.Turns l.scan := by
  unfold scan
  split
  · -- an indentation that was popped is a token
    rename_i hun
    have hlt : ({ l with unindents := l.unindents - 1 } : Scan).size < l.size := by
      simp only [size]
      omega
    exact ⟨⟨fun _ => rfl, .inl ⟨hl.rest, hl.indents⟩⟩, hlt, le_rfl, fun h => by cases h⟩
  rename_i hun
  have h2 := hl.rest.length
  refine (get_ends (by omega)).bind fun next hnext => ?_
  obtain ⟨rest, hrest⟩ := get_zero_eq_ok.mp (get_eq_ok.mpr hnext)
  have hskip (hne : next ≠ 0) : (l.skip 1).Sound := hl.skip (hl.rest.length_of_getElem? hnext hne)
  refine (quoteFollows_ends hl).bind fun follows hfollows => ?_
  split
  · rename_i hq
    obtain ⟨quote, hquote, hne⟩ := hfollows hq
    refine (get_ends (by omega)).bind fun quote' hquote' => ?_
    obtain rfl : quote = quote' := by simpa [hquote] using hquote'
    have h4 := hl.rest.length_of_getElem? hquote hne
    exact (consumePossiblyTripleQuotedString_ends (hl.skip h4) hne _ _).map fun r hr =>
      hr.turns (by omega)
  split
  · rename_i hident
    exact (consumeIdent_ends hl hrest hident).map fun r hr =>
      ⟨hr.1.delivered, hr.2, hr.1.length, fun heol => absurd heol hr.1.eol⟩
  split
  · rename_i hcr
    have hs := hskip (by rw [hcr]; decide)
    have hsize := size_skip (l := l) (n := 1) (by omega)
    exact ⟨hs, by omega, by simp⟩
  split
  · rename_i hnl
    exact newline_ends (hskip (by rw [hnl]; decide))
  split
  · rename_i hc
    exact comment_ends (hskip (by rw [hc]; decide))
  · refine (symbol_ends hskip fun hzero => ?_).map fun r hr => hr.turns (by omega)
    subst hzero
    refine ⟨fun _ => rfl, ?_⟩
    obtain h | h := (hrest ▸ hl.rest).of_zero
    · refine .inr ⟨rfl, ?_, Nat.eq_zero_of_not_pos hun⟩
      rw [skip_rest, hrest]
      exact h
    · refine .inl ⟨?_, hl.indents⟩
      rw [skip_rest, hrest]
      exact h

theorem strip_sound (hl : l.Sound) : l.strip.Sound := hl.skip (hl.rest.length_takeWhile (by decide))

theorem size_strip : l.strip.size ≤ l.size := by
  have := length_strip (l := l)
  change 3 * l.strip.rest.length + 2 * l.indents.length + l.unindents ≤ _
  rw [size]
  omega

variable [Unicode]

theorem pass_ends (hl : l.Sound) : Ends IsFail l.Turns l.pass := by
  have hstrip := strip_sound hl
  have hsize := size_strip (l := l)
  have hlen := length_strip (l := l)
  rw [pass_eq, if_neg (length_pos_iff.mp (by have := hstrip.rest.length; omega))]
  refine (scan_ends hstrip).mono fun r hr => ?_
  match r, hr with
  | .token (tok, l'), ⟨hdel, hlt, hle, heol⟩ =>
    exact ⟨hdel, by omega, by omega, fun h => (heol h).trans_le hlen⟩
  | .again l', ⟨hl', hlt, hle⟩ => exact ⟨hl', by omega, by omega⟩

theorem nextToken_ends (hl : l.Sound) (hn : l.rest.length < n) :
    Ends IsFail (fun r => l.Turns (.token r)) (l.nextToken n) := by
  induction n generalizing l with
  | zero => omega
  | succ n ih =>
    have hpass := pass_ends hl
    cases hp : l.pass with
    | error =>
      rw [hp] at hpass
      rw [nextToken, hp]
      exact hpass
    | ok r =>
      rw [hp] at hpass
      cases r with
      | token =>
        rw [nextToken_of_token hp]
        exact hpass
      | again =>
        obtain ⟨hl', hlt, hle⟩ := hpass
        rw [nextToken_of_again hp]
        refine (ih hl' (by have := length_pass hp; omega)).mono fun r hr => ?_
        obtain ⟨hdel, hlt', hle', heol⟩ := hr
        exact ⟨hdel, by omega, by omega, fun h => (heol h).trans_le hle⟩

end Scan

/-! ## `Next` and `AssignFollows` -/

/-- The token that `Peek` returns may be taken. -/
def Lex.Live (l : Lex) : Prop := Delivered l.peek l.toScan

variable {l : Lex}

theorem Lex.Live.sound (hl : l.Live) (htok : l.peek.type ≠ .eof) : l.Sound := by
  obtain h | h := hl.state
  · exact h
  · exact absurd h.1 htok

/-- `AssignFollows`, at an identifier. -/
theorem Lex.Live.assignFollows_ends (hl : l.Live) (htok : l.peek.type = .ident) :
    Ends IsFail (fun r => r.2.Live ∧ r.2.size ≤ l.size ∧ r.2.peek = l.peek)
      l.assignFollows := by
  have hsound := hl.sound (by rw [htok]; decide)
  have hstrip := strip_sound hsound
  have h2 := hstrip.rest.length
  unfold Lex.assignFollows
  rw [stripSpaces_eq, if_neg (length_pos_iff.mp (by omega))]
  have hassign : Ends IsFail (fun _ => True) l.toScan.strip.atAssign := by
    refine (get_ends (by omega)).bind fun c hc => ?_
    split
    · exact (get_ends (by omega)).bind fun c hc => trivial
    · trivial
  refine hassign.bind fun follows _ => ?_
  exact ⟨⟨hl.value, .inl ⟨hstrip.rest, hstrip.indents⟩⟩, size_strip, rfl⟩

variable [Unicode]

theorem next_ends {l : Scan} (hl : l.Sound) :
    Ends IsFail (fun l' => l'.Live ∧ l'.size < l.size ∧ l'.rest.length ≤ l.rest.length ∧
      (l'.peek.type = .eol → l'.rest.length < l.rest.length)) l.next := by
  refine (nextToken_ends hl (Nat.lt_succ_self _)).bind fun r hr => ?_
  obtain ⟨hdel, hrest⟩ := hr
  refine ⟨⟨hdel.value, ?_⟩, hrest⟩
  obtain h | h := hdel.state
  · exact .inl ⟨h.rest, h.indents⟩
  · exact .inr h

/-- The end of the file can be taken once. -/
theorem Lex.Live.next_ends (hl : l.Live) :
    Ends IsFail (fun l' => l'.size < l.size ∧ (l.peek.type ≠ .eof → l'.Live))
      l.toScan.next := by
  obtain h | ⟨htype, hrest, hun⟩ := hl.state
  · exact (Syntax.next_ends h).mono fun l' hl' => ⟨hl'.2.1, fun _ => hl'.1⟩
  · -- one NUL byte is left, and it is the end of the file again
    have hstrip : l.toScan.strip = l.toScan := strip_eq_self (by rw [hrest]; rfl)
    have hpass : l.toScan.pass = .ok (.token (⟨.eof, [], l.pos⟩, l.toScan.skip 1)) := by
      rw [pass_eq, hstrip, if_neg (by rw [hrest]; exact cons_ne_nil _ _), scan,
        if_neg (by omega), Scan.get, hrest]
      rfl
    rw [next_of_token hpass]
    refine ⟨?_, fun h => absurd htype h⟩
    have hsize := size_skip (l := l.toScan) (n := 1) (by rw [hrest]; rfl)
    change (l.toScan.skip 1).size < l.size
    omega

theorem discardEOLs_ends {n : ℕ} (hl : l.Live) (hn : 0 < n)
    (heol : l.peek.type = .eol → l.rest.length ≤ n) :
    Ends IsFail (fun l' => l'.Live ∧ l'.size ≤ l.size) (discardEOLs n l) := by
  induction n generalizing l with
  | zero => omega
  | succ n ih =>
    rw [discardEOLs]
    split
    · rename_i htype
      have hsound := hl.sound (by rw [htype]; decide)
      have h2 := hsound.rest.length
      have hle := heol htype
      refine (Syntax.next_ends hsound).bind fun l' hl' => ?_
      obtain ⟨hlive, hsize, -, hlt⟩ := hl'
      refine (ih hlive (by omega) fun h => ?_).mono fun l'' hl'' => ⟨hl''.1, by omega⟩
      have := hlt h
      omega
    · exact ⟨hl, le_rfl⟩

/-- A bound on the number of tokens in a file. -/
def tokenBound (b : Bytes) : ℕ := 3 * b.length + 11

theorem newLexer_ends (b : Bytes) :
    Ends IsFail (fun l => l.Live ∧ l.size < tokenBound b) (newLexer b) := by
  have hsound : (start (buffer b)).Sound := ⟨terminated_buffer b, mem_singleton_self 0⟩
  have hlen := length_buffer b
  have hsize : (start (buffer b)).size ≤ tokenBound b := by
    simp only [size, start, tokenBound, length_singleton]
    omega
  refine (next_ends hsound).bind fun l hl => ?_
  obtain ⟨hlive, hlt, -, heol⟩ := hl
  refine (discardEOLs_ends hlive (Nat.succ_pos _) fun h => ?_).mono fun l' hl' => ?_
  · have hlt := heol h
    change l.rest.length < (buffer b).length at hlt
    omega
  · exact ⟨hl'.1, by omega⟩

end Please.Asp.Syntax
