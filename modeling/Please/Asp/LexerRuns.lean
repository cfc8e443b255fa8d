import Please.Asp.Lexer

/-!
# How the lexer moves

What the operations of the lexer do to the bytes that are left, and how a call of `Next` is made
of rounds.
-/

namespace Please.Asp.Syntax

open Please.Lib.Utf8 Please.Lib.Except
open Please.Fs (Bytes)
open Please.Build (utf8)

namespace Scan

variable {l l' : Scan} {b c : UInt8} {i n : ℕ} {w : Bytes} {p : UInt8 → Bool}

/-! ## Reading bytes -/

theorem get_eq_ok : l.get i = .ok b ↔ l.rest[i]? = some b := by
  cases h : l.rest[i]? with
  | none | some b' => simp [get, h]

theorem get_zero_eq_ok : l.get 0 = .ok b ↔ ∃ rest, l.rest = b :: rest := by
  rw [get_eq_ok]
  cases l.rest with
  | nil => simp
  | cons => simp

@[simp]
theorem skip_rest : (l.skip n).rest = l.rest.drop n := rfl

theorem skip_skip (m : ℕ) : (l.skip n).skip m = l.skip (n + m) := by
  simp [skip, Nat.add_assoc]

theorem takeWhile_eq_ok : l.takeWhile p = .ok (w, l') ↔
    w = l.rest.takeWhile p ∧ w.length < l.rest.length ∧ l' = l.skip w.length := by
  constructor
  · intro h
    obtain ⟨b, hb, heq⟩ := bind_eq_ok.mp h
    cases heq
    refine ⟨rfl, ?_, rfl⟩
    exact (List.getElem?_eq_some_iff.mp (get_eq_ok.mp hb)).1
  · rintro ⟨rfl, hlen, rfl⟩
    refine bind_eq_ok.mpr ⟨_, get_eq_ok.mpr (List.getElem?_eq_getElem hlen), rfl⟩

theorem length_takeWhile (h : l.takeWhile p = .ok (w, l')) : l'.rest.length ≤ l.rest.length := by
  obtain ⟨-, -, rfl⟩ := takeWhile_eq_ok.mp h
  simp

/-! ## Spaces -/

/-- The state after the leading spaces. -/
def strip (l : Scan) : Scan := l.skip (l.rest.takeWhile isSpace).length

theorem length_strip : l.strip.rest.length ≤ l.rest.length := by
  simp [strip]

theorem strip_eq_self (h : l.rest.head?.all (!isSpace ·)) : l.strip = l := by
  have hnil : l.rest.takeWhile isSpace = [] := by
    cases hrest : l.rest with
    | nil => rfl
    | cons => simp_all
  rw [strip, hnil]
  rfl

theorem stripSpaces_eq :
    l.stripSpaces = if l.strip.rest = [] then .error .outOfRange else .ok l.strip := by
  have hrest : l.strip.rest = [] ↔ l.rest.length ≤ (l.rest.takeWhile isSpace).length := by
    simp [strip, List.drop_eq_nil_iff]
  by_cases h : l.strip.rest = []
  · have hget : l.get (l.rest.takeWhile isSpace).length = .error .outOfRange := by
      rw [get, List.getElem?_eq_none (hrest.mp h)]
    rw [if_pos h, stripSpaces, takeWhile, hget]
    rfl
  · have hlen : (l.rest.takeWhile isSpace).length < l.rest.length := by
      rw [hrest] at h
      omega
    rw [if_neg h, stripSpaces, takeWhile_eq_ok.mpr ⟨rfl, hlen, rfl⟩]
    rfl

/-! ## Rounds -/

theorem indentTo_rest {indent pos pos' : ℕ} (h : l.indentTo indent pos = .ok (l', pos')) :
    l'.rest = l.rest := by
  unfold indentTo at h
  split at h
  · split at h
    · cases h
    · split at h
      · cases h
        rfl
      · cases h
  · split at h <;> cases h <;> rfl

theorem length_newline {pos : ℕ} (h : l.newline pos = .ok (.again l')) :
    l'.rest.length ≤ l.rest.length := by
  obtain ⟨⟨w, l₁⟩, hw, h⟩ := bind_eq_ok.mp h
  obtain ⟨c, -, h⟩ := bind_eq_ok.mp h
  have hlen := length_takeWhile hw
  split at h
  · cases h
    exact hlen
  split at h
  · obtain ⟨⟨l₂, pos'⟩, hl₂, h⟩ := bind_eq_ok.mp h
    dsimp only at h
    split at h
    · cases h
      rw [indentTo_rest hl₂]
      exact hlen
    · cases h
  · cases h
    exact hlen

variable [Unicode]

theorem pass_eq : l.pass = if l.strip.rest = [] then .error .outOfRange else l.strip.scan := by
  rw [pass, stripSpaces_eq]
  split <;> rfl

theorem scan_eq_again (h : l.scan = .ok (.again l')) :
    ∃ next rest, l.unindents = 0 ∧ l.rest = next :: rest ∧
      (next = byte '\r' ∧ l' = l.skip 1 ∨
        next = byte '\n' ∧ (l.skip 1).newline l.pos = .ok (.again l') ∨
        next = byte '#' ∧ (l.skip 1).comment = .ok (.again l')) := by
  unfold scan at h
  split at h
  · cases h
  rename_i hun
  obtain ⟨next, hnext, h⟩ := bind_eq_ok.mp h
  obtain ⟨b, -, h⟩ := bind_eq_ok.mp h
  obtain ⟨rest, hrest⟩ := get_zero_eq_ok.mp hnext
  refine ⟨next, rest, by omega, hrest, ?_⟩
  split at h
  · obtain ⟨quote, -, h⟩ := bind_eq_ok.mp h
    obtain ⟨r, -, h⟩ := map_eq_ok.mp h
    cases h
  split at h
  · obtain ⟨r, -, h⟩ := map_eq_ok.mp h
    cases h
  split at h
  · rename_i hcr
    cases h
    exact .inl ⟨hcr, rfl⟩
  split at h
  · rename_i hnl
    exact .inr (.inl ⟨hnl, h⟩)
  split at h
  · rename_i hc
    exact .inr (.inr ⟨hc, h⟩)
  · obtain ⟨r, -, h⟩ := map_eq_ok.mp h
    cases h

theorem length_scan (h : l.scan = .ok (.again l')) : l'.rest.length < l.rest.length := by
  obtain ⟨next, rest, -, hrest, hcases⟩ := scan_eq_again h
  have hskip : (l.skip 1).rest.length < l.rest.length := by simp [hrest]
  obtain ⟨-, rfl⟩ | ⟨-, h⟩ | ⟨-, h⟩ := hcases
  · exact hskip
  · exact (length_newline h).trans_lt hskip
  · obtain ⟨⟨w, l₁⟩, hw, heq⟩ := bind_eq_ok.mp h
    cases heq
    exact (length_takeWhile hw).trans_lt hskip

theorem length_pass (h : l.pass = .ok (.again l')) : l'.rest.length < l.rest.length := by
  rw [pass_eq] at h
  split at h
  · cases h
  · exact (length_scan h).trans_le length_strip

theorem nextToken_of_token {r : Token × Scan} (h : l.pass = .ok (.token r)) :
    l.nextToken (n + 1) = .ok r := by
  rw [nextToken, h]
  rfl

theorem nextToken_of_again (h : l.pass = .ok (.again l')) :
    l.nextToken (n + 1) = l'.nextToken n := by
  rw [nextToken, h]
  rfl

/-- What `Next` makes of a token. -/
def accept (r : Token × Scan) : Lex :=
  { r.2 with peek := r.1, lastEOL := r.1.type = .eol ∨ r.1.type = .unindent }

theorem next_of_token {r : Token × Scan} (h : l.pass = .ok (.token r)) :
    l.next = .ok (accept r) := by
  show accept <$> l.nextToken _ = _
  rw [nextToken_of_token h]
  rfl

end Scan

end Please.Asp.Syntax
