import Mathlib.Data.List.DropRight

/-!
# Runes

`strings.TrimSpace` of Go, on lists of characters, and `utf8.DecodeRune`, on lists of bytes: the
rune at the head of a byte string and the number of bytes it takes. Bytes that are no encoding are
read as the error rune, one at a time.

* `decodeRune_le_length`: no more bytes are taken than there are.
-/

namespace Please.Lib.Utf8

/-- `utf8.RuneError`. -/
def runeError : ℕ := 0xFFFD

/-- The classes of runes of Go's `unicode` package, as far as they matter here. -/
class Unicode where
  /-- `unicode.IsLetter` -/
  isLetter : ℕ → Bool
  /-- `unicode.IsDigit` -/
  isDigit : ℕ → Bool
  isLetter_runeError : isLetter runeError = false
  isDigit_runeError : isDigit runeError = false

/-- No rune is a letter or a digit: enough for texts in ASCII. -/
@[reducible] def Unicode.ascii : Unicode where
  isLetter _ := false
  isDigit _ := false
  isLetter_runeError := rfl
  isDigit_runeError := rfl

/-- `unicode.IsSpace`. -/
def isUnicodeSpace (c : Char) : Bool :=
  c.toNat ∈ [0x09, 0x0a, 0x0b, 0x0c, 0x0d, 0x20, 0x85, 0xa0, 0x1680, 0x2028, 0x2029, 0x202f, 0x205f,
    0x3000] || (0x2000 ≤ c.toNat && c.toNat ≤ 0x200a)

/-- `strings.TrimSpace`. -/
def trimSpace (cs : List Char) : List Char :=
  (cs.dropWhile isUnicodeSpace).rdropWhile isUnicodeSpace

/-- The number of bytes of an encoding with the first byte `b`; `0` if there is none. -/
def runeLen (b : UInt8) : ℕ :=
  if b < 0x80 then 1
  else if b < 0xC2 then 0
  else if b < 0xE0 then 2
  else if b < 0xF0 then 3
  else if b < 0xF5 then 4
  else 0

/-- The byte continues an encoding. -/
def isContinuation (b : UInt8) : Bool := 0x80 ≤ b && b < 0xC0

/-- The second byte `b` is one that the first byte `b₀` allows. -/
def acceptsSecond (b₀ b : UInt8) : Bool :=
  isContinuation b && (b₀ ≠ 0xE0 || 0xA0 ≤ b) && (b₀ ≠ 0xED || b < 0xA0) &&
    (b₀ ≠ 0xF0 || 0x90 ≤ b) && (b₀ ≠ 0xF4 || b < 0x90)

/-- The six low bits of a continuation byte. -/
def payload (b : UInt8) : ℕ := b.toNat % 64

/-- `utf8.DecodeRune`: the rune, and the number of bytes. -/
def decodeRune : List UInt8 → ℕ × ℕ
  | [] => (runeError, 0)
  | b₀ :: p =>
    match runeLen b₀, p with
    | 1, _ => (b₀.toNat, 1)
    | 2, b₁ :: _ =>
      if acceptsSecond b₀ b₁ then (b₀.toNat % 32 * 64 + payload b₁, 2) else (runeError, 1)
    | 3, b₁ :: b₂ :: _ =>
      if acceptsSecond b₀ b₁ && isContinuation b₂ then
        ((b₀.toNat % 16 * 64 + payload b₁) * 64 + payload b₂, 3)
      else (runeError, 1)
    | 4, b₁ :: b₂ :: b₃ :: _ =>
      if acceptsSecond b₀ b₁ && isContinuation b₂ && isContinuation b₃ then
        (((b₀.toNat % 8 * 64 + payload b₁) * 64 + payload b₂) * 64 + payload b₃, 4)
      else (runeError, 1)
    | _, _ => (runeError, 1)

theorem isContinuation_of_ascii {b : UInt8} (h : b < 0x80) : isContinuation b = false := by
  simp only [isContinuation, Bool.and_eq_false_imp, decide_eq_true_eq]
  intro h'
  exact absurd h (UInt8.not_lt.mpr h')

theorem runeLen_cases (b : UInt8) :
    runeLen b = 0 ∨ runeLen b = 1 ∨ runeLen b = 2 ∨ runeLen b = 3 ∨ runeLen b = 4 := by
  unfold runeLen
  split_ifs <;> simp

theorem runeLen_eq_one_iff {b : UInt8} : runeLen b = 1 ↔ b < 0x80 := by
  unfold runeLen
  split_ifs <;> simp_all

/-- Either the head is no encoding, or its first byte says how long it is. -/
theorem decodeRune_cons (b₀ : UInt8) (p : List UInt8) :
    decodeRune (b₀ :: p) = (runeError, 1) ∨
      (decodeRune (b₀ :: p)).2 = runeLen b₀ ∧ runeLen b₀ ≠ 0 ∧ runeLen b₀ ≤ p.length + 1 := by
  rcases runeLen_cases b₀ with h | h | h | h | h
  · simp [decodeRune, h]
  · simp [decodeRune, h]
  · rcases p with _ | ⟨b₁, p⟩ <;> simp only [decodeRune, h] <;> (try split) <;> simp
  · rcases p with _ | ⟨b₁, _ | ⟨b₂, p⟩⟩ <;> simp only [decodeRune, h] <;> (try split) <;> simp
  · rcases p with _ | ⟨b₁, _ | ⟨b₂, _ | ⟨b₃, p⟩⟩⟩ <;> simp only [decodeRune, h] <;> (try split) <;>
      simp

/-- What is read at the head of `p` does not depend on what follows `p`, if that begins with an
ASCII byte. -/
theorem decodeRune_append {p rest : List UInt8} {c : UInt8} (hp : p ≠ []) (hc : c < 0x80) :
    decodeRune (p ++ c :: rest) = decodeRune p := by
  have hcont := isContinuation_of_ascii hc
  have hsecond (b₀ : UInt8) : acceptsSecond b₀ c = false := by simp [acceptsSecond, hcont]
  obtain ⟨b₀, p, rfl⟩ := List.exists_cons_of_ne_nil hp
  -- the encoding may end in `p`, or an ASCII byte stands where it goes on
  rcases runeLen_cases b₀ with h | h | h | h | h
  · simp [decodeRune, h]
  · simp [decodeRune, h]
  · rcases p with _ | ⟨b₁, p⟩ <;> simp [decodeRune, h, hsecond]
  · rcases p with _ | ⟨b₁, _ | ⟨b₂, p⟩⟩ <;> rcases rest with _ | ⟨d, rest⟩ <;>
      simp [decodeRune, h, hsecond, hcont]
  · rcases p with _ | ⟨b₁, _ | ⟨b₂, _ | ⟨b₃, p⟩⟩⟩ <;> rcases rest with _ | ⟨d, _ | ⟨d', rest⟩⟩ <;>
      simp [decodeRune, h, hsecond, hcont]

theorem decodeRune_le_length (p : List UInt8) : (decodeRune p).2 ≤ p.length := by
  rcases p with _ | ⟨b₀, p⟩
  · simp [decodeRune]
  rcases decodeRune_cons b₀ p with h | ⟨h, -, hlen⟩
  · simp [h]
  · rwa [h]

example : decodeRune [0xC3, 0xA9, 0x20] = (0xE9, 2) := by decide

end Please.Lib.Utf8
