import Please.Lib.Utf8
import Please.Build.RuleHash

/-!
# The lexer of the BUILD language

Model of `src/parse/asp/lexer.go`. The state holds the bytes that are left, `rest`, beside
the position of the first of them. Reading a byte where none is left is the run-time error
`outOfRange`; a call of `fail` is an error with the position and the text of the message.

`nextToken` calls itself again after a carriage return, a comment or a line end that makes no
token. One round without these calls is `pass`; `nextToken` repeats it.

The fields `line` and `col`, which nothing reads, are left out.
-/

namespace Please.Asp.Syntax

open Please.Lib.Utf8
open Please.Fs (Bytes)
open Please.Build (utf8)

/-! ## Tokens -/

/-- The token types (lines 10–18); `char` is the type of a token that is one character. -/
inductive TokenType
  | eof | ident | int | string | lexOperator | eol | unindent
  | char (c : Char)
  deriving DecidableEq

/-- `Token`. -/
@[ext]
structure Token where
  type : TokenType
  value : Bytes
  pos : ℕ
  deriving DecidableEq

/-- `Token.EndPos`. -/
def Token.endPos (tok : Token) : ℕ := tok.pos + tok.value.length

/-- `reverseSymbol`. -/
def reverseSymbol : TokenType → Bytes
  | .eof => utf8 "end of file"
  | .ident => utf8 "identifier"
  | .int => utf8 "integer"
  | .string => utf8 "string"
  | .lexOperator => utf8 "operator"
  | .eol => utf8 "end of line"
  | .unindent => utf8 "unindent"
  | .char c => utf8 (String.singleton c)

/-- `Token.String`. -/
def Token.string (tok : Token) : Bytes :=
  if tok.value = [] then reverseSymbol tok.type else tok.value

/-- Why lexing or parsing ends without a result. -/
inductive Error
  /-- a call of `fail` -/
  | fail (pos : ℕ) (message : Bytes)
  /-- a slice is read outside its bounds -/
  | outOfRange
  /-- the model's bound on the depth of recursion is reached -/
  | outOfFuel
  deriving DecidableEq

/-! ## Bytes -/

/-- The byte of an ASCII character. -/
def byte (c : Char) : UInt8 := c.toNat.toUInt8

def isSpace (b : UInt8) : Bool := b = byte ' '

def isDigit (b : UInt8) : Bool := byte '0' ≤ b && b ≤ byte '9'

def isQuote (b : UInt8) : Bool := b = byte '"' || b = byte '\''

/-- The first byte of an identifier (line 181). -/
def isIdentStart (b : UInt8) : Bool :=
  byte 'a' ≤ b && b ≤ byte 'z' || byte 'A' ≤ b && b ≤ byte 'Z' || b = byte '_' || 0x80 ≤ b

/-- The ASCII bytes of an identifier (line 390). -/
def isIdentByte (b : UInt8) : Bool :=
  b = byte '_' || byte 'a' ≤ b && b ≤ byte 'z' || byte 'A' ≤ b && b ≤ byte 'Z' || isDigit b

/-- The bytes a comment is made of (line 267). -/
def isCommentByte (b : UInt8) : Bool := b ≠ byte '\n' && b ≠ 0

/-! ## State -/

/-- The part of `lex` that `nextToken` reads and writes. The top of the stack `indents` is its
head. -/
structure Scan where
  rest : Bytes
  pos : ℕ
  indent : ℕ
  braces : ℕ
  unindents : ℕ
  indents : List ℕ
  lastEOL : Bool

/-- `lex`. The field `next`, which `Peek` returns, is called `peek`. -/
structure Lex extends Scan where
  peek : Token

namespace Scan

/-- The byte `i` places on. -/
def get (l : Scan) (i : ℕ) : Except Error UInt8 :=
  match l.rest[i]? with
  | some b => .ok b
  | none => .error .outOfRange

/-- `l.pos += n`. -/
def skip (l : Scan) (n : ℕ) : Scan := { l with rest := l.rest.drop n, pos := l.pos + n }

/-- A loop that reads bytes while they satisfy `p`. -/
def takeWhile (l : Scan) (p : UInt8 → Bool) : Except Error (Bytes × Scan) := do
  let run := l.rest.takeWhile p
  let _ ← l.get run.length
  return (run, l.skip run.length)

/-- `stripSpaces`. -/
def stripSpaces (l : Scan) : Except Error Scan := do
  let (_, l) ← l.takeWhile isSpace
  return l

end Scan

/-! ## Integers, strings and identifiers -/

/-- `consumeInteger`. -/
def Scan.consumeInteger (l : Scan) (initial : UInt8) (pos : ℕ) : Except Error (Token × Scan) := do
  let (digits, l) ← l.takeWhile isDigit
  return (⟨.int, initial :: digits, pos⟩, l)

/-- What an escaped byte stands for (lines 319–334). -/
def unescape (multiline : Bool) (next : UInt8) : Bytes :=
  if next = byte 'n' then [byte '\n']
  else if next = byte 't' then [byte '\t']
  else if next = byte '\n' ∧ multiline then []
  else if next = byte '\\' ∨ isQuote next then [next]
  else [byte '\\', next]

/-- The two bytes after a quote are quotes too. -/
def closesTriple (quote : UInt8) : Bytes → Except Error Bool
  | [] => .error .outOfRange
  | a :: rest =>
    if a = quote then
      match rest with
      | [] => .error .outOfRange
      | b :: _ => .ok (b = quote)
    else .ok false

/-- The loop of `consumeString` (lines 314–368): the contents of the literal, without quotes,
and the number of bytes up to the end of the closing quotes. -/
def stringBytes (quote : UInt8) (multiline raw : Bool) (pos : ℕ) :
    Bool → Bytes → Except Error (Bytes × ℕ)
  | _, [] => .error .outOfRange
  | true, next :: rest => do
    let (value, n) ← stringBytes quote multiline raw pos false rest
    return (unescape multiline next ++ value, n + 1)
  | false, next :: rest => do
    if next = quote then
      if !multiline then return ([], 1)
      if ← closesTriple quote rest then return ([], 3)
      let (value, n) ← stringBytes quote multiline raw pos false rest
      return (next :: value, n + 1)
    else if next = byte '\n' ∧ multiline then
      let (value, n) ← stringBytes quote multiline raw pos false rest
      return (next :: value, n + 1)
    else if next = byte '\n' ∨ next = 0 then
      throw (.fail pos (utf8 "Unterminated string literal"))
    else if next = byte '\\' ∧ !raw then
      let (value, n) ← stringBytes quote multiline raw pos true rest
      return (value, n + 1)
    else
      let (value, n) ← stringBytes quote multiline raw pos false rest
      return (next :: value, n + 1)

/-- `consumeString`. The value is put between double quotes, whatever the quotes in the text. -/
def Scan.consumeString (l : Scan) (quote : UInt8) (pos : ℕ) (multiline raw fString : Bool) :
    Except Error (Token × Scan) := do
  let (value, n) ← stringBytes quote multiline raw pos false l.rest
  let value := byte '"' :: value ++ [byte '"']
  return (⟨.string, if fString then byte 'f' :: value else value, pos⟩, l.skip n)

/-- `consumePossiblyTripleQuotedString`. -/
def Scan.consumePossiblyTripleQuotedString (l : Scan) (quote : UInt8) (pos : ℕ)
    (raw fString : Bool) : Except Error (Token × Scan) := do
  if ← closesTriple quote l.rest then
    (l.skip 2).consumeString quote pos true raw fString
  else l.consumeString quote pos false raw fString

variable [Unicode]

/-- The text `%c` prints for the rune at the head of `p`. -/
def runeText (p : Bytes) : Bytes :=
  if (decodeRune p).1 = runeError then [0xEF, 0xBF, 0xBD] else p.take (decodeRune p).2

/-- The loop of `consumeIdent` (lines 373–395): the bytes of the identifier. Of the current
character, `k` bytes are still to come. The characters are kept as they are encoded, which
is how `string(s)` encodes them again. -/
def identBytes (pos : ℕ) : ℕ → Bytes → Except Error Bytes
  | _, [] => .error .outOfRange
  | k + 1, b :: rest => do
    let s ← identBytes pos k rest
    return b :: s
  | 0, b :: rest => do
    if 0x80 ≤ b then
      let (c, n) := decodeRune (b :: rest)
      if !Unicode.isLetter c && !Unicode.isDigit c then
        throw (.fail pos (utf8 "Illegal Unicode identifier " ++ runeText (b :: rest)))
      let s ← identBytes pos (n - 1) rest
      return b :: s
    else if isIdentByte b then
      let s ← identBytes pos 0 rest
      return b :: s
    else return []

/-- `consumeIdent`. A space that ends the identifier is consumed with it. -/
def Scan.consumeIdent (l : Scan) (pos : ℕ) : Except Error (Token × Scan) := do
  let s ← identBytes pos 0 l.rest
  let l := l.skip s.length
  let c ← l.get 0
  return (⟨.ident, s, pos⟩, if isSpace c then l.skip 1 else l)

/-! ## `nextToken` -/

/-- A token of one character. -/
def charToken (next : UInt8) (pos : ℕ) : Token := ⟨.char (Char.ofNat next.toNat), [next], pos⟩

/-- The opening brackets (line 238). -/
def isOpening (b : UInt8) : Bool := b = byte '(' || b = byte '[' || b = byte '{'

/-- The closing brackets (line 241). -/
def isClosing (b : UInt8) : Bool := b = byte ')' || b = byte ']' || b = byte '}'

/-- The characters that are tokens on their own (line 255). -/
def isPunctuation (b : UInt8) : Bool :=
  b = byte ',' || b = byte '.' || b = byte '%' || b = byte '*' || b = byte '|' || b = byte '&' ||
    b = byte ':'

/-- The byte that makes an operator of two characters of the byte `b` (lines 246 and 257). -/
def operatorSecond (b : UInt8) : Option UInt8 :=
  if b = byte '=' || b = byte '!' || b = byte '+' || b = byte '<' || b = byte '>' then
    some (byte '=')
  else if b = byte '/' then some (byte '/')
  else none

/-- The cases of the `switch` in `nextToken` that return a token (lines 187–283), after the byte
`next` at `pos`. -/
def Scan.symbol (l : Scan) (next : UInt8) (pos : ℕ) : Except Error (Token × Scan) := do
  if next = 0 then return (⟨.eof, [], pos⟩, l)
  else if next = byte '0' then
    if (← l.get 0) = byte 'o' then (l.skip 1).consumeInteger next pos
    else l.consumeInteger next pos
  else if isDigit next then l.consumeInteger next pos
  else if isQuote next then l.consumePossiblyTripleQuotedString next pos false false
  else if isOpening next then return (charToken next pos, { l with braces := l.braces + 1 })
  else if isClosing next then return (charToken next pos, { l with braces := l.braces - 1 })
  else if isPunctuation next then return (charToken next pos, l)
  else if next = byte '-' then
    if isDigit (← l.get 0) then l.consumeInteger next pos
    else return (charToken next pos, l)
  else
    match operatorSecond next with
    | some second =>
      if (← l.get 0) = second then return (⟨.lexOperator, [next, second], pos⟩, l.skip 1)
      else return (charToken next pos, l)
    | none =>
      if next = byte '\t' then
        throw (.fail pos (utf8
          "Tabs are not permitted in BUILD files, use space-based indentation instead"))
      else throw (.fail pos (utf8 "Unknown symbol " ++ [next]))

/-- How a round of `nextToken` ends: in a token, or in another call. -/
inductive Pass
  | token (result : Token × Scan)
  | again (l : Scan)

/-- The state after a line with the indentation `indent` has begun, outside brackets (lines
206–221), and where the end of the line before it is reported. -/
def Scan.indentTo (l : Scan) (indent pos : ℕ) : Except Error (Scan × ℕ) :=
  if indent < l.indent then
    match l.indents.dropWhile (indent < ·) with
    | [] => .error .outOfRange
    | top :: indents =>
      if indent = top then
        let popped := (l.indents.takeWhile (indent < ·)).length
        .ok ({ l with indent, unindents := l.unindents + popped, indents := top :: indents },
          pos + 1)
      else .error (.fail (pos + 1) (utf8 "Unexpected indent"))
  else if l.indent ≠ indent then .ok ({ l with indent, indents := indent :: l.indents }, pos)
  else .ok (l, pos)

/-- The end of a line at `pos` (lines 194–226): the indentation of the next line is read. -/
def Scan.newline (l : Scan) (pos : ℕ) : Except Error Pass := do
  let (spaces, l) ← l.takeWhile isSpace
  if (← l.get 0) = byte '\n' then return .again l
  else if l.braces = 0 then
    let (l, pos) ← l.indentTo spaces.length pos
    if l.lastEOL then return .again l else return .token (⟨.eol, [], pos⟩, l)
  else return .again l

/-- A comment, after the `#` (lines 265–271). -/
def Scan.comment (l : Scan) : Except Error Pass := do
  let (_, l) ← l.takeWhile isCommentByte
  return .again l

/-- A quote follows the byte `next`, which marks the string as raw or as an f-string (lines
176–177). -/
def Scan.quoteFollows (l : Scan) (next : UInt8) : Except Error Bool :=
  if next = byte 'r' ∨ next = byte 'f' then isQuote <$> l.get 1 else pure false

/-- A round of `nextToken`, after the spaces. -/
def Scan.scan (l : Scan) : Except Error Pass := do
  if 0 < l.unindents then
    return .token (⟨.unindent, [], l.pos⟩, { l with unindents := l.unindents - 1 })
  else
    let next ← l.get 0
    if ← l.quoteFollows next then
      let quote ← l.get 1
      .token <$> (l.skip 2).consumePossiblyTripleQuotedString quote l.pos
        (next = byte 'r') (next = byte 'f')
    else if isIdentStart next then .token <$> l.consumeIdent l.pos
    else if next = byte '\r' then return .again (l.skip 1)
    else if next = byte '\n' then (l.skip 1).newline l.pos
    else if next = byte '#' then (l.skip 1).comment
    else .token <$> (l.skip 1).symbol next l.pos

/-- A round of `nextToken`. -/
def Scan.pass (l : Scan) : Except Error Pass := do
  let l ← l.stripSpaces
  l.scan

/-- `nextToken`. -/
def Scan.nextToken : ℕ → Scan → Except Error (Token × Scan)
  | 0, _ => .error .outOfFuel
  | n + 1, l => do
    match ← l.pass with
    | .token result => return result
    | .again l => nextToken n l

/-- `Next`, without the token it returns, which is the one `Peek` returned before. A round that
makes no token reads a byte at least, so the bytes left bound the number of rounds. -/
def Scan.next (l : Scan) : Except Error Lex := do
  let (tok, l) ← l.nextToken (l.rest.length + 1)
  return { l with peek := tok, lastEOL := tok.type = .eol ∨ tok.type = .unindent }

/-- The next byte is `=`, and the one after it is not. -/
def Scan.atAssign (l : Scan) : Except Error Bool := do
  if (← l.get 0) = byte '=' then return (← l.get 1) ≠ byte '=' else return false

/-- `AssignFollows`. It moves over the spaces. -/
def Lex.assignFollows (l : Lex) : Except Error (Bool × Lex) := do
  let s ← l.toScan.stripSpaces
  let follows ← s.atAssign
  return (follows, { s with peek := l.peek })

/-- The leading line ends that `newLexer` discards (lines 75–77). -/
def discardEOLs : ℕ → Lex → Except Error Lex
  | 0, _ => .error .outOfFuel
  | n + 1, l => do
    if l.peek.type = .eol then discardEOLs n (← l.toScan.next) else return l

/-- The buffer of `newLexer` (lines 64–69): a missing line end is added, then two NUL bytes. -/
def buffer (b : Bytes) : Bytes :=
  (if b ≠ [] ∧ b.getLast? ≠ some (byte '\n') then b ++ [byte '\n'] else b) ++ [0, 0]

/-- The state that `newLexer` starts from. -/
def Scan.start (rest : Bytes) : Scan :=
  { rest, pos := 0, indent := 0, braces := 0, unindents := 0, indents := [0], lastEOL := false }

/-- `newLexer`. -/
def newLexer (b : Bytes) : Except Error Lex := do
  let l ← (Scan.start (buffer b)).next
  discardEOLs (b.length + 2) l

end Please.Asp.Syntax
