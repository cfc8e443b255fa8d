import Please.Asp.Lexer
import Please.Asp.Grammar

/-!
# The parser of the BUILD language

Model of `src/parse/asp/grammar_parse.go`. The parser reads tokens through three methods of the
lexer, `Peek`, `Next` and `AssignFollows`; the model is a parser over any source of tokens with
these methods, and `parseFileInput` runs it on the lexer.

The parse functions of expressions call one another. Those that are called before they are
defined are the fields of `Recursive`, and a bound `n` on the depth of the calls ties the knot:
`recursive n` is what the functions are when calls may be nested `n` deep. A loop makes at most
`n` rounds likewise. `outOfFuel` is the error if a bound is reached.

The positions that expressions record go through a function `mark`.
-/

namespace Please.Asp.Syntax

open Please.Lib.Utf8
open Please.Fs (Bytes)
open Please.Build (utf8)

/-! ## Tokens -/

/-- `keywords` (lines 13–47). -/
def keywords : List Bytes :=
  ["False", "None", "True", "and", "as", "assert", "break", "class", "continue", "def", "del",
    "elif", "else", "except", "finally", "for", "from", "global", "if", "import", "in", "is",
    "lambda", "nonlocal", "not", "or", "pass", "raise", "return", "try", "while", "with",
    "yield"].map utf8

/-- `operators` (`grammar.go`, lines 373–394). -/
def operators (value : Bytes) : Option Operator :=
  [("+", Operator.add), ("-", .subtract), ("*", .multiply), ("/", .divide), ("//", .floorDivide),
    ("%", .modulo), ("<", .lessThan), (">", .greaterThan), ("and", .and), ("or", .or),
    ("is", .is), ("is not", .isNot), ("in", .in_), ("not in", .notIn), ("==", .equal),
    ("!=", .notEqual), (">=", .greaterThanOrEqual), ("<=", .lessThanOrEqual), ("|", .union),
    ("not", .not)].findSome? fun (s, op) => if utf8 s = value then some op else none

/-- The types of arguments (line 279). -/
def argumentTypeNames : List Bytes :=
  ["bool", "str", "int", "list", "dict", "function", "config"].map utf8

/-- What the parser calls of the lexer. -/
class TokenSource (σ : Type) where
  peek : σ → Except Error Token
  next : σ → Except Error σ
  assignFollows : σ → Except Error (Bool × σ)

instance [Unicode] : TokenSource Lex where
  peek l := .ok l.peek
  next l := l.toScan.next
  assignFollows l := l.assignFollows

/-- `parser`. -/
structure Parser (σ : Type) where
  l : σ
  endPos : ℕ
  inFor : Bool

abbrev Parse (σ α : Type) := StateT (Parser σ) (Except Error) α

section

variable {σ α β : Type} {m : Parse σ α} {f : α → Parse σ β} {p q : Parser σ}

theorem Parse.bind_of_ok {a : α} (h : m p = .ok (a, q)) : (m >>= f) p = f a q := by
  change m p >>= (fun x => f x.1 x.2) = _
  rw [h]
  rfl

theorem Parse.bind_of_error {err : Error} (h : m p = .error err) : (m >>= f) p = .error err := by
  change m p >>= (fun x => f x.1 x.2) = _
  rw [h]
  rfl

end

section tokens

variable {σ : Type} [TokenSource σ] {α : Type}

/-- `p.l.Peek()`. -/
def peek : Parse σ Token := fun p => do
  let tok ← TokenSource.peek p.l
  return (tok, p)

/-- `p.l.Next()`. -/
def advance : Parse σ Token := fun p => do
  let tok ← TokenSource.peek p.l
  let l ← TokenSource.next p.l
  return (tok, { p with l })

/-- `p.l.AssignFollows()`. -/
def assignFollows : Parse σ Bool := fun p => do
  let (follows, l) ← TokenSource.assignFollows p.l
  return (follows, { p with l })

/-- `p.endPos = endPos`. -/
def setEndPos (endPos : ℕ) : Parse σ Unit := fun p => .ok ((), { p with endPos })

def getEndPos : Parse σ ℕ := fun p => .ok (p.endPos, p)

/-- `p.inFor = inFor`. -/
def setInFor (inFor : Bool) : Parse σ Unit := fun p => .ok ((), { p with inFor })

def getInFor : Parse σ Bool := fun p => .ok (p.inFor, p)

/-- A panic. -/
def raise (e : Error) : Parse σ α := fun _ => .error e

/-- `parser.fail`. -/
def fail (tok : Token) (message : Bytes) : Parse σ α := raise (.fail tok.pos message)

/-- `parser.assert`. -/
def assert (condition : Bool) (tok : Token) (message : Bytes) : Parse σ Unit :=
  if condition then pure () else fail tok message

/-- `parser.next`. -/
def next (expectedType : TokenType) : Parse σ Token := do
  let tok ← advance
  assert (tok.type = expectedType) tok
    (utf8 "unexpected token " ++ tok.string ++ utf8 ", expected " ++ reverseSymbol expectedType)
  return tok

/-- `parser.nextv`. -/
def nextv (expectedValue : Bytes) : Parse σ Token := do
  let tok ← advance
  assert (tok.value = expectedValue) tok
    (utf8 "unexpected token " ++ tok.string ++ utf8 ", expected " ++ expectedValue)
  return tok

/-- `parser.optional`. -/
def optional (option : TokenType) : Parse σ Bool := do
  let tok ← peek
  if tok.type = option then
    let _ ← advance
    return true
  else return false

/-- `parser.optionalv`. -/
def optionalv (option : Bytes) : Parse σ Bool := do
  let tok ← peek
  if tok.value = option then
    let _ ← advance
    return true
  else return false

/-- `parser.anythingBut`. -/
def anythingBut (type : TokenType) : Parse σ Bool := do
  let tok ← peek
  return tok.type ≠ type

/-- `parser.oneof`. -/
def oneof (expectedTypes : List TokenType) : Parse σ Token := do
  let tok ← advance
  assert (expectedTypes.contains tok.type) tok
    (utf8 "unexpected token " ++ tok.value ++ utf8 ", expected one of " ++
      joinBytes (utf8 " ") (expectedTypes.map reverseSymbol))
  return tok

/-- `parser.oneofval`. -/
def oneofval (expectedValues : List Bytes) : Parse σ Token := do
  let tok ← advance
  assert (expectedValues.contains tok.value) tok
    (utf8 "unexpected token " ++ tok.value ++ utf8 ", expected one of " ++
      joinBytes (utf8 ", ") expectedValues)
  return tok

/-- `p.endPos = p.next(expectedType).EndPos()`, for a token that is returned too. -/
def ending (expectedType : TokenType) : Parse σ Token := do
  let tok ← next expectedType
  setEndPos tok.endPos
  return tok

/-- `p.endPos = p.l.Next().EndPos()`, where `tok` is the token that `Peek` returned. -/
def consume (tok : Token) : Parse σ Unit := do
  let _ ← advance
  setEndPos tok.endPos

/-- What a condition on the tokens introduces, if it holds. -/
def optionally (condition : Parse σ Bool) (m : Parse σ α) : Parse σ (Option α) := do
  if ← condition then some <$> m else return none

/-! ## Loops -/

/-- A loop over items with commas between them, `items` so far. It goes on while the next token
satisfies `continues`, and ends after an item that no comma follows. -/
def commaSeparated (continues : Token → Bool) (item : List α → Parse σ α) :
    ℕ → List α → Parse σ (List α)
  | 0, _ => raise .outOfFuel
  | n + 1, items => do
    let tok ← peek
    if continues tok then
      let a ← item items
      if ← optional (.char ',') then commaSeparated continues item n (items ++ [a])
      else return items ++ [a]
    else return items

/-- A loop over items, at least one, with the token `sep` between them. -/
def separatedBy (sep : TokenType) (item : Parse σ α) : ℕ → Parse σ (List α)
  | 0 => raise .outOfFuel
  | n + 1 => do
    let a ← item
    if ← optional sep then
      let items ← separatedBy sep item n
      return a :: items
    else return [a]

/-- A loop that goes on while the next token satisfies `continues`. -/
def repeatWhile (continues : Token → Bool) (item : Parse σ α) : ℕ → Parse σ (List α)
  | 0 => raise .outOfFuel
  | n + 1 => do
    let tok ← peek
    if continues tok then
      let a ← item
      let items ← repeatWhile continues item n
      return a :: items
    else return []

/-- `parseIdentList`. -/
def parseIdentList (n : ℕ) : Parse σ (List Bytes) :=
  separatedBy (.char ',') (Token.value <$> next .ident) n

end tokens

/-! ## String literals -/

/-- `strconv.Atoi`, on values short enough for the result to fit. -/
def atoi (s : Bytes) : Option ℤ :=
  let digits := if s.head? = some (byte '-') ∨ s.head? = some (byte '+') then s.tail else s
  if digits = [] ∨ !digits.all isDigit then none
  else
    let i : ℕ := digits.foldl (fun i d => 10 * i + (d.toNat - 48)) 0
    some (if s.head? = some (byte '-') then -i else i)

/-- `strings.ReplaceAll`, of a doubled byte by a single one. -/
def undouble (c : UInt8) : Bytes → Bytes
  | a :: b :: s => if a = c ∧ b = c then c :: undouble c s else a :: undouble c (b :: s)
  | s => s

/-- `strings.Split` at one byte. -/
def split (sep : UInt8) : Bytes → List Bytes
  | [] => [[]]
  | c :: s =>
    match split sep s with
    | [] => [[c]]
    | part :: parts => if c = sep then [] :: part :: parts else (c :: part) :: parts

/-- The literal text in an f-string (lines 729 and 740). -/
def unescapeBraces (s : Bytes) : Bytes := undouble (byte '}') (undouble (byte '{') s)

/-- `findBrace`, after the byte `last`. (The source goes through the runes of `s`; of them only
ASCII ones are compared.) -/
def findBrace (last : UInt8) : Bytes → Option ℕ
  | [] => none
  | c :: s =>
    if c = byte '{' ∧ last ≠ byte '{' ∧ last ≠ byte '$' then
      if s.head? = some (byte '{') then (findBrace c s).map (· + 1) else some 0
    else (findBrace c s).map (· + 1)

/-- The loop of `parseFString` (lines 727–739) on the text `s` at `pos`. -/
def fStringVars : ℕ → ℕ → Bytes → Except Error FString
  | 0, _, _ => .error .outOfFuel
  | n + 1, pos, s =>
    match findBrace (byte ' ') s with
    | none => .ok ⟨[], unescapeBraces s⟩
    | some idx => do
      let name := (s.drop (idx + 1)).takeWhile (· ≠ byte '}')
      if (s.drop (idx + 1)).length = name.length then
        throw (.fail (pos + idx + 1) (utf8 "Unterminated brace in fstring"))
      let f ← fStringVars n (pos + idx + 1 + name.length + 1)
        (s.drop (idx + 1 + name.length + 1))
      return { f with vars := ⟨unescapeBraces (s.take idx), split (byte '.') name⟩ :: f.vars }

/-- `s[1 : len(s)-1]`, the text between the quotes. -/
def unquote (s : Bytes) : Except Error Bytes :=
  if s.length < 2 then .error .outOfRange else .ok s.tail.dropLast

section expressions

variable {P : Type}

/-- `concatStrings`. Each case returns one of the two nodes, with what is attached to it. -/
def concatStrings (lhs rhs : Node P .valueExpression) : Except Error (Node P .valueExpression) :=
  match lhs, rhs with
  | .valueExpression lit slices prop call, .valueExpression lit' slices' prop' call' =>
    match lit, lit' with
    | .fString l, .fString r =>
      match r.vars with
      | [] => .ok (.valueExpression (.fString { l with suffix := l.suffix ++ r.suffix })
          slices prop call)
      | v :: vars => .ok (.valueExpression
          (.fString ⟨l.vars ++ { v with before := l.suffix ++ v.before } :: vars, r.suffix⟩)
          slices' prop' call')
    | .fString l, .string s => do
      let s ← unquote s
      return .valueExpression (.fString { l with suffix := l.suffix ++ s }) slices prop call
    | .string s, .fString r =>
      match r.vars with
      | [] => .error .outOfRange
      | v :: vars => do
        let s ← unquote s
        return .valueExpression (.fString
          { r with vars := { v with before := s ++ v.before } :: vars })
          slices' prop' call'
    | .string s, .string s' => do
      let s ← unquote s
      let s' ← unquote s'
      return .valueExpression (.string (byte '"' :: s ++ s' ++ [byte '"'])) slices prop call
    | _, _ => .error .outOfRange

/-! ## Expressions -/

variable {σ : Type} [TokenSource σ]

/-- A computation that does not read tokens. -/
def ofExcept {α : Type} (r : Except Error α) : Parse σ α := fun p => do
  let a ← r
  return (a, p)

/-- The parse functions that are called before they are defined. An identifier expression comes
with the end it records. -/
structure Recursive (σ P : Type) where
  expression : Parse σ (Expression P)
  unconditional : Parse σ (Expression P)
  value : Parse σ (Node P .valueExpression)
  identExpr : Parse σ (Node P .identExpr × ℕ)

variable (mark : ℕ → P) (r : Recursive σ P) (n : ℕ)

/-- `parseFString`. -/
def parseFString : Parse σ FString := do
  let tok ← ending .string
  let s := (tok.value.drop 2).dropLast
  ofExcept (fStringVars (s.length + 1) (tok.pos + 1) s)

/-- The name of a call argument. -/
def argumentName : Node P .callArgument → Bytes
  | .callArgument _ name _ => name

/-- The token `tok` is the name of an argument (line 606). -/
def isNamed (tok : Token) : Parse σ Bool :=
  if tok.type = .ident then assignFollows else pure false

/-- An argument of a call (lines 604–615), after the arguments `args`. -/
def parseCallArgument (args : List (Node P .callArgument)) : Parse σ (Node P .callArgument) := do
  let tok ← peek
  if ← isNamed tok then
    let _ ← next .ident
    let _ ← next (.char '=')
    assert (!(args.map argumentName).contains tok.value) tok
      (utf8 "Repeated argument " ++ tok.value)
    let value ← r.expression
    return .callArgument (some (mark tok.pos)) tok.value value
  else
    let value ← r.expression
    return .callArgument none [] value

/-- `parseCall`, after the opening bracket. The call comes with the end it records. -/
def parseCall : Parse σ (Node P .call × ℕ) := do
  let args ← commaSeparated (fun tok => tok.type ≠ .char ')') (parseCallArgument mark r) n []
  let tok ← ending (.char ')')
  return (.call (.ofList args), tok.endPos)

/-- The actions of an identifier expression (lines 580–590), with the end they record, `endPos`
if there are none. -/
def parseActions : ℕ → ℕ → Parse σ (List (Node P .identExprAction) × ℕ)
  | 0, _ => raise .outOfFuel
  | k + 1, endPos => do
    let tok ← peek
    if tok.type = .char '.' then
      let _ ← advance
      let (property, endPos) ← r.identExpr
      let (actions, endPos) ← parseActions k endPos
      return (.propertyAction property :: actions, endPos)
    else if tok.type = .char '(' then
      let _ ← advance
      let (call, endPos) ← parseCall mark r n
      let (actions, endPos) ← parseActions k endPos
      return (.callAction call :: actions, endPos)
    else return ([], endPos)

/-- `parseIdentExpr`. -/
def parseIdentExpr : Parse σ (Node P .identExpr × ℕ) := do
  let identTok ← next .ident
  let (actions, endPos) ← parseActions mark r n n 0
  let endPos := if endPos = 0 then identTok.endPos else endPos
  return (.identExpr (mark identTok.pos) (mark endPos) identTok.value (.ofList actions), endPos)

/-- The names and the expression of a `for` clause. -/
def parseForClause : Parse σ (List Bytes × Expression P) := do
  let names ← parseIdentList n
  let _ ← nextv (utf8 "in")
  let expr ← r.unconditional
  return (names, expr)

/-- `parseComprehension`. -/
def parseComprehension : Parse σ (Node P .comprehension) := do
  let _ ← nextv (utf8 "for")
  let (names, expr) ← parseForClause r n
  let second ← optionally (optionalv (utf8 "for"))
    ((fun (names, expr) => .secondComprehension names expr) <$> parseForClause r n)
  let cond ← optionally (optionalv (utf8 "if")) r.unconditional
  return .comprehension names expr (.ofOption second) (.ofOption cond)

/-- The comprehension that may follow the items of a list or dict literal. -/
def parseOptionalComprehension (single : Bool) (message : Bytes) :
    Parse σ (Option (Node P .comprehension)) := do
  let tok ← peek
  if tok.value = utf8 "for" then
    assert single tok message
    some <$> parseComprehension r n
  else return none

/-- `parseList`. -/
def parseList (opening closing : Char) : Parse σ (Node P .list) := do
  let _ ← next (.char opening)
  let values ← commaSeparated (fun tok => tok.type ≠ .char closing) (fun _ => r.expression) n []
  let comprehension ← parseOptionalComprehension r n (values.length = 1)
    (utf8 "Must have exactly 1 item in a list comprehension")
  let _ ← ending (.char closing)
  return .list (.ofList values) (.ofOption comprehension)

/-- An item of a dict literal (lines 649–652). -/
def parseDictItem : Parse σ (Node P .dictItem) := do
  let key ← r.expression
  let _ ← next (.char ':')
  let value ← r.expression
  return .dictItem key value

/-- `parseDict`. -/
def parseDict : Parse σ (Node P .dict) := do
  let _ ← next (.char '{')
  let items ← commaSeparated (fun tok => tok.type ≠ .char '}') (fun _ => parseDictItem r) n []
  let comprehension ← parseOptionalComprehension r n (items.length = 1)
    (utf8 "Must have exactly 1 key:value pair in a dict comprehension")
  let _ ← ending (.char '}')
  return .dict (.ofList items) (.ofOption comprehension)

/-- The start of a slice and whether a colon follows it (lines 667–674). -/
def parseSliceStart : Parse σ (Option (Expression P) × Bool) := do
  if ← optional (.char ':') then return (none, true)
  else
    let start ← r.expression
    let colon ← optional (.char ':')
    return (some start, colon)

/-- `parseSlice`. -/
def parseSlice : Parse σ (Node P .slice) := do
  let _ ← next (.char '[')
  let (start, colon) ← parseSliceStart r
  let tok ← peek
  if tok.type = .char ']' then
    consume tok
    return .slice (.ofOption start) colon .absent
  else
    let stop ← r.expression
    let _ ← ending (.char ']')
    return .slice (.ofOption start) colon (.present stop)

/-- An argument of a lambda (lines 706–710). -/
def parseLambdaArgument : Parse σ (Node P .argument) := do
  let tok ← advance
  let value ← optionally (optional (.char '=')) r.expression
  return .argument tok.value [] [] (.ofOption value) false

/-- `parseLambda`. -/
def parseLambda : Parse σ (Node P .lambda) := do
  let _ ← nextv (utf8 "lambda")
  let arguments ← commaSeparated (fun tok => tok.type = .ident)
    (fun _ => parseLambdaArgument r) n []
  let _ ← next (.char ':')
  let expr ← r.expression
  return .lambda (.ofList arguments) expr

/-- An integer literal (lines 480–485). -/
def parseInt (tok : Token) : Parse σ (Node P .literal) := do
  assert (tok.value.length < 19) tok (utf8 "int literal is too large: " ++ tok.string)
  match atoi tok.value with
  | some i =>
    consume tok
    return .int i
  | none => fail tok (utf8 "invalid int value " ++ tok.string)

/-- A literal that is one keyword. -/
def parseConstant (tok : Token) (literal : Node P .literal) : Parse σ (Node P .literal) := do
  consume tok
  return literal

/-- An identifier expression whose end becomes the end of what is parsed. -/
def parseIdent : Parse σ (Node P .identExpr) := do
  let (ident, endPos) ← parseIdentExpr mark r n
  setEndPos endPos
  return ident

/-- A value that does not start with a string (lines 479–507). -/
def parseLiteral (tok : Token) : Parse σ (Node P .literal) :=
  if tok.type = .int then parseInt tok
  else if tok.value = utf8 "False" then parseConstant tok .false_
  else if tok.value = utf8 "True" then parseConstant tok .true_
  else if tok.value = utf8 "None" then parseConstant tok .none_
  else if tok.type = .char '[' then .listLiteral <$> parseList r n '[' ']'
  else if tok.type = .char '(' then .tupleLiteral <$> parseList r n '(' ')'
  else if tok.type = .char '{' then .dictLiteral <$> parseDict r n
  else if tok.value = utf8 "lambda" then .lambdaLiteral <$> parseLambda r n
  else if tok.type = .ident then .ident <$> parseIdent mark r n
  else fail tok (utf8 "Unexpected token " ++ tok.string)

/-- What may follow a value (lines 509–521). -/
def parseTrailers (literal : Node P .literal) : Parse σ (Node P .valueExpression) := do
  let slices ← repeatWhile (fun tok => tok.type = .char '[') (parseSlice r) n
  if ← optional (.char '.') then
    let property ← parseIdent mark r n
    return .valueExpression literal (.ofList slices) (.present property) .absent
  else if ← optional (.char '(') then
    let (call, _) ← parseCall mark r n
    return .valueExpression literal (.ofList slices) .absent (.present call)
  else return .valueExpression literal (.ofList slices) .absent .absent

/-- A string literal (lines 469–474). -/
def parseString (tok : Token) : Parse σ (Node P .literal) := do
  if tok.value.head? = some (byte 'f') then .fString <$> parseFString
  else
    consume tok
    return .string tok.value

/-- `parseValueExpression`. -/
def parseValueExpression : Parse σ (Node P .valueExpression) := do
  let tok ← peek
  if tok.type = .string then
    let literal ← parseString tok
    let following ← peek
    if following.type = .string then
      let rhs ← r.value
      ofExcept (concatStrings (.valueExpression literal .nil .absent .absent) rhs)
    else parseTrailers mark r n literal
  else
    let literal ← parseLiteral mark r n tok
    parseTrailers mark r n literal

/-- The unary operator an expression may start with (lines 393–399). -/
def parseUnary (tok : Token) : Parse σ (List (Node P .opExpression)) := do
  if tok.type = .char '-' then
    let _ ← advance
    return [.opExpression .negate .absent]
  else if tok.value = utf8 "not" then
    let _ ← advance
    return [.opExpression .not .absent]
  else return []

/-- The value of the operator token, with `not in` as one (lines 401–409). -/
def parseOperatorValue : Parse σ Bytes := do
  let tok ← peek
  if tok.value = utf8 "not" then
    let _ ← advance
    let tok ← peek
    assert (tok.value = utf8 "in") tok (utf8 "expected 'in', not " ++ tok.value)
    setEndPos (tok.pos + (utf8 "not in").length)
    return utf8 "not in"
  else return tok.value

/-- The operator, with `is not` as one (lines 413–420). -/
def parseIs (op : Operator) : Parse σ Operator := do
  if op = .is then
    let tok ← peek
    if tok.value = utf8 "not" then
      setEndPos tok.endPos
      let _ ← advance
      return .isNot
    else return op
  else return op

/-- The operators that an operation adds: its own, then those of its operand (lines 421–427). -/
def hoist (op : Operator) : Expression P → Node P (.listOf .opExpression)
  | .expression pos endPos val ops inlineIf =>
    .cons (.opExpression op (.present (.expression pos endPos val .nil inlineIf))) ops

/-- `parseUnconditionalExpression`. -/
def parseUnconditionalExpression : Parse σ (Expression P) := do
  let tok ← peek
  let unary ← parseUnary tok
  let val ← r.value
  let value ← parseOperatorValue
  match operators value with
  | none => return .expression (mark tok.pos) none val (.ofList unary) .absent
  | some op =>
    let _ ← advance
    let op ← parseIs op
    let operand ← r.unconditional
    let ops := match unary with
      | [] => hoist op operand
      | u :: _ => .cons u (hoist op operand)
    return .expression (mark tok.pos) none val ops .absent

/-- The condition and the alternative of an inline `if`. -/
def parseAlternative : Parse σ (Node P .inlineIf) := do
  let condition ← r.expression
  let _ ← nextv (utf8 "else")
  let otherwise ← r.expression
  return .inlineIf condition otherwise

/-- `parseInlineIf`. -/
def parseInlineIf : Parse σ (Option (Node P .inlineIf)) :=
  optionally (optionalv (utf8 "if")) (parseAlternative r)

/-- The expression with the fields that `parseExpression` sets. -/
def withInlineIf (endPos : P) (inlineIf : Option (Node P .inlineIf)) : Expression P → Expression P
  | .expression pos _ val ops _ => .expression pos (some endPos) val ops (.ofOption inlineIf)

/-- `parseExpression`, and `parseExpressionInPlace`. -/
def parseExpression : Parse σ (Expression P) := do
  let e ← r.unconditional
  let inlineIf ← parseInlineIf r
  let endPos ← getEndPos
  return withInlineIf (mark endPos) inlineIf e

/-- The parse functions, with calls nested at most `n` deep. -/
def recursive : ℕ → Recursive σ P
  | 0 => ⟨raise .outOfFuel, raise .outOfFuel, raise .outOfFuel, raise .outOfFuel⟩
  | n + 1 =>
    let r := recursive n
    { expression := parseExpression mark r
      unconditional := parseUnconditionalExpression mark r
      value := parseValueExpression mark r n
      identExpr := parseIdentExpr mark r n }

/-! ## Statements -/

/-- `strings.HasPrefix(name, "_")`. -/
def isPrivateName (name : Bytes) : Bool := name.head? = some (byte '_')

/-- An assignment to an index (lines 543–551). -/
def parseIndexAssignment (name : Bytes) : Parse σ (IdentStatement P) := do
  let index ← r.expression
  let _ ← ending (.char ']')
  let tok ← oneofval [utf8 "=", utf8 "+="]
  let value ← r.expression
  return if tok.type = .char '=' then .index name index value else .indexAug name index value

/-- The part of a statement after the identifier and the token `tok` (lines 537–570). -/
def parseIdentAction (name : Bytes) (tok : Token) : Parse σ (IdentStatement P) := do
  if tok.type = .char ',' then
    let names ← parseIdentList n
    let _ ← next (.char '=')
    let expr ← r.expression
    return .unpack name names expr
  else if tok.type = .char '[' then parseIndexAssignment r name
  else if tok.type = .char '.' then .property name <$> parseIdent mark r n
  else if tok.type = .char '(' then .call name <$> Prod.fst <$> parseCall mark r n
  else if tok.type = .char '=' then .assign name <$> r.expression
  else
    assert (tok.value = utf8 "+=") tok
      (utf8 "Unexpected token " ++ tok.string ++ utf8 ", expected one of , [ . ( = +=")
    .augAssign name <$> r.expression

/-- `parseIdentStatement`. -/
def parseIdentStatement : Parse σ (IdentStatement P) := do
  let tok ← next .ident
  assert (!keywords.contains tok.value) tok
    (utf8 "Cannot operate on keyword or constant " ++ tok.value)
  if (← peek).type = .eol then return .bare tok.value
  else
    let action ← advance
    parseIdentAction mark r n tok.value action

/-- `return` and its values (lines 177–178 and 216–224). -/
def parseReturn (tok : Token) : Parse σ (Body P) := do
  consume tok
  .return_ <$> commaSeparated (fun tok => tok.type ≠ .eol) (fun _ => r.expression) n []

/-- The default value of an argument (line 312). -/
def parseDefault (name : Bytes) (types aliases : List Bytes) : Parse σ (Node P .argument) := do
  let value ← r.expression
  return .argument name types aliases (.present value) (isPrivateName name)

/-- The token ends an argument. -/
def endsArgument (tok : Token) : Bool := tok.type = .char ',' ∨ tok.type = .char ')'

/-- The aliases of an argument and its default value, after an `&` (lines 298–312). -/
def parseAliases (name : Bytes) (types : List Bytes) : Parse σ (Node P .argument) := do
  let aliases ← separatedBy (.char '&') (Token.value <$> next .ident) n
  if endsArgument (← peek) then
    return .argument name types aliases .absent (isPrivateName name)
  else
    let _ ← next (.char '=')
    parseDefault r name types aliases

/-- `parseArgument`. -/
def parseArgument : Parse σ (Node P .argument) := do
  let name ← Token.value <$> next .ident
  if endsArgument (← peek) then return .argument name [] [] .absent (isPrivateName name)
  else
    let tok ← oneof [.char ':', .char '&', .char '=']
    if tok.type = .char ':' then
      let types ← separatedBy (.char '|') (Token.value <$> oneofval argumentTypeNames) n
      if endsArgument (← peek) then
        return .argument name types [] .absent (isPrivateName name)
      else
        let tok ← oneof [.char '&', .char '=']
        if tok.type = .char '&' then parseAliases r n name types
        else parseDefault r name types []
    else if tok.type = .char '&' then parseAliases r n name []
    else parseDefault r name [] []

/-- The return type of a function (lines 245–251). -/
def parseReturnType : Parse σ Bytes := do
  let tok ← peek
  if tok.value = utf8 "-" then
    let _ ← next (.char '-')
    let _ ← next (.char '>')
    Token.value <$> oneofval knownTypeNames
  else return []

/-- The header of a function definition (lines 227–256): the name, the arguments, the return
type, and where the header ends. -/
def parseFuncHeader : Parse σ (Bytes × List (Node P .argument) × Bytes × ℕ) := do
  let _ ← nextv (utf8 "def")
  let name ← Token.value <$> next .ident
  let _ ← next (.char '(')
  let arguments ← commaSeparated (fun tok => tok.type ≠ .char ')') (fun _ => parseArgument r n) n []
  let _ ← next (.char ')')
  let ret ← parseReturnType
  let colon ← next (.char ':')
  let _ ← next .eol
  return (name, arguments, ret, colon.pos)

/-- The docstring a function may start with (lines 257–262). -/
def parseDocstring : Parse σ Bytes := do
  let tok ← peek
  if tok.type = .string then
    consume tok
    let _ ← next .eol
    return tok.value
  else return []

/-- The header of an `if` or `elif` clause: where it starts and ends, and the condition. -/
def parseCondition (keyword : Bytes) : Parse σ (ℕ × ℕ × Expression P) := do
  let tok ← nextv keyword
  let condition ← r.expression
  let colon ← next (.char ':')
  let _ ← next .eol
  return (tok.pos, colon.endPos, condition)

/-- The header of an `else` clause: where it starts and ends. -/
def parseElseHeader : Parse σ (ℕ × ℕ) := do
  let tok ← nextv (utf8 "else")
  let colon ← next (.char ':')
  let _ ← next .eol
  return (tok.pos, colon.endPos)

/-- The header of a `for` statement. -/
def parseForHeader : Parse σ (List Bytes × Expression P) := do
  let _ ← nextv (utf8 "for")
  let names ← parseIdentList n
  let _ ← nextv (utf8 "in")
  let expr ← r.expression
  let _ ← next (.char ':')
  let _ ← next .eol
  return (names, expr)

/-- A call with another value of `inFor` (lines 166–175). -/
def withInFor {α : Type} (inFor : Bool) (m : Parse σ α) : Parse σ α := do
  let before ← getInFor
  setInFor inFor
  let a ← m
  setInFor before
  return a

/-- `pass`, `continue` or `break` (lines 152–165). -/
def parseKeyword (tok : Token) (body : Body P) : Parse σ (Body P) := do
  consume tok
  return body

/-- `continue` or `break`, which must be in a loop. -/
def parseLoopKeyword (tok : Token) (message : Bytes) (body : Body P) : Parse σ (Body P) := do
  let inFor ← getInFor
  assert inFor tok message
  parseKeyword tok body

/-- `raise` (lines 180–182). -/
def parseRaise : Parse σ (Body P) := do
  let _ ← advance
  .raise <$> r.expression

/-- `assert` (lines 184–192). -/
def parseAssert : Parse σ (Body P) := do
  let _ ← advance
  let expr ← r.expression
  let message ← optionally (optional (.char ',')) r.expression
  return .assert expr message

/-- A statement that starts with no keyword (lines 195–199). -/
def parseIdentOrLiteral (tok : Token) : Parse σ (Body P) :=
  if tok.type = .ident then .ident <$> parseIdentStatement mark r n
  else .literal <$> r.expression

/-- A statement without a block, up to the end of its line. -/
def parseSimple (tok : Token) : Parse σ (Body P) :=
  if tok.value = utf8 "pass" then parseKeyword tok .pass
  else if tok.value = utf8 "continue" then
    parseLoopKeyword tok (utf8 "'continue' outside loop") .continue_
  else if tok.value = utf8 "break" then
    parseLoopKeyword tok (utf8 "'break' outside loop") .break_
  else if tok.value = utf8 "return" then parseReturn r n tok
  else if tok.value = utf8 "raise" then parseRaise r
  else if tok.value = utf8 "assert" then parseAssert r
  else parseIdentOrLiteral mark r n tok

/-! In the rest, `block` is `parseStatements`. -/

variable (block : Parse σ (List (Statement P)))

/-- `parseFuncDef`. -/
def parseFuncDef : Parse σ (Body P) := do
  let (name, arguments, ret, eoDef) ← parseFuncHeader r n
  let docstring ← parseDocstring
  let statements ← block
  return .funcDef name arguments docstring statements eoDef ret (isPrivateName name)

/-- An `if` or `elif` clause. -/
def parseClause (keyword : Bytes) : Parse σ (Clause P) := do
  let (headerPos, headerEndPos, condition) ← parseCondition r keyword
  let statements ← block
  return .mk headerPos headerEndPos condition statements

/-- `parseIf`. -/
def parseIf : Parse σ (Body P) := do
  let first ← parseClause r block (utf8 "if")
  let elif ← repeatWhile (fun tok => tok.value = utf8 "elif") (parseClause r block (utf8 "elif")) n
  if (← peek).value = utf8 "else" then
    let (headerPos, headerEndPos) ← parseElseHeader
    let statements ← block
    return .if_ first elif headerPos headerEndPos statements
  else return .if_ first elif 0 0 []

/-- `parseFor`. -/
def parseFor : Parse σ (Body P) := do
  let (names, expr) ← parseForHeader r n
  let statements ← block
  return .for_ names expr statements

/-- A statement that starts with `tok`, and the end of its line if it has no block. -/
def parseBody (tok : Token) : Parse σ (Body P) := do
  if tok.value = utf8 "def" then withInFor false (parseFuncDef r n block)
  else if tok.value = utf8 "for" then withInFor true (parseFor r n block)
  else if tok.value = utf8 "if" then parseIf r n block
  else
    let body ← parseSimple mark r n tok
    let _ ← next .eol
    return body

/-- `parseStatement`. -/
def parseStatement : Parse σ (Statement P) := do
  let tok ← peek
  let body ← parseBody mark r n block tok
  let endPos ← getEndPos
  return .mk tok.pos endPos body

end expressions

section files

variable {σ : Type} [TokenSource σ] {P : Type} (mark : ℕ → P)

/-- `parseStatements`. -/
def parseStatements : ℕ → Parse σ (List (Statement P))
  | 0 => raise .outOfFuel
  | n + 1 => do
    if ← anythingBut .unindent then
      let stmt ← parseStatement mark (recursive mark n) n (parseStatements n)
      let stmts ← parseStatements n
      return stmt :: stmts
    else
      let _ ← next .unindent
      return []

/-- The loop of `parseFileInput` (lines 68–70). -/
def parseFile : ℕ → Parse σ (List (Statement P))
  | 0 => raise .outOfFuel
  | n + 1 => do
    if ← anythingBut .eof then
      let stmt ← parseStatement mark (recursive mark n) n (parseStatements mark n)
      let stmts ← parseFile n
      return stmt :: stmts
    else return []

/-- `parseFileInput`, with the parser's recursion and loops bounded by `n`. -/
def parseFileInput [Unicode] (n : ℕ) (b : Bytes) : Except Error (List (Statement P)) := do
  let l ← newLexer b
  let (stmts, _) ← parseFile mark n { l, endPos := 0, inFor := false }
  return stmts

end files

/-! ## Computations that succeed -/

theorem Parse.bind_eq_ok {σ α γ : Type} {m : Parse σ α} {k : α → Parse σ γ} {p q : Parser σ}
    {c : γ} : (m >>= k) p = .ok (c, q) ↔ ∃ a p₁, m p = .ok (a, p₁) ∧ k a p₁ = .ok (c, q) := by
  constructor
  · intro h
    obtain ⟨⟨a, p₁⟩, hm, hk⟩ := Lib.Except.bind_eq_ok.mp h
    exact ⟨a, p₁, hm, hk⟩
  · rintro ⟨a, p₁, hm, hk⟩
    exact Lib.Except.bind_eq_ok.mpr ⟨(a, p₁), hm, hk⟩

theorem Parse.map_eq_ok {σ α γ : Type} {m : Parse σ α} {f : α → γ} {p q : Parser σ} {c : γ} :
    (f <$> m) p = .ok (c, q) ↔ ∃ a, m p = .ok (a, q) ∧ f a = c := by
  constructor
  · intro h
    obtain ⟨⟨a, p₁⟩, hm, heq⟩ := Lib.Except.bind_eq_ok.mp h
    cases heq
    exact ⟨a, hm, rfl⟩
  · rintro ⟨a, hm, rfl⟩
    exact Lib.Except.bind_eq_ok.mpr ⟨(a, q), hm, rfl⟩

theorem peek_eq_ok {σ : Type} [TokenSource σ] {p q : Parser σ} {t : Token} :
    peek p = .ok (t, q) ↔ TokenSource.peek p.l = .ok t ∧ q = p := by
  constructor
  · intro h
    obtain ⟨t₁, ht, heq⟩ := Lib.Except.bind_eq_ok.mp h
    cases heq
    exact ⟨ht, rfl⟩
  · rintro ⟨ht, rfl⟩
    exact Lib.Except.bind_eq_ok.mpr ⟨t, ht, rfl⟩

end Please.Asp.Syntax
