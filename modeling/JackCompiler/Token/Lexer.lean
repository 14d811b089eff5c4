import JackCompiler.Text.Blank
import JackCompiler.Text.Decimal
import JackCompiler.Text.Line
import JackCompiler.Token.Comment
import JackCompiler.Logged

/-!
# Tokens of a text

A line is cut into lexemes, and each lexeme is classified. A lexeme is a symbol, or runs from a
double quote through the next one (or to the end of the line), or is a longest run of characters
that are neither blank nor symbol nor quote. Cutting never fails; the first lexeme that belongs to
no class is the error.
-/

set_option autoImplicit false

namespace JackCompiler

/-- A character that can stand in a lexeme other than a symbol or a string. -/
def isWordChar (c : Char) : Bool := !isBlank c && !isSymbol c && c != '"'

/-- Cuts a text behind its first double quote; without one, behind its end. -/
def cutBehindQuote : List Char → List Char × List Char
  | [] => ([], [])
  | c :: rest =>
    if c = '"' then ([c], rest)
    else (c :: (cutBehindQuote rest).1, (cutBehindQuote rest).2)

/-- Cutting loses nothing. -/
theorem cutBehindQuote_append (text : List Char) :
    (cutBehindQuote text).1 ++ (cutBehindQuote text).2 = text := by
  induction text with
  | nil => rfl
  | cons c rest ih => by_cases h : c = '"' <;> simp [cutBehindQuote, h, ih]

/-- What follows the quote is no longer than the text. -/
theorem length_cutBehindQuote_le (text : List Char) :
    (cutBehindQuote text).2.length ≤ text.length := by
  have h := congrArg List.length (cutBehindQuote_append text)
  rw [List.length_append] at h
  omega

/-- What follows a longest run is no longer than the text. -/
theorem length_dropWhile_le (p : Char → Bool) (text : List Char) :
    (text.dropWhile p).length ≤ text.length :=
  (List.dropWhile_sublist p).length_le

/-- The lexemes of a line, in order. -/
def lexemes : List Char → List (List Char)
  | [] => []
  | c :: rest =>
    if isBlank c then lexemes rest
    else if isSymbol c then [c] :: lexemes rest
    else if c = '"' then (c :: (cutBehindQuote rest).1) :: lexemes (cutBehindQuote rest).2
    else (c :: rest.takeWhile isWordChar) :: lexemes (rest.dropWhile isWordChar)
termination_by text => text.length
decreasing_by
  · simp
  · simp
  · exact Nat.lt_succ_of_le (length_cutBehindQuote_le rest)
  · exact Nat.lt_succ_of_le (length_dropWhile_le isWordChar rest)

/-- Whether a lexeme is a double quote, characters other than quote and newline, and a double
quote. -/
def isStringConstant : List Char → Bool
  | '"' :: rest =>
    rest.getLast? = some '"' && rest.dropLast.all fun c => c != '"' && c != '\n'
  | _ => false

/-- A letter of the ASCII alphabet or an underscore. -/
def startsIdentifier (c : Char) : Bool := c.isAlpha || c = '_'

/-- Whether a lexeme is a letter or underscore followed by letters, underscores and digits, all of
them ASCII. -/
def isIdentifier : List Char → Bool
  | [] => false
  | c :: rest => startsIdentifier c && rest.all fun c => startsIdentifier c || c.isDigit

/-- The class of a lexeme, or why it has none. The classes are tried in this order: keyword,
symbol, integer constant, string constant, identifier. -/
def classOf (lexeme : List Char) : Except LexicalFlaw TokenKind :=
  if keywords.contains (String.ofList lexeme) then .ok .keyword
  else if symbols.any fun c => lexeme = [c] then .ok .symbol
  else if lexeme.all Char.isDigit then
    if decimalValue lexeme ≤ maxIntegerConstant then .ok .integerConstant
    else .error .integerTooLarge
  else if lexeme.head? = some '"' then
    if isStringConstant lexeme then .ok .stringConstant else .error .unterminatedString
  else if isIdentifier lexeme then .ok .identifier
  else .error .unrecognized

/-- The token that a lexeme on a line stands for. -/
def classify (line : Nat) (lexeme : List Char) : Except CompileError Token :=
  match classOf lexeme with
  | .ok kind => .ok ⟨kind, String.ofList lexeme, line⟩
  | .error flaw => .error (.invalidToken line (String.ofList lexeme) flaw)

/-- The tokens of one line without comments. -/
def tokenizeLine (line : Nat) (text : List Char) : Except CompileError (List Token) :=
  (lexemes text).mapM (classify line)

/-- The tokens of consecutive lines, the first of which has a given number. -/
def tokenizeLines (first : Nat) : List (List Char) → Except CompileError (List Token)
  | [] => .ok []
  | text :: later => do
    let tokens ← tokenizeLine first text
    let more ← tokenizeLines (first + 1) later
    pure (tokens ++ more)

/-- The tokens of a source text. -/
def tokenize (source : String) : Logged CompileError (List Token) := do
  let tokens ← tokenizeLines 1 (lines (stripFrom .code source.toList))
  Logged.report (.tokenized tokens.length)
  pure tokens

end JackCompiler
