/-!
# What a terminal would show

A log may hold text that would steer a terminal: control characters and escape sequences.
`visibleText` takes them out. Escape sequences are recognised as terminals do: an escape character
opens a sequence, a bracket makes it a control sequence that runs through its final character, and
some openings begin a string that runs up to its terminator. White space among the control
characters is kept, inside a sequence too; text behind it is then shown until the next control
character, where the sequence goes on.
-/

set_option autoImplicit false

namespace JackCompiler

/-- How far an escape sequence has been read. -/
inductive EscapeState where
  /-- Outside of escape sequences. -/
  | ground
  /-- Behind the escape character. -/
  | escape
  /-- In an escape sequence with characters before its final one. -/
  | intermediate
  /-- In a control sequence. -/
  | control
  /-- At the beginning of a device control string. -/
  | deviceEntry
  /-- In the parameters of a device control string. -/
  | deviceParameters
  /-- Behind the parameters of a device control string. -/
  | deviceIntermediate
  /-- In a string that is passed over up to its terminator. -/
  | string
  /-- In an operating system command. -/
  | command
  deriving DecidableEq, Repr

/-- White space among the ASCII characters, without the vertical tab. -/
def isAsciiSpace (c : Char) : Bool :=
  c = ' ' || c = '\t' || c = '\n' || c = '\x0C' || c = '\r'

namespace EscapeState

/-- The state behind an ASCII character, which is no control character and not the last one of the
ASCII set, in each of the states. -/
def afterPrintable (state : EscapeState) (c : Char) : EscapeState :=
  match state with
  | ground => ground
  | escape =>
    if c < '0' then intermediate
    else if c = '[' then control
    else if c = ']' then command
    else if c = 'P' then deviceEntry
    else if c = 'X' ∨ c = '^' ∨ c = '_' then string
    else ground
  | intermediate => if c < '0' then intermediate else ground
  | control => if c < '@' then control else ground
  | deviceEntry =>
    if c < '0' then deviceIntermediate
    else if c < '@' then deviceParameters
    else string
  | deviceParameters =>
    if c < '0' then deviceIntermediate
    else if c < '<' then deviceParameters
    else string
  | deviceIntermediate => if c < '0' then deviceIntermediate else string
  | string => string
  | command => command

/-- The state behind any ASCII character. -/
def afterAscii (state : EscapeState) (c : Char) : EscapeState :=
  if c = '\x1B' then escape
  else if c = '\x18' ∨ c = '\x1A' then ground
  else if c = '\x07' ∧ state = command then ground
  else if c < ' ' ∨ c = '\x7F' then state
  else state.afterPrintable c

/-- Whether an ASCII character is shown in a state: text outside of sequences, and white space where
control characters have an effect. -/
def shows (state : EscapeState) (c : Char) : Bool :=
  match state with
  | ground => isAsciiSpace c || (' ' ≤ c && c < '\x7F')
  | escape => c < ' ' && isAsciiSpace c
  | intermediate => c < ' ' && isAsciiSpace c
  | control => c < ' ' && isAsciiSpace c
  | _ => false

/-- The state behind a character beyond ASCII. Such a character is passed over in a sequence, but a
string ends in it if one of its bytes is the string terminator. -/
def afterWide (state : EscapeState) (c : Char) : EscapeState :=
  if state = string ∧ c.toString.toUTF8.toList.contains 0x9C then ground else state

end EscapeState

/-- What is shown of a text, in a state. While text is `shown`, the state of a sequence that white
space stands in is kept for the next control character. -/
def visibleFrom (shown : Bool) (state : EscapeState) : List Char → List Char
  | [] => []
  | c :: rest =>
    if '\x7F' < c then
      if shown ∨ state = .ground then c :: visibleFrom true .ground rest
      else visibleFrom false (state.afterWide c) rest
    else if shown ∧ EscapeState.shows .ground c then c :: visibleFrom true state rest
    else
      let next := state.afterAscii c
      if state.shows c then c :: visibleFrom true next rest else visibleFrom false next rest

/-- What is shown of a text. -/
def visibleText (text : String) : String :=
  String.ofList (visibleFrom false .ground text.toList)

example : visibleText "a\x1B[1;31mé\x1B]0;t\x07z\x1B.xt\x07\n" = "aézt\n" := by decide +kernel

end JackCompiler
