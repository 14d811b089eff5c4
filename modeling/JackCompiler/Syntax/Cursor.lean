import JackCompiler.Token.Basic

/-!
# Reading positions

A cursor is a position in a list of tokens together with what lies ahead of it. A parser takes a
cursor and gives back another one, so going back is nothing but keeping the old one.
-/

set_option autoImplicit false

namespace JackCompiler

/-- A reading position: how many tokens lie behind, and which ones lie ahead. -/
structure Cursor where
  position : Nat
  ahead : List Token
  deriving DecidableEq, Repr

namespace Cursor

/-- The position before the first token. -/
def start (tokens : List Token) : Cursor := ⟨0, tokens⟩

/-- The next token. -/
def peek? (cursor : Cursor) : Option Token := cursor.ahead.head?

/-- Whether no token is left. -/
def atEnd (cursor : Cursor) : Bool := cursor.ahead.isEmpty

/-- The position behind the next token; at the end a cursor stays where it is. -/
def advance (cursor : Cursor) : Cursor :=
  match cursor.ahead with
  | [] => cursor
  | _ :: rest => ⟨cursor.position + 1, rest⟩

end Cursor

end JackCompiler
