/-!
# Comments

A line comment runs from `//` up to the next newline, which stays. A block comment runs from `/*`
through the first `*/` behind those two characters, or to the end of the text; it leaves its
newlines, so that line numbers stay in place, and then one blank, so that the tokens around it
stay apart. Comment marks inside a string mean nothing; a string runs from a double quote to the
next double quote or newline.
-/

set_option autoImplicit false

namespace JackCompiler

/-- Where in a text the reader is. -/
inductive Region where
  | code
  | string
  | lineComment
  | blockComment
  deriving DecidableEq, Repr

/-- What remains of a text without its comments, when reading starts in a given region. -/
def stripFrom : Region → List Char → List Char
  | .code, '/' :: '/' :: rest => stripFrom .lineComment rest
  | .code, '/' :: '*' :: rest => stripFrom .blockComment rest
  | .code, '"' :: rest => '"' :: stripFrom .string rest
  | .code, c :: rest => c :: stripFrom .code rest
  | .string, c :: rest =>
    c :: stripFrom (if c = '"' ∨ c = '\n' then .code else .string) rest
  | .lineComment, '\n' :: rest => '\n' :: stripFrom .code rest
  | .lineComment, _ :: rest => stripFrom .lineComment rest
  | .blockComment, '*' :: '/' :: rest => ' ' :: stripFrom .code rest
  | .blockComment, '\n' :: rest => '\n' :: stripFrom .blockComment rest
  | .blockComment, _ :: rest => stripFrom .blockComment rest
  | .blockComment, [] => [' ']
  | _, [] => []

/-- A source text without its comments. -/
def stripComments (source : String) : String :=
  String.ofList (stripFrom .code source.toList)

example : stripComments "a/*/b\n*/c // d\n\"// e\"" = "a\n c \n\"// e\"" := by decide +kernel

end JackCompiler
