/-!
# Lines of a text

A line ends at a newline, and one carriage return directly before that newline belongs to the line
end as well. Text after the last newline is a line of its own unless it is empty; a carriage
return at its end is an ordinary character.
-/

set_option autoImplicit false

namespace JackCompiler

/-- The lines of a text, without their line ends. -/
def lines : List Char → List (List Char)
  | [] => []
  | '\n' :: rest => [] :: lines rest
  | '\r' :: '\n' :: rest => [] :: lines rest
  | c :: rest =>
    match lines rest with
    | [] => [[c]]
    | line :: later => (c :: line) :: later

example : lines "a\r\n\nb\r".toList = ["a".toList, [], "b\r".toList] := by decide

example : lines "a\r\r\nb\n".toList = ["a\r".toList, "b".toList] := by decide

end JackCompiler
