import JackCompiler.Syntax.Tree

/-!
# Markup of a syntax tree

A tree is written as nested tags. A node has its opening and its closing tag on lines of their own
and its parts between them, two blanks deeper; a leaf is one line with its text between two
blanks. A string constant is written without its quotes. The characters `&`, `<`, `>` and the
double quote are escaped.
-/

set_option autoImplicit false

namespace JackCompiler

/-- A character as it stands in markup. -/
def escapeChar : Char → String
  | '<' => "&lt;"
  | '>' => "&gt;"
  | '&' => "&amp;"
  | '"' => "&quot;"
  | c => c.toString

/-- A text as it stands in markup. -/
def escapeText (text : String) : String := String.join (text.toList.map escapeChar)

/-- The blanks at the beginning of a line. -/
def indentation (depth : Nat) : String := String.ofList (List.replicate (2 * depth) ' ')

namespace Tree

mutual

/-- The markup of a tree at some depth. -/
def markupAt (depth : Nat) : Tree → String
  | leaf token =>
    s!"{indentation depth}<{token.kind.tag}> {escapeText token.stringValue} </{token.kind.tag}>\n"
  | node rule children =>
    s!"{indentation depth}<{rule.name}>\n" ++ markupOfList (depth + 1) children ++
      s!"{indentation depth}</{rule.name}>\n"

/-- The markup of consecutive trees at some depth. -/
def markupOfList (depth : Nat) : List Tree → String
  | [] => ""
  | tree :: later => markupAt depth tree ++ markupOfList depth later

end

/-- The markup of a tree. -/
def markup (tree : Tree) : String := tree.markupAt 0

end Tree

end JackCompiler
