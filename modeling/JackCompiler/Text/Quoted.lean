import JackCompiler.Text.Hidden

/-!
# Quoted text

A text in double quotes, as messages show a path whose exact characters matter. Double quotes and
backslashes are escaped, and so is every character that does not show by itself.
-/

set_option autoImplicit false

namespace JackCompiler

/-- A character as it stands in quoted text. -/
def quotedChar (c : Char) : String :=
  match c with
  | '\x00' => "\\0"
  | '\t' => "\\t"
  | '\r' => "\\r"
  | '\n' => "\\n"
  | '\\' => "\\\\"
  | '"' => "\\\""
  | _ =>
    if isHidden c then
      "\\u\x7b" ++ String.ofList (Nat.toDigits 16 c.toNat) ++ "\x7d"
    else c.toString

/-- A text in double quotes. -/
def quoted (text : String) : String :=
  "\"" ++ String.join (text.toList.map quotedChar) ++ "\""

example : quoted "a\"'é\u0301" = "\"a\\\"'é\\u\x7b301\x7d\"" := by decide +kernel

end JackCompiler
