/-!
# Decimal numerals

The value of a run of decimal digits. Leading zeros are allowed and there is no bound.
-/

set_option autoImplicit false

namespace JackCompiler

/-- The value of a decimal digit. -/
def digitValue (c : Char) : Nat := c.toNat - '0'.toNat

/-- The value of a run of decimal digits. -/
def decimalValue (digits : List Char) : Nat :=
  digits.foldl (fun value c => 10 * value + digitValue c) 0

/-- A further digit moves the others one place up. -/
theorem decimalValue_concat (digits : List Char) (c : Char) :
    decimalValue (digits ++ [c]) = 10 * decimalValue digits + digitValue c := by
  simp [decimalValue]

/-- The number that a text denotes as a machine word of sixteen bits: decimal digits, possibly
behind one plus sign, with a value that fits. -/
def wordValue? (text : List Char) : Option Nat :=
  let digits :=
    match text with
    | '+' :: rest => rest
    | _ => text
  if digits ≠ [] ∧ digits.all Char.isDigit ∧ decimalValue digits ≤ 65535 then
    some (decimalValue digits)
  else none

example : wordValue? "+007".toList = some 7 ∧ wordValue? "65536".toList = none
    ∧ wordValue? "+".toList = none := by decide +kernel

end JackCompiler
