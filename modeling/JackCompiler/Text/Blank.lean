/-!
# Blank characters

The characters that separate tokens: those with the Unicode property `White_Space`. The set is
wider than the blanks of core's `Char.isWhitespace`, which knows ASCII only, and
`isBlank_of_isWhitespace` says that it contains them.
-/

set_option autoImplicit false

namespace JackCompiler

/-- A character with the Unicode property `White_Space`. -/
def isBlank (c : Char) : Bool :=
  let code := c.toNat
  (9 ≤ code && code ≤ 13) || code = 0x20 || code = 0x85 || code = 0xA0 || code = 0x1680
    || (0x2000 ≤ code && code ≤ 0x200A) || code = 0x2028 || code = 0x2029 || code = 0x202F
    || code = 0x205F || code = 0x3000

/-- Every blank of core is a blank here. -/
theorem isBlank_of_isWhitespace {c : Char} (h : c.isWhitespace = true) : isBlank c = true := by
  simp only [Char.isWhitespace, Bool.or_eq_true, decide_eq_true_eq] at h
  rcases h with (((rfl | rfl) | rfl) | rfl) <;> decide

example : ([0x0B, 0x85, 0xA0, 0x2003, 0x2029, 0x3000].map Char.ofNat).all isBlank
    ∧ ¬ ([0x08, 0x0E, 0x180E, 0x200B, 0x2060, 0xFEFF].map Char.ofNat).any isBlank := by decide

end JackCompiler
