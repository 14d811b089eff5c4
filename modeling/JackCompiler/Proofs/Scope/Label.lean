import JackCompiler.Scope

/-!
# Labels

Different numbers give different labels, and so do subroutines of different names in one class,
whatever the names are made of.
-/

set_option autoImplicit false

namespace JackCompiler

/-- A decimal numeral determines its number. -/
theorem toString_nat_inj {m n : Nat} (h : toString m = toString n) : m = n := by
  rw [Nat.toString_eq_ofList_toDigits, Nat.toString_eq_ofList_toDigits] at h
  have digits : Nat.toDigits 10 m = Nat.toDigits 10 n := by
    have lists := congrArg String.toList h
    rwa [String.toList_ofList, String.toList_ofList] at lists
  have value := congrArg (fun digits => Nat.ofDigitChars 10 digits 0) digits
  rwa [Nat.ofDigitChars_toDigits (by decide) (by decide),
    Nat.ofDigitChars_toDigits (by decide) (by decide)] at value

/-- The label of a scope determines its number. -/
theorem Scope.label_inj {scope : Scope} {m n : Nat} (h : scope.label m = scope.label n) :
    m = n := by
  obtain ⟨inner, outer⟩ := scope
  cases outer with
  | nil => exact toString_nat_inj ((String.append_right_inj _).mp h)
  | cons level outer => exact toString_nat_inj ((String.append_right_inj _).mp h)

/-- What stands in front of the last one of some separators is determined. -/
theorem append_cons_inj {α : Type} {x : α} {front front' behind behind' : List α}
    (absent : x ∉ behind) (absent' : x ∉ behind')
    (eq : front ++ x :: behind = front' ++ x :: behind') : front = front' ∧ behind = behind' := by
  rcases List.append_eq_append_iff.mp eq with ⟨between, rfl, rest⟩ | ⟨between, rfl, rest⟩
  · cases between with
    | nil => simpa using rest
    | cons y between =>
      rw [List.cons_append, List.cons.injEq] at rest
      rw [rest.2] at absent
      exact absurd (List.mem_append_right between List.mem_cons_self) absent
  · cases between with
    | nil => simpa [eq_comm] using rest
    | cons y between =>
      rw [List.cons_append, List.cons.injEq] at rest
      rw [rest.2] at absent'
      exact absurd (List.mem_append_right between List.mem_cons_self) absent'

theorem underscore_notMem_toString (n : Nat) : '_' ∉ (toString n).toList := by
  rw [Nat.toString_eq_ofList_toDigits, String.toList_ofList]
  intro among
  have digit := Nat.isDigit_of_mem_toDigits (by decide) (by decide) among
  cases digit

/-- The label of a subroutine determines the name of the subroutine and the number. -/
theorem subroutineLabel_inj {className name other : String} {m n : Nat}
    (same : s!"{className}_{name}_{m}" = s!"{className}_{other}_{n}") : name = other ∧ m = n := by
  have lists : className.toList ++ ('_' :: (name.toList ++ '_' :: (toString m).toList)) =
      className.toList ++ ('_' :: (other.toList ++ '_' :: (toString n).toList)) := by
    have chars := congrArg String.toList same
    simpa [toString, String.toList_append] using chars
  rw [List.append_cancel_left_eq, List.cons.injEq] at lists
  obtain ⟨names, numbers⟩ := append_cons_inj (underscore_notMem_toString m)
    (underscore_notMem_toString n) lists.2
  exact ⟨String.toList_inj.mp names, toString_nat_inj (String.toList_inj.mp numbers)⟩

end JackCompiler
