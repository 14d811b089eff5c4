import JackCompiler.Logged

/-!
# Outcomes of computations

The outcome of each way to build a computation, for those that report events with the events set
aside: when it ends with a value, and when with an error.
-/

set_option autoImplicit false

namespace JackCompiler

/-! ## Plain computations -/

section Except

variable {ε α β : Type} {x : Except ε α} {f : α → Except ε β}

instance decidableEqExcept [DecidableEq ε] [DecidableEq α] : DecidableEq (Except ε α)
  | .ok a, .ok b => decidable_of_iff (a = b) (by rw [Except.ok.injEq])
  | .error first, .error second => decidable_of_iff (first = second) (by rw [Except.error.injEq])
  | .ok _, .error _ => isFalse nofun
  | .error _, .ok _ => isFalse nofun

theorem except_bind_eq_ok {b : β} : (x >>= f) = .ok b ↔ ∃ a, x = .ok a ∧ f a = .ok b := by
  cases x with
  | error error => simp [bind, Except.bind]
  | ok a => simp [bind, Except.bind]

theorem except_bind_eq_error {error : ε} :
    (x >>= f) = .error error ↔ x = .error error ∨ ∃ a, x = .ok a ∧ f a = .error error := by
  cases x with
  | error error => simp [bind, Except.bind]
  | ok a => simp [bind, Except.bind]

/-- Computations none of which fails have values. -/
theorem exists_map_eq_map_ok {list : List α} (each : ∀ a ∈ list, ∃ b, f a = .ok b) :
    ∃ found : List β, list.map f = found.map .ok := by
  induction list with
  | nil => exact ⟨[], rfl⟩
  | cons a later ih =>
    rw [List.forall_mem_cons] at each
    obtain ⟨b, here⟩ := each.1
    obtain ⟨found, there⟩ := ih each.2
    exact ⟨b :: found, by rw [List.map_cons, List.map_cons, here, there]⟩

/-- A sequence of computations fails at one of them, and those in front of it end with values. -/
theorem exists_of_mapM_eq_error {list : List α} {error : ε} (h : list.mapM f = .error error) :
    ∃ before part after results, list = before ++ part :: after ∧
      before.mapM f = .ok results ∧ f part = .error error := by
  induction list with
  | nil => cases h
  | cons part later ih =>
    rw [List.mapM_cons, except_bind_eq_error] at h
    rcases h with here | ⟨result, one, h⟩
    · exact ⟨[], part, later, [], rfl, rfl, here⟩
    · rw [except_bind_eq_error] at h
      rcases h with there | ⟨results, -, h⟩
      · obtain ⟨before, part', after, results, rfl, ok, fails⟩ := ih there
        refine ⟨part :: before, part', after, result :: results, rfl, ?_, fails⟩
        rw [List.mapM_cons, one, ok]
        rfl
      · cases h

end Except

/-! ## Computations that report events -/

namespace Logged

variable {ε α β : Type}

@[simp] theorem result_attempt (x : Logged ε α) : x.attempt.result = .ok x.result := rfl

@[simp] theorem result_fail (error : ε) :
    (Logged.fail error : Logged ε α).result = .error error := rfl

@[simp] theorem result_report (event : Event) :
    (Logged.report event : Logged ε Unit).result = .ok () := rfl

@[simp] theorem result_ofExcept (x : Except ε α) : (ofExcept x).result = x := rfl

@[simp] theorem result_liftM (x : Except ε α) : (liftM x : Logged ε α).result = x := rfl

theorem result_pure_eq_ok {a b : α} : (pure a : Logged ε α).result = .ok b ↔ b = a := by
  rw [result_pure, Except.ok.injEq, eq_comm]

/-- A sequence ends with a value exactly if both of its steps do. -/
theorem result_bind_eq_ok {x : Logged ε α} {f : α → Logged ε β} {b : β} :
    (x >>= f).result = .ok b ↔ ∃ a, x.result = .ok a ∧ (f a).result = .ok b := by
  rw [result_bind, except_bind_eq_ok]

/-- A sequence ends with an error if its first step does, or else its second one. -/
theorem result_bind_eq_error {x : Logged ε α} {f : α → Logged ε β} {error : ε} :
    (x >>= f).result = .error error ↔
      x.result = .error error ∨ ∃ a, x.result = .ok a ∧ (f a).result = .error error := by
  rw [result_bind, except_bind_eq_error]

end Logged

end JackCompiler
