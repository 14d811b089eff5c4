/-!
# Processes and their traces

A process goes on from a state in at most one way, either silently or with a visible event. A run
collects the events on its way.

A process `system` implements a process `model`, every step of which is visible, if it answers each
step of the model by a run with the same event, and stops where the model stops. Then both have the
same traces (`Simulates.trace_iff`) and stop behind the same traces (`Simulates.exists_stop`,
`Simulates.exists_stop_of_stop`). Nothing has to be shown of single steps of the implementation,
since it has no choice.
-/

set_option autoImplicit false

namespace JackCompiler

/-- A deterministic process with silent steps and visible ones. -/
structure Process (State Event : Type) where
  step : State → Option (Option Event × State)

namespace Process

variable {State State' Event : Type}

/-- Whether a process can go from one state to another with these events on the way. -/
inductive Run (process : Process State Event) : State → List Event → State → Prop
  | nil (state : State) : Run process state [] state
  | silent {first middle last : State} {trace : List Event}
      (step : process.step first = some (none, middle)) (run : Run process middle trace last) :
      Run process first trace last
  | event {first middle last : State} {trace : List Event} {event : Event}
      (step : process.step first = some (some event, middle))
      (run : Run process middle trace last) : Run process first (event :: trace) last

namespace Run

variable {process : Process State Event} {first middle last : State}
  {trace later : List Event}

theorem append (one : process.Run first trace middle) (two : process.Run middle later last) :
    process.Run first (trace ++ later) last := by
  induction one with
  | nil => exact two
  | silent step _ ih => exact .silent step (ih two)
  | event step _ ih => exact .event step (ih two)

/-- A run can be cut behind each of its events. -/
theorem split (h : process.Run first (trace ++ later) last) :
    ∃ middle, process.Run first trace middle ∧ process.Run middle later last := by
  generalize whole : trace ++ later = events at h
  induction h generalizing trace with
  | nil state =>
    obtain ⟨rfl, rfl⟩ := List.append_eq_nil_iff.mp whole
    exact ⟨state, .nil state, .nil state⟩
  | silent step _ ih =>
    obtain ⟨middle, one, two⟩ := ih whole
    exact ⟨middle, .silent step one, two⟩
  | @event first next last events event step run ih =>
    cases trace with
    | nil =>
      rw [List.nil_append] at whole
      subst whole
      exact ⟨first, .nil first, .event step run⟩
    | cons head trace =>
      rw [List.cons_append, List.cons.injEq] at whole
      obtain ⟨rfl, whole⟩ := whole
      obtain ⟨middle, one, two⟩ := ih whole
      exact ⟨middle, .event step one, two⟩

/-- Of two runs from one state the shorter one is the beginning of the longer one. -/
theorem comparable {last' : State} {trace' : List Event} (one : process.Run first trace last)
    (two : process.Run first trace' last') :
    (∃ later, trace' = trace ++ later ∧ process.Run last later last') ∨
      ∃ later, trace = trace' ++ later ∧ process.Run last' later last := by
  induction one generalizing trace' with
  | nil state => exact .inl ⟨trace', rfl, two⟩
  | silent step run ih =>
    cases two with
    | nil => exact .inr ⟨_, rfl, .silent step run⟩
    | silent step' run' =>
      rw [step, Option.some.injEq, Prod.mk.injEq] at step'
      obtain ⟨-, rfl⟩ := step'
      exact ih run'
    | event step' run' =>
      rw [step] at step'
      cases step'
  | event step run ih =>
    cases two with
    | nil => exact .inr ⟨_, rfl, .event step run⟩
    | silent step' run' =>
      rw [step] at step'
      cases step'
    | event step' run' =>
      rw [step, Option.some.injEq, Prod.mk.injEq, Option.some.injEq] at step'
      obtain ⟨rfl, rfl⟩ := step'
      rcases ih run' with ⟨later, rfl, more⟩ | ⟨later, rfl, more⟩
      · exact .inl ⟨later, rfl, more⟩
      · exact .inr ⟨later, rfl, more⟩

/-- Nothing follows a state without a step. -/
theorem eq_of_stopped (stopped : process.step first = none)
    (h : process.Run first trace last) : trace = [] ∧ last = first := by
  cases h with
  | nil => exact ⟨rfl, rfl⟩
  | silent step _ =>
    rw [stopped] at step
    cases step
  | event step _ =>
    rw [stopped] at step
    cases step

end Run

/-- A relation through which one process implements another one: each step of the model is visible
and is answered by a run, and where the model stops, a run leads to a state without a step that is
as the end should be. -/
structure Simulates (system : Process State Event) (model : Process State' Event)
    (related final : State' → State → Prop) : Prop where
  visible (state next : State') : model.step state ≠ some (none, next)
  answer (state next : State') (event : Event) (here : State) (relates : related state here)
    (step : model.step state = some (some event, next)) :
    ∃ there, system.Run here [event] there ∧ related next there
  stop (state : State') (here : State) (relates : related state here)
    (stopped : model.step state = none) :
    ∃ there, system.Run here [] there ∧ system.step there = none ∧ final state there

namespace Simulates

variable {system : Process State Event} {model : Process State' Event}
  {related final : State' → State → Prop} {start : State'} {here : State} {trace : List Event}

theorem exists_run {last : State'} (simulates : Simulates system model related final)
    (relates : related start here) (run : model.Run start trace last) :
    ∃ there, system.Run here trace there ∧ related last there := by
  induction run generalizing here with
  | nil => exact ⟨here, .nil here, relates⟩
  | silent step _ _ => exact absurd step (simulates.visible _ _)
  | event step _ ih =>
    obtain ⟨middle, one, relates⟩ := simulates.answer _ _ _ here relates step
    obtain ⟨there, others, relates⟩ := ih relates
    exact ⟨there, one.append others, relates⟩

/-- The model has a run with any number of events, unless it stops before. -/
theorem exists_run_of_length (simulates : Simulates system model related final) (start : State')
    (count : Nat) : ∃ trace last, model.Run start trace last ∧
      (trace.length = count ∨ model.step last = none) := by
  induction count generalizing start with
  | zero => exact ⟨[], start, .nil start, .inl rfl⟩
  | succ count ih =>
    cases step : model.step start with
    | none => exact ⟨[], start, .nil start, .inr step⟩
    | some next =>
      obtain ⟨_ | event, next⟩ := next
      · exact absurd step (simulates.visible _ _)
      · obtain ⟨trace, last, run, enough⟩ := ih next
        refine ⟨event :: trace, last, .event step run, ?_⟩
        rcases enough with enough | stopped
        · exact .inl (by rw [List.length_cons, enough])
        · exact .inr stopped

/-- Both processes have the same traces. -/
theorem trace_iff (simulates : Simulates system model related final)
    (relates : related start here) :
    (∃ there, system.Run here trace there) ↔ ∃ last, model.Run start trace last := by
  constructor
  · rintro ⟨there, run⟩
    -- the model is run for as long as the trace, and what answers it cannot differ from the trace
    obtain ⟨trace', last, run', enough⟩ := simulates.exists_run_of_length start trace.length
    obtain ⟨there', answer, relates'⟩ := simulates.exists_run relates run'
    rcases answer.comparable run with ⟨later, rfl, more⟩ | ⟨later, rfl, -⟩
    · rcases enough with enough | stopped
      · have none : later = [] := by
          rw [List.length_append] at enough
          exact List.eq_nil_of_length_eq_zero (by omega)
        rw [none, List.append_nil]
        exact ⟨last, run'⟩
      · obtain ⟨stop, silent, atStop, -⟩ := simulates.stop last there' relates' stopped
        rcases silent.comparable more with ⟨rest, rfl, further⟩ | ⟨rest, eq, -⟩
        · obtain ⟨rfl, -⟩ := further.eq_of_stopped atStop
          exact ⟨last, by simpa using run'⟩
        · obtain ⟨rfl, -⟩ := List.append_eq_nil_iff.mp eq.symm
          exact ⟨last, by simpa using run'⟩
    · obtain ⟨middle, one, -⟩ := run'.split
      exact ⟨middle, one⟩
  · rintro ⟨last, run⟩
    obtain ⟨there, answer, -⟩ := simulates.exists_run relates run
    exact ⟨there, answer⟩

/-- Where the model stops, the implementation stops as it should, behind the same events. -/
theorem exists_stop {last : State'} (simulates : Simulates system model related final)
    (relates : related start here) (run : model.Run start trace last)
    (stopped : model.step last = none) :
    ∃ there, system.Run here trace there ∧ system.step there = none ∧ final last there := by
  obtain ⟨middle, answer, relates'⟩ := simulates.exists_run relates run
  obtain ⟨there, silent, atStop, isFinal⟩ := simulates.stop last middle relates' stopped
  refine ⟨there, ?_, atStop, isFinal⟩
  simpa using answer.append silent

/-- Where the implementation stops, the model stops behind the same events, and the end is as it
should be. -/
theorem exists_stop_of_stop {there : State} (simulates : Simulates system model related final)
    (relates : related start here) (run : system.Run here trace there)
    (stopped : system.step there = none) :
    ∃ last, model.Run start trace last ∧ model.step last = none ∧ final last there := by
  obtain ⟨last, run'⟩ := (simulates.trace_iff relates).mp ⟨there, run⟩
  have atStop : model.step last = none := by
    cases step : model.step last with
    | none => rfl
    | some next =>
      -- the implementation would have to answer one more event
      obtain ⟨_ | event, next⟩ := next
      · exact absurd step (simulates.visible _ _)
      · obtain ⟨middle, answer, relates'⟩ := simulates.exists_run relates run'
        obtain ⟨beyond, one, -⟩ := simulates.answer _ _ _ middle relates' step
        rcases run.comparable (answer.append one) with ⟨later, eq, further⟩ | ⟨later, eq, -⟩
        · obtain ⟨rfl, -⟩ := further.eq_of_stopped stopped
          simp at eq
        · simp at eq
  obtain ⟨end_, run'', stopped', isFinal⟩ := simulates.exists_stop relates run' atStop
  have same : end_ = there := by
    rcases run.comparable run'' with ⟨later, -, further⟩ | ⟨later, -, further⟩
    · exact (further.eq_of_stopped stopped).2
    · exact (further.eq_of_stopped stopped').2.symm
  exact ⟨last, run', atStop, same ▸ isFinal⟩

end Simulates

end Process

end JackCompiler
