import JackCompiler.Proofs.Code.StackMachine
import JackCompiler.Proofs.Code.Steering
import JackCompiler.Proofs.Code.Straight

/-!
# Execution with jumps

The abstract stack machine with a position in the code. Its words have 16 bits, and a conditional
jump is taken unless the word it pops is 0. Each step is visible as the position that it starts
from, so the trace of a run says where the run has been. Execution ends behind the code and at a
return, and code that is given to it begins behind the header of its subroutine.

Straight-line code is run through from its first position to the one behind it
(`StackMachine.run_jumping_straight`). Where a run has ended, all positions of other runs from the
same state are known (`StackMachine.mem_of_stopped`).
-/

set_option autoImplicit false

namespace JackCompiler

/-- Where code sets a label first. -/
def labelPosition? (code : List Instruction) (name : String) : Option Nat :=
  code.findIdx? fun instruction => instruction.label? = some name

theorem labelPosition?_append {front behind : List Instruction} {name : String}
    (new : name ∉ front.filterMap Instruction.label?) :
    labelPosition? (front ++ .label name :: behind) name = some front.length := by
  have other : front.findIdx? (fun instruction => instruction.label? = some name) = none := by
    rw [List.findIdx?_eq_none_iff]
    intro instruction among
    rw [decide_eq_false_iff_not]
    exact fun same => new (List.mem_filterMap.mpr ⟨instruction, among, same⟩)
  rw [labelPosition?, List.findIdx?_append, other, List.findIdx?_cons]
  simp [Instruction.label?]

namespace StackMachine

/-- What an instruction does at a position of code: the next position and the state there. -/
def jump (machine : StackMachine (BitVec 16)) (code : List Instruction) (position : Nat)
    (state : MachineState (BitVec 16)) : Instruction → Option (Nat × MachineState (BitVec 16))
  | .label _ => some (position + 1, state)
  | .goto name => (labelPosition? code name).map fun target => (target, state)
  | .ifGoto name =>
    match state.stack with
    | [] => none
    | value :: rest =>
      if value = 0 then some (position + 1, { state with stack := rest })
      else (labelPosition? code name).map fun target => (target, { state with stack := rest })
  | .function _ _ | .ret => none
  | instruction => (machine.execute state instruction).map fun after => (position + 1, after)

/-- Execution of code, one instruction after the other. -/
def jumping (machine : StackMachine (BitVec 16)) (code : List Instruction) :
    Process (Nat × MachineState (BitVec 16)) Nat where
  step here := do
    let instruction ← code[here.1]?
    let next ← machine.jump code here.1 here.2 instruction
    some (some here.1, next)

variable {machine : StackMachine (BitVec 16)} {code front block behind : List Instruction}
  {position : Nat} {state after : MachineState (BitVec 16)} {instruction : Instruction}

theorem step_jumping (here : code[position]? = some instruction) :
    (machine.jumping code).step (position, state) =
      (machine.jump code position state instruction).map fun next => (some position, next) := by
  simp only [jumping, here, Option.bind_eq_bind, Option.bind_some]
  cases machine.jump code position state instruction <;> rfl

theorem step_label {name : String} (here : code[position]? = some (.label name)) :
    (machine.jumping code).step (position, state) =
      some (some position, (position + 1, state)) := by
  rw [step_jumping here]
  rfl

theorem step_goto {name : String} {target : Nat} (here : code[position]? = some (.goto name))
    (leads : labelPosition? code name = some target) :
    (machine.jumping code).step (position, state) = some (some position, (target, state)) := by
  rw [step_jumping here, jump, leads]
  rfl

/-- The word 0 lets a conditional jump pass. -/
theorem step_ifGoto_zero {name : String} {rest : List (BitVec 16)}
    (here : code[position]? = some (.ifGoto name)) (top : state.stack = 0 :: rest) :
    (machine.jumping code).step (position, state) =
      some (some position, (position + 1, { state with stack := rest })) := by
  rw [step_jumping here, jump, top]
  rfl

/-- Any other word makes it jump. -/
theorem step_ifGoto_ne_zero {name : String} {target : Nat} {value : BitVec 16}
    {rest : List (BitVec 16)} (here : code[position]? = some (.ifGoto name))
    (leads : labelPosition? code name = some target) (top : state.stack = value :: rest)
    (taken : value ≠ 0) :
    (machine.jumping code).step (position, state) =
      some (some position, (target, { state with stack := rest })) := by
  rw [step_jumping here, jump, top, leads]
  simp only [if_neg taken, Option.map_some]

theorem step_jumping_eq_none (beyond : code.length ≤ position) :
    (machine.jumping code).step (position, state) = none := by
  simp only [jumping, List.getElem?_eq_none beyond]
  rfl

/-- Each step shows the position that it starts from. -/
theorem event_eq {here next : Nat × MachineState (BitVec 16)} {event : Option Nat}
    (step : (machine.jumping code).step here = some (event, next)) : event = some here.1 := by
  obtain ⟨instruction, -, step⟩ := Option.bind_eq_some_iff.mp step
  obtain ⟨after, -, step⟩ := Option.bind_eq_some_iff.mp step
  cases step
  rfl

/-- Straight-line code is run through. The induction moves its first instruction to the front. -/
theorem run_jumping_straight (straight : Straight block)
    (ran : machine.run block state = some after) :
    (machine.jumping (front ++ block ++ behind)).Run (front.length, state)
      (List.range' front.length block.length) (front.length + block.length, after) := by
  induction block generalizing front state with
  | nil =>
    rw [run_nil, Option.some.injEq] at ran
    rw [ran]
    exact .nil _
  | cons instruction later ih =>
    unfold Straight at straight
    rw [List.forall_mem_cons] at straight
    rw [run_cons, Option.bind_eq_some_iff] at ran
    obtain ⟨middle, first, others⟩ := ran
    have here : (front ++ instruction :: later ++ behind)[front.length]? = some instruction := by
      simp
    have step : (machine.jumping (front ++ instruction :: later ++ behind)).step
        (front.length, state) = some (some front.length, (front.length + 1, middle)) := by
      rw [step_jumping here]
      have isStraight := straight.1
      cases instruction with
      | label | goto | ifGoto | function | ret => cases isStraight
      | _ => simp only [jump, first, Option.map_some]
    have rest := @ih (front ++ [instruction]) middle straight.2 others
    rw [List.append_assoc front, List.singleton_append, List.length_append,
      List.length_singleton] at rest
    have whole := Process.Run.event step rest
    rwa [Nat.add_assoc, Nat.add_comm 1, ← List.length_cons (a := instruction)] at whole

/-- Where one run ends, any other run from the same state is on the way. -/
theorem mem_of_stopped {first last middle : Nat × MachineState (BitVec 16)}
    {trace trace' : List Nat} (run : (machine.jumping code).Run first trace last)
    (stopped : (machine.jumping code).step last = none)
    (other : (machine.jumping code).Run first trace' middle) :
    middle.1 ∈ trace ++ [last.1] := by
  rcases other.comparable run with ⟨later, rfl, more⟩ | ⟨later, -, more⟩
  · cases more with
    | nil => simp
    | silent step _ => cases event_eq step
    | event step _ =>
      cases event_eq step
      simp
  · rw [(more.eq_of_stopped stopped).2]
    simp

/-- Straight-line code in front of other code is run through first. -/
theorem run_jumping_front (straight : Straight front) (ran : machine.run front state = some after) :
    (machine.jumping (front ++ behind)).Run (0, state) (List.range' 0 front.length)
      (front.length, after) := by
  have run := @run_jumping_straight machine [] front behind state after straight ran
  rwa [List.nil_append, List.length_nil, Nat.zero_add] at run

/-- Whether execution of code comes to some instruction of a block inside it. -/
def Enters (machine : StackMachine (BitVec 16)) (front block behind : List Instruction)
    (state : MachineState (BitVec 16)) : Prop :=
  ∃ trace position after,
    (machine.jumping (front ++ block ++ behind)).Run (0, state) trace (position, after) ∧
      front.length ≤ position ∧ position < front.length + block.length

theorem Enters.ne_nil (enters : machine.Enters front block behind state) : block ≠ [] := by
  rintro rfl
  obtain ⟨_, _, _, -, begins, ends⟩ := enters
  exact absurd begins (Nat.not_le.mpr ends)

/-- A block is entered by coming to its first instruction. -/
theorem Enters.of_run {trace : List Nat} (nonempty : block ≠ [])
    (run : (machine.jumping (front ++ block ++ behind)).Run (0, state) trace
      (front.length, after)) : machine.Enters front block behind state :=
  ⟨trace, front.length, after, run, Nat.le_refl _,
    Nat.lt_add_of_pos_right (List.length_pos_iff.mpr nonempty)⟩

/-- A block is not entered if execution ends outside and has not been inside. -/
theorem not_enters_of_run {trace : List Nat} {last : Nat × MachineState (BitVec 16)}
    (run : (machine.jumping (front ++ block ++ behind)).Run (0, state) trace last)
    (stopped : (machine.jumping (front ++ block ++ behind)).step last = none)
    (outside : ∀ position ∈ trace ++ [last.1],
      position < front.length ∨ front.length + block.length ≤ position) :
    ¬ machine.Enters front block behind state := by
  rintro ⟨trace', position, after, other, begins, ends⟩
  have among := mem_of_stopped run stopped other
  rcases outside position among with before | beyond
  · exact absurd begins (Nat.not_le.mpr before)
  · exact absurd ends (Nat.not_lt.mpr beyond)

end StackMachine

end JackCompiler
