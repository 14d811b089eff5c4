import JackCompiler.Proofs.Process
import JackCompiler.Syntax.Tree
import JackCompiler.Machine

/-!
# Structured control and jumps

Two processes that execute the same conditions and statements, given the outcomes of the conditions.

`structured` follows the syntax trees: it keeps the statements that are still to be done, picks one
of two blocks by the outcome of a condition, and puts a loop back behind its block.

`flat` follows the code, cut into pieces. A condition, an assignment, a call and a return are opaque
pieces. A condition pushes a word, which is -1 if it holds and 0 if not, and the instructions
between the pieces complement that word and jump.
-/

set_option autoImplicit false

namespace JackCompiler

/-! ## Structured control -/

/-- How a statement steers those behind it. -/
inductive Control where
  | act
  | leave
  | choose (condition : Tree) (yes no : List Tree)
  | loop (condition : Tree) (block : List Tree)

/-- What a statement does with the control, read off its parts. -/
def Tree.control? : Tree → Option Control
  | .node .letStatement _ => some .act
  | .node .doStatement _ => some .act
  | .node .returnStatement _ => some .leave
  | .node .ifStatement [_, _, condition, _, _, .node .statements yes, _] =>
    some (.choose condition yes [])
  | .node .ifStatement [_, _, condition, _, _, .node .statements yes, _, _, _,
      .node .statements no, _] => some (.choose condition yes no)
  | .node .whileStatement [_, _, condition, _, _, .node .statements block, _] =>
    some (.loop condition block)
  | _ => none

/-- A state of structured execution: the statements still to be done and the number of conditions
evaluated so far, unless the subroutine has been left. -/
inductive StructuredState where
  | running (todo : List Tree) (asked : Nat)
  | left

/-- Structured execution, where the conditions have the outcomes of `oracle` in turn. Each step
executes one condition or one statement without parts. -/
def structured (oracle : Nat → Bool) : Process StructuredState Tree where
  step
    | .left => none
    | .running [] _ => none
    | .running (statement :: later) asked =>
      match statement.control? with
      | some .act => some (some statement, .running later asked)
      | some .leave => some (some statement, .left)
      | some (.choose condition yes no) =>
        some (some condition, .running ((if oracle asked then yes else no) ++ later) (asked + 1))
      | some (.loop condition block) =>
        some (some condition,
          .running (if oracle asked then block ++ statement :: later else later) (asked + 1))
      | none => none

namespace Structured

variable {oracle : Nat → Bool} {statement condition : Tree} {later : List Tree} {asked : Nat}

theorem step_act (acts : statement.control? = some .act) :
    (structured oracle).step (.running (statement :: later) asked) =
      some (some statement, .running later asked) := by
  simp only [structured, acts]

theorem step_leave (leaves : statement.control? = some .leave) :
    (structured oracle).step (.running (statement :: later) asked) =
      some (some statement, .left) := by
  simp only [structured, leaves]

theorem step_choose {yes no : List Tree}
    (chooses : statement.control? = some (.choose condition yes no)) :
    (structured oracle).step (.running (statement :: later) asked) =
      some (some condition,
        .running ((if oracle asked then yes else no) ++ later) (asked + 1)) := by
  simp only [structured, chooses]

theorem step_loop {block : List Tree} (loops : statement.control? = some (.loop condition block)) :
    (structured oracle).step (.running (statement :: later) asked) =
      some (some condition,
        .running (if oracle asked then block ++ statement :: later else later) (asked + 1)) := by
  simp only [structured, loops]

theorem step_ne_silent (state next : StructuredState) :
    (structured oracle).step state ≠ some (none, next) := by
  intro step
  simp only [structured] at step
  split at step
  · cases step
  · cases step
  · split at step <;> cases step

end Structured

/-! ## Pieces of code -/

/-- The label that an instruction sets, if it does. -/
def Instruction.label? : Instruction → Option String
  | .label name => some name
  | _ => none

/-- A piece of the code of statements: the code of a condition, that of a statement which acts or
leaves the subroutine, or a single instruction between these. -/
inductive Piece where
  | test (condition : Tree) (code : List Instruction)
  | act (statement : Tree) (code : List Instruction)
  | leave (statement : Tree) (code : List Instruction)
  | steer (instruction : Instruction)

namespace Piece

def code : Piece → List Instruction
  | test _ code => code
  | act _ code => code
  | leave _ code => code
  | steer instruction => [instruction]

/-- The label that a piece sets, if it does. -/
def label? : Piece → Option String
  | steer instruction => instruction.label?
  | _ => none

/-- The labels of consecutive pieces. -/
def labels (pieces : List Piece) : List String := pieces.filterMap label?

/-- The position of a label. -/
def find? (pieces : List Piece) (name : String) : Option Nat :=
  pieces.findIdx? fun piece => piece.label? = some name

/-- A label is found where it stands, if no label is set twice. -/
theorem find?_eq {pieces : List Piece} {name : String} {position : Nat}
    (nodup : (labels pieces).Nodup) (here : pieces[position]? = some (.steer (.label name))) :
    find? pieces name = some position := by
  induction pieces generalizing position with
  | nil => simp at here
  | cons piece later ih =>
    unfold find?
    rw [List.findIdx?_cons]
    cases position with
    | zero =>
      simp only [List.getElem?_cons_zero, Option.some.injEq] at here
      subst here
      simp [label?, Instruction.label?]
    | succ position =>
      rw [List.getElem?_cons_succ] at here
      have among : name ∈ labels later :=
        List.mem_filterMap.mpr ⟨_, List.mem_of_getElem? here, rfl⟩
      have other : piece.label? ≠ some name := by
        intro same
        rw [labels, List.filterMap_cons_some same, List.nodup_cons] at nodup
        exact nodup.1 among
      have rest : (labels later).Nodup := by
        apply List.Nodup.sublist _ nodup
        exact (List.sublist_cons_self piece later).filterMap label?
      have found := ih rest here
      unfold find? at found
      simp [other, found]

end Piece

/-! ## Jumps -/

/-- A state of flat execution: the position among the pieces, the words of conditions and the number
of conditions evaluated so far, unless the subroutine has been left. -/
inductive FlatState where
  | running (position : Nat) (stack : List (BitVec 16)) (asked : Nat)
  | left

/-- The word of a condition. -/
def truthWord (holds : Bool) : BitVec 16 := if holds then -1 else 0

/-- Flat execution of pieces, where the conditions have the outcomes of `oracle` in turn. Executing
a condition or a statement is visible, steering is silent. A jump goes to its label, and a
conditional jump is taken if the word on top is not zero. -/
def flat (pieces : List Piece) (oracle : Nat → Bool) : Process FlatState Tree where
  step
    | .left => none
    | .running position stack asked =>
      match pieces[position]? with
      | none => none
      | some (.test condition _) =>
        some (some condition,
          .running (position + 1) (truthWord (oracle asked) :: stack) (asked + 1))
      | some (.act statement _) => some (some statement, .running (position + 1) stack asked)
      | some (.leave statement _) => some (some statement, .left)
      | some (.steer (.operate .not)) =>
        match stack with
        | [] => none
        | word :: rest => some (none, .running (position + 1) (~~~word :: rest) asked)
      | some (.steer (.label _)) => some (none, .running (position + 1) stack asked)
      | some (.steer (.goto target)) => do
        let next ← Piece.find? pieces target
        some (none, .running next stack asked)
      | some (.steer (.ifGoto target)) =>
        match stack with
        | [] => none
        | word :: rest =>
          if word = 0 then some (none, .running (position + 1) rest asked)
          else do
            let next ← Piece.find? pieces target
            some (none, .running next rest asked)
      | some (.steer _) => none

namespace Flat

variable {pieces : List Piece} {oracle : Nat → Bool} {position asked : Nat}
  {stack : List (BitVec 16)}

theorem step_end : (flat pieces oracle).step (.running pieces.length stack asked) = none := by
  simp only [flat, List.getElem?_eq_none (Nat.le_refl pieces.length)]

theorem step_label {name : String} (here : pieces[position]? = some (.steer (.label name))) :
    (flat pieces oracle).step (.running position stack asked) =
      some (none, .running (position + 1) stack asked) := by
  simp only [flat, here]

theorem step_goto {name : String} {target : Nat} (nodup : (Piece.labels pieces).Nodup)
    (here : pieces[position]? = some (.steer (.goto name)))
    (there : pieces[target]? = some (.steer (.label name))) :
    (flat pieces oracle).step (.running position stack asked) =
      some (none, .running target stack asked) := by
  simp only [flat, here, Piece.find?_eq nodup there]
  rfl

theorem step_test {condition : Tree} {code : List Instruction}
    (here : pieces[position]? = some (.test condition code)) :
    (flat pieces oracle).step (.running position stack asked) =
      some (some condition,
        .running (position + 1) (truthWord (oracle asked) :: stack) (asked + 1)) := by
  simp only [flat, here]

theorem step_act {statement : Tree} {code : List Instruction}
    (here : pieces[position]? = some (.act statement code)) :
    (flat pieces oracle).step (.running position stack asked) =
      some (some statement, .running (position + 1) stack asked) := by
  simp only [flat, here]

theorem step_leave {statement : Tree} {code : List Instruction}
    (here : pieces[position]? = some (.leave statement code)) :
    (flat pieces oracle).step (.running position stack asked) = some (some statement, .left) := by
  simp only [flat, here]

theorem step_not {word : BitVec 16} (here : pieces[position]? = some (.steer (.operate .not))) :
    (flat pieces oracle).step (.running position (word :: stack) asked) =
      some (none, .running (position + 1) (~~~word :: stack) asked) := by
  simp only [flat, here]

theorem step_ifGoto_zero {name : String} (here : pieces[position]? = some (.steer (.ifGoto name))) :
    (flat pieces oracle).step (.running position (0 :: stack) asked) =
      some (none, .running (position + 1) stack asked) := by
  simp only [flat, here]
  rfl

theorem step_ifGoto_ne_zero {name : String} {target : Nat} {word : BitVec 16} (nonzero : word ≠ 0)
    (nodup : (Piece.labels pieces).Nodup)
    (here : pieces[position]? = some (.steer (.ifGoto name)))
    (there : pieces[target]? = some (.steer (.label name))) :
    (flat pieces oracle).step (.running position (word :: stack) asked) =
      some (none, .running target stack asked) := by
  simp only [flat, here, if_neg nonzero, Piece.find?_eq nodup there]
  rfl

/-- A condition in front of a conditional jump selects the label if it holds. -/
theorem run_jumpIf {condition : Tree} {code : List Instruction} {name : String} {target : Nat}
    (nodup : (Piece.labels pieces).Nodup) (test : pieces[position]? = some (.test condition code))
    (jump : pieces[position + 1]? = some (.steer (.ifGoto name)))
    (there : pieces[target]? = some (.steer (.label name))) :
    (flat pieces oracle).Run (.running position [] asked) [condition]
      (.running (if oracle asked then target else position + 2) [] (asked + 1)) := by
  apply Process.Run.event (step_test test)
  by_cases holds : oracle asked
  · rw [holds, if_pos rfl]
    have nonzero : truthWord true ≠ 0 := by decide
    exact .silent (step_ifGoto_ne_zero nonzero nodup jump there) (.nil _)
  · rw [Bool.eq_false_iff.mpr holds, if_neg Bool.false_ne_true]
    exact .silent (step_ifGoto_zero jump) (.nil _)

/-- A condition whose word is complemented in front of a conditional jump selects the label if it
fails. -/
theorem run_jumpUnless {condition : Tree} {code : List Instruction} {name : String} {target : Nat}
    (nodup : (Piece.labels pieces).Nodup) (test : pieces[position]? = some (.test condition code))
    (complement : pieces[position + 1]? = some (.steer (.operate .not)))
    (jump : pieces[position + 2]? = some (.steer (.ifGoto name)))
    (there : pieces[target]? = some (.steer (.label name))) :
    (flat pieces oracle).Run (.running position [] asked) [condition]
      (.running (if oracle asked then position + 3 else target) [] (asked + 1)) := by
  apply Process.Run.event (step_test test)
  apply Process.Run.silent (step_not complement)
  by_cases holds : oracle asked
  · rw [holds, if_pos rfl]
    have zero : ~~~(truthWord true) = 0 := by decide
    rw [zero]
    exact .silent (step_ifGoto_zero jump) (.nil _)
  · rw [Bool.eq_false_iff.mpr holds, if_neg Bool.false_ne_true]
    have nonzero : ~~~(truthWord false) ≠ 0 := by decide
    exact .silent (step_ifGoto_ne_zero nonzero nodup jump there) (.nil _)

end Flat

end JackCompiler
