import JackCompiler.Proofs.Code.Branch
import JackCompiler.Proofs.Code.Jump
import JackCompiler.Proofs.Code.Refinement

/-!
# What counts as true

A condition leaves some word behind, and it need not be one of the two words that comparisons give.
A conditional with two blocks jumps into the first one unless the word is 0. A conditional with one
block complements the word and jumps past the block unless the complement is 0, so it takes no word
but -1 as true. The two agree on the words 0 and -1 and on no other one
(`enters_when_iff_enters_choose_iff`).
-/

set_option autoImplicit false

namespace JackCompiler

/-! ## Code of expressions never gets stuck -/

theorem UnaryOperator.exists_symbol (operator : UnaryOperator) :
    ∃ symbol, UnaryOperator.ofSymbol symbol = .ok operator := by
  cases operator with
  | negate => exact ⟨"-", rfl⟩
  | complement => exact ⟨"~", rfl⟩

theorem BinaryOperator.exists_symbol (operator : BinaryOperator) :
    ∃ symbol, BinaryOperator.ofSymbol symbol = .ok operator := by
  cases operator with
  | add => exact ⟨"+", rfl⟩
  | sub => exact ⟨"-", rfl⟩
  | mul => exact ⟨"*", rfl⟩
  | div => exact ⟨"/", rfl⟩
  | and => exact ⟨"&", rfl⟩
  | or => exact ⟨"|", rfl⟩
  | lt => exact ⟨"<", rfl⟩
  | gt => exact ⟨">", rfl⟩
  | eq => exact ⟨"=", rfl⟩

namespace Expression

open StackMachine

variable {Word : Type} [DecidableEq Word] {machine : StackMachine Word}
  {activation : Activation Word} {frame : Frame}

/-- Whether code pushes one word, whatever the memory is. -/
def PushesWord (machine : StackMachine Word) (activation : Activation Word)
    (code : List Instruction) : Prop :=
  ∀ store, ∃ value after, Pushes machine activation code store [value] after

/-- Code of a list of expressions pushes as many words as there are expressions. -/
theorem exists_pushes_codeOfList {list : List Expression} {code : List Instruction}
    (each : ∀ expression ∈ list, ∀ code, (expression.code frame).result = .ok code →
      PushesWord machine activation code)
    (emitted : (codeOfList frame list).result = .ok code) (store : Store Word) :
    ∃ values after, values.length = list.length ∧
      Pushes machine activation code store values after := by
  induction list generalizing code store with
  | nil =>
    obtain rfl := codeOfList_nil.mp emitted
    exact ⟨[], store, rfl, .nil⟩
  | cons expression later ih =>
    rw [List.forall_mem_cons] at each
    obtain ⟨first, firstCode, more, moreCode, rfl⟩ := codeOfList_cons.mp emitted
    obtain ⟨value, middle, one⟩ := each.1 first firstCode store
    obtain ⟨values, after, counted, others⟩ := ih each.2 moreCode middle
    refine ⟨value :: values, after, ?_, one.append others⟩
    rw [List.length_cons, List.length_cons, counted]

/-- The code of an expression pushes one word. -/
theorem pushesWord_code {expression : Expression} {code : List Instruction}
    (emitted : (expression.code frame).result = .ok code) :
    PushesWord machine activation code := by
  induction expression generalizing code with
  | integer value =>
    obtain rfl := code_integer.mp emitted
    exact fun store => ⟨_, _, .constant value⟩
  | string value =>
    obtain ⟨-, -, rfl⟩ := code_string.mp emitted
    exact fun store => ⟨_, _, .string value⟩
  | truth =>
    obtain rfl := code_truth.mp emitted
    intro store
    have zero : Pushes machine activation [.push .constant 0] store [machine.constant 0] store :=
      .constant 0
    have denotes : UnaryOperator.ofSymbol "~" = .ok .complement := rfl
    obtain ⟨value, -, pushes⟩ := zero.unary denotes
    exact ⟨value, store, pushes⟩
  | zero =>
    obtain rfl := code_zero.mp emitted
    exact fun store => ⟨_, _, .constant 0⟩
  | receiver =>
    obtain rfl := code_receiver.mp emitted
    exact fun store => ⟨_, _, .this⟩
  | named name =>
    obtain ⟨declared, -, rfl⟩ := code_named.mp emitted
    exact fun store => ⟨_, _, .variable declared⟩
  | element array index ih =>
    obtain ⟨declared, -, position, indexCode, rfl⟩ := code_element.mp emitted
    intro store
    obtain ⟨value, after, pushes⟩ := ih indexCode store
    exact ⟨_, _, ((Pushes.variable declared).append pushes).element⟩
  | unary operator operand ih =>
    obtain ⟨value, operandCode, op, -, rfl⟩ := code_unary.mp emitted
    intro store
    obtain ⟨symbol, denotes⟩ := op.exists_symbol
    obtain ⟨word, after, pushes⟩ := ih operandCode store
    obtain ⟨result, -, whole⟩ := pushes.unary denotes
    exact ⟨result, after, whole⟩
  | binary left operator right ihLeft ihRight =>
    obtain ⟨first, firstCode, second, secondCode, op, -, rfl⟩ := code_binary.mp emitted
    intro store
    obtain ⟨symbol, denotes⟩ := op.exists_symbol
    obtain ⟨one, middle, pushesOne⟩ := ihLeft firstCode store
    obtain ⟨two, after, pushesTwo⟩ := ihRight secondCode middle
    obtain ⟨result, -, whole⟩ := (pushesOne.append pushesTwo).binary denotes
    exact ⟨result.1, result.2, whole⟩
  | call callee arguments ih =>
    have listed (values : List Instruction)
        (valuesCode : (codeOfList frame arguments).result = .ok values) :=
      exists_pushes_codeOfList (fun argument among _ emitted => ih argument among emitted)
        valuesCode
    intro store
    cases callee with
    | own name =>
      obtain ⟨values, valuesCode, rfl⟩ := code_ownCall.mp emitted
      obtain ⟨words, after, counted, pushes⟩ := listed values valuesCode store
      exact ⟨_, _, Pushes.this.callOn _ pushes counted⟩
    | qualified context name =>
      cases found : frame.scope.resolve? context with
      | some object =>
        obtain ⟨values, valuesCode, rfl⟩ := (code_methodCall found).mp emitted
        obtain ⟨words, after, counted, pushes⟩ := listed values valuesCode store
        exact ⟨_, _, (Pushes.variable object).callOn _ pushes counted⟩
      | none =>
        obtain ⟨values, valuesCode, rfl⟩ := (code_functionCall found).mp emitted
        obtain ⟨words, after, counted, pushes⟩ := listed values valuesCode store
        exact ⟨_, _, pushes.call _ counted⟩
  | flaw error => exact absurd emitted code_flaw

/-- The code of an expression runs from any state and leaves one more word on the stack. -/
theorem exists_run_code {expression : Expression} {code : List Instruction}
    (machine : StackMachine Word) (emitted : (expression.code frame).result = .ok code)
    (state : MachineState Word) :
    ∃ after value, machine.run code state = some after ∧ after.stack = value :: state.stack := by
  obtain ⟨store, activation, that, temp, stack⟩ := state
  obtain ⟨value, after, pushes⟩ := pushesWord_code emitted store
  obtain ⟨that', temp', ran⟩ := pushes that temp stack
  exact ⟨_, value, ran, rfl⟩

end Expression

/-! ## Blocks have code -/

namespace Statement

variable {frame : Frame}

/-- A statement has at least one instruction. -/
theorem code_ne_nil {statement : Statement} {code : List Instruction} {next free : Nat}
    (emitted : (statement.code frame next).result = .ok (code, free)) : code ≠ [] := by
  cases statement with
  | assign name value =>
    obtain ⟨first, -, declared, -, rfl, -⟩ := code_assign.mp emitted
    simp
  | assignElement array index value =>
    obtain ⟨declared, -, position, -, second, -, rfl, -⟩ := code_assignElement.mp emitted
    simp
  | when condition block =>
    obtain ⟨test, -, inner, -, rfl⟩ := code_when.mp emitted
    simp
  | choose condition yes no =>
    obtain ⟨test, -, first, middle, -, second, -, rfl⟩ := code_choose.mp emitted
    simp
  | loop condition block =>
    obtain ⟨test, -, inner, -, rfl⟩ := code_loop.mp emitted
    simp
  | perform call =>
    obtain ⟨value, -, rfl, -⟩ := code_perform.mp emitted
    simp
  | leave value =>
    obtain ⟨-, ⟨front, -, rfl⟩, -⟩ := unlabelled_leave value next code free emitted
    simp
  | flaw error => exact absurd emitted code_flaw

theorem codeOfBlock_eq_nil_iff {block : List Statement} {code : List Instruction}
    {next free : Nat} (emitted : (codeOfBlock frame next block).result = .ok (code, free)) :
    code = [] ↔ block = [] := by
  cases block with
  | nil =>
    obtain ⟨rfl, -⟩ := codeOfBlock_nil.mp emitted
    exact ⟨fun _ => rfl, fun _ => rfl⟩
  | cons statement later =>
    obtain ⟨first, middle, firstCode, more, -, rfl⟩ := codeOfBlock_cons.mp emitted
    simp [code_ne_nil firstCode]

/-- The labels of a block are numbered on from the first number, so none of them has a number in
front of that. -/
theorem label_notMem_codeOfBlock {block : List Statement} {code : List Instruction}
    {next free number : Nat} (emitted : (codeOfBlock frame next block).result = .ok (code, free))
    (earlier : number < next) : frame.scope.label number ∉ labels code := by
  obtain ⟨-, labelled⟩ := labelled_codeOfBlock
    (fun statement _ _ _ _ h => labelled_code h) emitted
  intro among
  obtain ⟨other, inside, same⟩ := List.mem_map.mp (labelled.defined.mem_iff.mp among)
  rw [Scope.label_inj same, List.mem_range'_1] at inside
  exact absurd inside.1 (Nat.not_le.mpr earlier)

end Statement

/-! ## The two conditionals -/

theorem complement_eq_zero_iff {value : BitVec 16} : ~~~value = 0 ↔ value = -1 := by
  constructor
  · intro zero
    have both := congrArg (~~~ ·) zero
    simp only [BitVec.not_not] at both
    rw [both]
    decide
  · rintro rfl
    decide

/-- What stands behind some code. -/
theorem getElem?_append_add {α : Type} (front behind : List α) (offset : Nat) :
    (front ++ behind)[front.length + offset]? = behind[offset]? := by
  rw [List.getElem?_append_right (Nat.le_add_right _ _), Nat.add_sub_cancel_left]

namespace StackMachine

variable {machine : StackMachine (BitVec 16)} {test inner : List Instruction}
  {state after : MachineState (BitVec 16)} {value : BitVec 16} {rest : List (BitVec 16)}

/-- A conditional jump past a block lets execution enter it exactly if the word is 0. -/
theorem enters_past_iff {name : String} (straight : Straight test)
    (ran : machine.run test state = some after) (top : after.stack = value :: rest)
    (new : name ∉ labels inner) :
    machine.Enters (test ++ [.ifGoto name]) inner [.label name] state ↔
      inner ≠ [] ∧ value = 0 := by
  let front := test ++ [.ifGoto name]
  let code := front ++ inner ++ [.label name]
  have frontLength : front.length = test.length + 1 := List.length_append
  have blockLength : (front ++ inner).length = front.length + inner.length := List.length_append
  have decides : code[test.length]? = some (.ifGoto name) := by simp [code, front]
  let decided := { after with stack := rest }
  have tested : (machine.jumping code).Run (0, state) (List.range' 0 test.length)
      (test.length, after) := by
    have run := @run_jumping_front machine test ([.ifGoto name] ++ inner ++ [.label name]) state
      after straight ran
    simpa only [code, front, List.append_assoc] using run
  constructor
  · intro enters
    refine ⟨enters.ne_nil, ?_⟩
    by_contra other
    -- the jump is taken, and the label behind the block is the last instruction
    have ends : code[(front ++ inner).length]? = some (.label name) := getElem?_append_add _ _ 0
    have leads : labelPosition? code name = some (front ++ inner).length := by
      apply labelPosition?_append
      show name ∉ labels (front ++ inner)
      simp [front, straight.unbranched.1, Instruction.label?, new]
    have taken : (machine.jumping code).step (test.length, after) =
        some (some test.length, ((front ++ inner).length, decided)) :=
      step_ifGoto_ne_zero decides leads top other
    have run := tested.append (.event taken (.event (step_label ends) (.nil _)))
    refine not_enters_of_run run (step_jumping_eq_none ?_) ?_ enters
    · simp [Nat.add_assoc]
    · intro position among
      show position < front.length ∨ front.length + inner.length ≤ position
      simp only [List.mem_append, List.mem_range'_1, List.mem_cons, List.not_mem_nil,
        or_false] at among
      omega
  · rintro ⟨nonempty, rfl⟩
    have passed : (machine.jumping code).step (test.length, after) =
        some (some test.length, (test.length + 1, decided)) := step_ifGoto_zero decides top
    have run := tested.append (.event passed (.nil _))
    exact .of_run nonempty (frontLength ▸ run)

/-- A conditional jump to a block, with one behind it to another block that is empty, enters the
first one exactly if the word is not 0. -/
theorem enters_chosen_iff {onYes onNo behind : String} (straight : Straight test)
    (ran : machine.run test state = some after) (top : after.stack = value :: rest)
    (newNo : onNo ∉ labels inner) (newBehind : behind ∉ labels inner) (noYes : onNo ≠ onYes)
    (behindYes : behind ≠ onYes) (behindNo : behind ≠ onNo) :
    machine.Enters (test ++ [.ifGoto onYes, .goto onNo, .label onYes]) inner
        [.goto behind, .label onNo, .goto behind, .label behind] state ↔
      inner ≠ [] ∧ value ≠ 0 := by
  let front := test ++ [.ifGoto onYes, .goto onNo, .label onYes]
  let code := front ++ inner ++ [.goto behind, .label onNo, .goto behind, .label behind]
  have frontLength : front.length = test.length + 3 := List.length_append
  have blockLength : (front ++ inner).length = front.length + inner.length := List.length_append
  have decides : code[test.length]? = some (.ifGoto onYes) := by simp [code, front]
  have refuses : code[test.length + 1]? = some (.goto onNo) := by simp [code, front]
  have accepts : code[test.length + 2]? = some (.label onYes) := by simp [code, front]
  let decided := { after with stack := rest }
  have tested : (machine.jumping code).Run (0, state) (List.range' 0 test.length)
      (test.length, after) := by
    have run := @run_jumping_front machine test ([.ifGoto onYes, .goto onNo, .label onYes] ++
      inner ++ [.goto behind, .label onNo, .goto behind, .label behind]) state after straight ran
    simpa only [code, front, List.append_assoc] using run
  have noLabels : labels test = [] := straight.unbranched.1
  constructor
  · intro enters
    refine ⟨enters.ne_nil, ?_⟩
    intro isFalse
    rw [isFalse] at top
    -- the second block is skipped too, by a jump to the last label
    have skips : code[(front ++ inner).length + 1]? = some (.label onNo) :=
      getElem?_append_add _ _ 1
    have leaves : code[(front ++ inner).length + 1 + 1]? = some (.goto behind) :=
      getElem?_append_add _ _ 2
    have ends : code[(front ++ inner).length + 3]? = some (.label behind) :=
      getElem?_append_add _ _ 3
    have leadsNo : labelPosition? code onNo = some ((front ++ inner).length + 1) := by
      have absent : onNo ∉ labels (front ++ inner ++ [.goto behind]) := by
        simp [front, noLabels, Instruction.label?, newNo, noYes]
      have position := @labelPosition?_append _ [.goto behind, .label behind] onNo absent
      simpa only [code, List.append_assoc, List.length_append, List.cons_append, List.nil_append,
        List.length_cons, List.length_nil, Nat.add_assoc] using position
    have leadsBehind : labelPosition? code behind = some ((front ++ inner).length + 3) := by
      have absent : behind ∉ labels (front ++ inner ++
          [.goto behind, .label onNo, .goto behind]) := by
        simp [front, noLabels, Instruction.label?, newBehind, behindYes, behindNo]
      have position := @labelPosition?_append _ [] behind absent
      simpa only [code, List.append_assoc, List.length_append, List.cons_append, List.nil_append,
        List.length_cons, List.length_nil, Nat.add_assoc] using position
    have passed : (machine.jumping code).step (test.length, after) =
        some (some test.length, (test.length + 1, decided)) := step_ifGoto_zero decides top
    have run := tested.append (.event passed (.event (step_goto refuses leadsNo)
      (.event (step_label skips) (.event (step_goto leaves leadsBehind)
        (.event (step_label ends) (.nil _))))))
    refine not_enters_of_run run (step_jumping_eq_none ?_) ?_ enters
    · simp [Nat.add_assoc]
    · intro position among
      show position < front.length ∨ front.length + inner.length ≤ position
      simp only [List.mem_append, List.mem_range'_1, List.mem_cons, List.not_mem_nil,
        or_false] at among
      omega
  · rintro ⟨nonempty, isTrue⟩
    have leads : labelPosition? code onYes = some (test.length + 2) := by
      have absent : onYes ∉ labels (test ++ [.ifGoto onYes, .goto onNo]) := by
        simp [noLabels, Instruction.label?]
      have position := @labelPosition?_append _
        (inner ++ [.goto behind, .label onNo, .goto behind, .label behind]) onYes absent
      simpa [code, front] using position
    have taken : (machine.jumping code).step (test.length, after) =
        some (some test.length, (test.length + 2, decided)) :=
      step_ifGoto_ne_zero decides leads top isTrue
    have run := tested.append (.event taken (.event (step_label accepts) (.nil _)))
    exact .of_run nonempty (frontLength ▸ run)

end StackMachine

namespace Statement

open StackMachine

variable {frame : Frame} {condition : Expression} {block : List Statement} {next free : Nat}
  {code : List Instruction} {machine : StackMachine (BitVec 16)}

/-- What a conditional with one block has in front of the block, behind the code of the test. -/
def whenFront (frame : Frame) (next : Nat) (test : List Instruction) : List Instruction :=
  test ++ [.operate .not, .ifGoto (frame.scope.label next)]

def whenBehind (frame : Frame) (next : Nat) : List Instruction := [.label (frame.scope.label next)]

/-- What a conditional with two blocks has in front of the first one. -/
def chooseFront (frame : Frame) (next : Nat) (test : List Instruction) : List Instruction :=
  test ++ [.ifGoto (frame.scope.label next), .goto (frame.scope.label (next + 1)),
    .label (frame.scope.label next)]

/-- What a conditional with two blocks has behind the first one, if the second one is empty. -/
def chooseBehind (frame : Frame) (next : Nat) : List Instruction :=
  [.goto (frame.scope.label (next + 2)), .label (frame.scope.label (next + 1)),
    .goto (frame.scope.label (next + 2)), .label (frame.scope.label (next + 2))]

section Test

variable {test inner : List Instruction} {state after : MachineState (BitVec 16)}
  {value : BitVec 16}

/-- A conditional with one block enters it exactly if the word of the condition is -1. -/
theorem enters_when_iff (complements : ∀ word, machine.complement word = ~~~word)
    (testCode : (condition.code frame).result = .ok test)
    (innerCode : (codeOfBlock frame (next + 1) block).result = .ok (inner, free))
    (ran : machine.run test state = some after) (top : after.stack = value :: state.stack) :
    machine.Enters (whenFront frame next test) inner (whenBehind frame next) state ↔
      block ≠ [] ∧ value = -1 := by
  have straight : Straight (test ++ [.operate .not]) :=
    (Expression.straight_code testCode).append (.cons rfl .nil)
  have complemented : machine.run (test ++ [.operate .not]) state =
      some { after with stack := ~~~value :: state.stack } := by
    rw [run_append, ran, Option.bind_some, run_cons, execute, top, operate, complements]
    rfl
  have past := enters_past_iff straight complemented rfl
    (label_notMem_codeOfBlock innerCode (Nat.lt_succ_self next))
  rwa [List.append_assoc, complement_eq_zero_iff, Ne, codeOfBlock_eq_nil_iff innerCode] at past

/-- A conditional with a second block that is empty enters the first one exactly if the word of the
condition is not 0. -/
theorem enters_choose_iff (testCode : (condition.code frame).result = .ok test)
    (innerCode : (codeOfBlock frame (next + 3) block).result = .ok (inner, free))
    (ran : machine.run test state = some after) (top : after.stack = value :: state.stack) :
    machine.Enters (chooseFront frame next test) inner (chooseBehind frame next) state ↔
      block ≠ [] ∧ value ≠ 0 := by
  have different : ∀ m n, m ≠ n → frame.scope.label m ≠ frame.scope.label n :=
    fun m n other same => other (Scope.label_inj same)
  have chosen := enters_chosen_iff (Expression.straight_code testCode) ran top
    (label_notMem_codeOfBlock innerCode (by omega : next + 1 < next + 3))
    (label_notMem_codeOfBlock innerCode (by omega : next + 2 < next + 3))
    (different (next + 1) next (by omega)) (different (next + 2) next (by omega))
    (different (next + 2) (next + 1) (by omega))
  rwa [Ne, codeOfBlock_eq_nil_iff innerCode] at chosen

end Test

/-- An `if` without `else` and one with an empty `else` have the same test and, up to the numbers of
labels, the same block. The test always leaves a word, and the two statements agree on whether to
enter the block exactly if the block is empty or the word is 0 or -1. -/
theorem enters_when_iff_enters_choose_iff (machine : StackMachine (BitVec 16))
    (complements : ∀ word, machine.complement word = ~~~word) (frame : Frame)
    (condition : Expression) (block : List Statement) (next next' free free' : Nat)
    (code code' : List Instruction)
    (one : ((when condition block).code frame next).result = .ok (code, free))
    (two : ((choose condition block []).code frame next').result = .ok (code', free'))
    (state : MachineState (BitVec 16)) :
    ∃ test inner inner' after value, (condition.code frame).result = .ok test ∧
      machine.run test state = some after ∧ after.stack = value :: state.stack ∧
      (codeOfBlock frame (next + 1) block).result = .ok (inner, free) ∧
      (codeOfBlock frame (next' + 3) block).result = .ok (inner', free') ∧
      code = whenFront frame next test ++ inner ++ whenBehind frame next ∧
      code' = chooseFront frame next' test ++ inner' ++ chooseBehind frame next' ∧
      ((machine.Enters (whenFront frame next test) inner (whenBehind frame next) state ↔
          machine.Enters (chooseFront frame next' test) inner' (chooseBehind frame next') state) ↔
        block = [] ∨ value = 0 ∨ value = -1) := by
  obtain ⟨test, testCode, inner, innerCode, rfl⟩ := code_when.mp one
  obtain ⟨test', testCode', inner', middle, innerCode', second, secondCode, rfl⟩ :=
    code_choose.mp two
  obtain ⟨rfl, rfl⟩ := codeOfBlock_nil.mp secondCode
  obtain rfl : test = test' := Except.ok.inj (testCode.symm.trans testCode')
  obtain ⟨after, value, ran, top⟩ := Expression.exists_run_code machine testCode state
  refine ⟨test, inner, inner', after, value, testCode, ran, top, innerCode, innerCode', rfl, ?_, ?_⟩
  · simp [chooseFront, chooseBehind]
  · rw [enters_when_iff complements testCode innerCode ran top,
      enters_choose_iff testCode innerCode' ran top]
    by_cases empty : block = []
    · simp [empty]
    · by_cases isFalse : value = 0
      · simp [isFalse]
      · simp only [Ne, empty, isFalse, not_false_eq_true, true_and, iff_true, false_or]

/-- The constant `true` is one of the words on which they agree. -/
theorem enters_when_iff_enters_choose_iff_truth :
    wordMachine.Enters (whenFront arrayFrame 0 [.push .constant 0, .operate .not])
        [.push .constant 0, .ret] (whenBehind arrayFrame 0) arrayState ↔
      wordMachine.Enters (chooseFront arrayFrame 0 [.push .constant 0, .operate .not])
        [.push .constant 0, .ret] (chooseBehind arrayFrame 0) arrayState := by
  obtain ⟨test, inner, inner', after, value, testCode, ran, top, innerCode, innerCode', -, -,
    law⟩ := enters_when_iff_enters_choose_iff wordMachine (fun _ => rfl) arrayFrame .truth
      [.leave none] 0 0 1 3 _ _ rfl rfl arrayState
  cases testCode
  cases innerCode
  cases innerCode'
  cases ran
  cases top
  exact law.mpr (.inr (.inr rfl))

/-- The parameter `i`, whose word is 3, counts as false in `if (i) { return; }` and as true if an
empty `else` follows. -/
theorem enters_choose_not_when_three :
    ((when (.named "i") [.leave none]).code arrayFrame 0).result =
        .ok (whenFront arrayFrame 0 [.push .argument 1] ++ [.push .constant 0, .ret] ++
          whenBehind arrayFrame 0, 1) ∧
      ((choose (.named "i") [.leave none] []).code arrayFrame 0).result =
        .ok (chooseFront arrayFrame 0 [.push .argument 1] ++ [.push .constant 0, .ret] ++
          chooseBehind arrayFrame 0, 3) ∧
      ¬ wordMachine.Enters (whenFront arrayFrame 0 [.push .argument 1]) [.push .constant 0, .ret]
        (whenBehind arrayFrame 0) arrayState ∧
      wordMachine.Enters (chooseFront arrayFrame 0 [.push .argument 1]) [.push .constant 0, .ret]
        (chooseBehind arrayFrame 0) arrayState := by
  have testCode : ((Expression.named "i").code arrayFrame).result = .ok [.push .argument 1] := rfl
  have innerCode (next : Nat) : (codeOfBlock arrayFrame next [.leave none]).result =
      .ok ([.push .constant 0, .ret], next) := rfl
  have ran : wordMachine.run [.push .argument 1] arrayState =
      some { arrayState with stack := 3 :: arrayState.stack } := rfl
  refine ⟨rfl, rfl, ?_, ?_⟩
  · rw [enters_when_iff (fun _ => rfl) testCode (innerCode 1) ran rfl]
    rintro ⟨-, isTrue⟩
    revert isTrue
    decide
  · exact (enters_choose_iff testCode (innerCode 3) ran rfl).mpr ⟨List.cons_ne_nil _ _, by decide⟩

end Statement

end JackCompiler
