import JackCompiler.Proofs.Code.Emission
import JackCompiler.Proofs.Program.Induction

/-!
# Straight-line code

The code of an expression has no labels, no jumps and no headers, and it never leaves the
subroutine.
-/

set_option autoImplicit false

namespace JackCompiler

/-- Whether an instruction is one of straight-line code. -/
def Instruction.isStraight : Instruction → Bool
  | .push _ _ | .pop _ _ | .operate _ | .call _ _ => true
  | .label _ | .goto _ | .ifGoto _ | .function _ _ | .ret => false

/-- Whether code has only instructions of straight-line code. -/
def Straight (code : List Instruction) : Prop :=
  ∀ instruction ∈ code, instruction.isStraight = true

namespace Straight

variable {first second : List Instruction}

theorem nil : Straight [] := by
  intro instruction among
  cases among

theorem cons {instruction : Instruction} {code : List Instruction}
    (one : instruction.isStraight = true) (others : Straight code) :
    Straight (instruction :: code) :=
  List.forall_mem_cons.mpr ⟨one, others⟩

theorem append (one : Straight first) (two : Straight second) : Straight (first ++ second) := by
  intro instruction among
  rcases List.mem_append.mp among with among | among
  · exact one instruction among
  · exact two instruction among

end Straight

theorem UnaryOperator.isStraight (operator : UnaryOperator) :
    operator.instruction.isStraight = true := by
  cases operator <;> rfl

theorem BinaryOperator.isStraight (operator : BinaryOperator) :
    operator.instruction.isStraight = true := by
  cases operator <;> rfl

namespace Expression

variable {frame : Frame}

theorem straight_codeOfList {list : List Expression} {code : List Instruction}
    (each : ∀ expression ∈ list, ∀ code, (expression.code frame).result = .ok code →
      Straight code)
    (emitted : (codeOfList frame list).result = .ok code) : Straight code := by
  induction list generalizing code with
  | nil =>
    obtain rfl := codeOfList_nil.mp emitted
    exact .nil
  | cons expression later ih =>
    rw [List.forall_mem_cons] at each
    obtain ⟨first, firstCode, more, moreCode, rfl⟩ := codeOfList_cons.mp emitted
    exact (each.1 first firstCode).append (ih each.2 moreCode)

/-- The code of an expression is straight-line code. -/
theorem straight_code {expression : Expression} {code : List Instruction}
    (emitted : (expression.code frame).result = .ok code) : Straight code := by
  induction expression generalizing code with
  | integer value =>
    obtain rfl := code_integer.mp emitted
    exact .cons rfl .nil
  | string value =>
    obtain ⟨-, -, rfl⟩ := code_string.mp emitted
    refine .cons rfl (.cons rfl ?_)
    intro instruction among
    obtain ⟨c, -, among⟩ := List.mem_flatMap.mp among
    simp only [appendCharCode, List.mem_cons, List.not_mem_nil, or_false] at among
    rcases among with rfl | rfl <;> rfl
  | truth =>
    obtain rfl := code_truth.mp emitted
    exact .cons rfl (.cons rfl .nil)
  | zero =>
    obtain rfl := code_zero.mp emitted
    exact .cons rfl .nil
  | receiver =>
    obtain rfl := code_receiver.mp emitted
    exact .cons rfl .nil
  | named name =>
    obtain ⟨declared, -, rfl⟩ := code_named.mp emitted
    exact .cons rfl .nil
  | element array index ih =>
    obtain ⟨declared, -, position, indexCode, rfl⟩ := code_element.mp emitted
    exact .append (.cons rfl (ih indexCode)) (.cons rfl (.cons rfl (.cons rfl .nil)))
  | unary operator operand ih =>
    obtain ⟨value, operandCode, op, -, rfl⟩ := code_unary.mp emitted
    exact (ih operandCode).append (.cons op.isStraight .nil)
  | binary left operator right ihLeft ihRight =>
    obtain ⟨first, firstCode, second, secondCode, op, -, rfl⟩ := code_binary.mp emitted
    exact ((ihLeft firstCode).append (ihRight secondCode)).append (.cons op.isStraight .nil)
  | call callee arguments ih =>
    have listed (values : List Instruction)
        (valuesCode : (codeOfList frame arguments).result = .ok values) : Straight values :=
      straight_codeOfList (fun argument among _ emitted => ih argument among emitted) valuesCode
    cases callee with
    | own name =>
      obtain ⟨values, valuesCode, rfl⟩ := code_ownCall.mp emitted
      exact .append (.cons rfl (listed values valuesCode)) (.cons rfl .nil)
    | qualified context name =>
      cases found : frame.scope.resolve? context with
      | some object =>
        obtain ⟨values, valuesCode, rfl⟩ := (code_methodCall found).mp emitted
        exact .append (.cons rfl (listed values valuesCode)) (.cons rfl .nil)
      | none =>
        obtain ⟨values, valuesCode, rfl⟩ := (code_functionCall found).mp emitted
        exact .append (listed values valuesCode) (.cons rfl .nil)
  | flaw error => exact absurd emitted code_flaw

end Expression

namespace Statement

variable {frame : Frame}

/-- Whether a statement takes no labels and its code, where it has any, is of some shape. -/
def Unlabelled (frame : Frame) (shape : List Instruction → Prop) (statement : Statement) : Prop :=
  ∀ next code free, (statement.code frame next).result = .ok (code, free) →
    free = next ∧ shape code ∧
      ∀ number, (statement.code frame number).result = .ok (code, number)

theorem unlabelled_assign (name : String) (value : Expression) :
    (assign name value).Unlabelled frame Straight := by
  intro next code free emitted
  obtain ⟨first, firstCode, declared, found, rfl, same⟩ := code_assign.mp emitted
  refine ⟨same, (Expression.straight_code firstCode).append (.cons rfl .nil), ?_⟩
  intro number
  exact code_assign.mpr ⟨first, firstCode, declared, found, rfl, rfl⟩

theorem unlabelled_assignElement (array : String) (index value : Expression) :
    (assignElement array index value).Unlabelled frame Straight := by
  intro next code free emitted
  obtain ⟨declared, found, position, positionCode, second, secondCode, rfl, same⟩ :=
    code_assignElement.mp emitted
  have store : Straight [.pop .temp elementTemp, .pop .pointer 1, .push .temp elementTemp,
      .pop .that 0] := .cons rfl (.cons rfl (.cons rfl (.cons rfl .nil)))
  have add : Straight (.operate .add :: second) := .cons rfl (Expression.straight_code secondCode)
  have address : Straight (.push declared.kind.segment declared.index :: position) :=
    .cons rfl (Expression.straight_code positionCode)
  refine ⟨same, (address.append add).append store, ?_⟩
  intro number
  exact code_assignElement.mpr
    ⟨declared, found, position, positionCode, second, secondCode, rfl, rfl⟩

theorem unlabelled_perform (call : Expression) : (perform call).Unlabelled frame Straight := by
  intro next code free emitted
  obtain ⟨value, valueCode, rfl, same⟩ := code_perform.mp emitted
  refine ⟨same, (Expression.straight_code valueCode).append (.cons rfl .nil), ?_⟩
  intro number
  exact code_perform.mpr ⟨value, valueCode, rfl, rfl⟩

/-- A return ends with the only instruction that leaves the subroutine. -/
theorem unlabelled_leave (value : Option Expression) :
    (leave value).Unlabelled frame fun code =>
      ∃ front, Straight front ∧ code = front ++ [.ret] := by
  intro next code free emitted
  cases value with
  | none =>
    obtain ⟨rfl, same⟩ := code_leave_none.mp emitted
    refine ⟨same, ⟨[.push .constant 0], .cons rfl .nil, rfl⟩, ?_⟩
    intro number
    exact code_leave_none.mpr ⟨rfl, rfl⟩
  | some value =>
    obtain ⟨first, firstCode, rfl, same⟩ := code_leave_some.mp emitted
    refine ⟨same, ⟨first, Expression.straight_code firstCode, rfl⟩, ?_⟩
    intro number
    exact code_leave_some.mpr ⟨first, firstCode, rfl, rfl⟩

end Statement

end JackCompiler
