import JackCompiler.Proofs.Code.Emission
import JackCompiler.Proofs.Program.Mention
import JackCompiler.Proofs.Scope.Numbering

/-!
# The variables that code accesses

The code of a piece of program accesses exactly the variables that the piece mentions, in the same
order, each at the slot that the scope has for it. Every other instruction of it is plain: it keeps
to the workspace that all code shares, and is no header.
-/

set_option autoImplicit false

namespace JackCompiler

/-- Whether a segment holds the variables of a kind. -/
def Segment.holdsVariables : Segment → Bool
  | static | this | argument | localVar => true
  | constant | that | pointer | temp => false

/-- The slot of the variable that an instruction accesses. -/
def Instruction.slot? : Instruction → Option (Segment × Nat)
  | push segment index | pop segment index =>
    if segment.holdsVariables then some (segment, index) else none
  | _ => none

/-- Whether an instruction accesses no variable, and apart from the stack no more than the two
pointers, the word behind the second pointer and two words of temporary memory. It is not the header
of a subroutine. -/
def Instruction.Plain : Instruction → Prop
  | push .constant _ => True
  | push .pointer index | pop .pointer index => index ≤ 1
  | push .that index | pop .that index => index = 0
  | push .temp index | pop .temp index => index = elementTemp ∨ index = dropTemp
  | push _ _ | pop _ _ | function _ _ => False
  | operate _ | label _ | goto _ | ifGoto _ | call _ _ | ret => True

theorem Instruction.Plain.slot?_eq {instruction : Instruction} (plain : instruction.Plain) :
    instruction.slot? = none := by
  cases instruction with
  | push segment index =>
    have elsewhere : segment.holdsVariables = false := by
      cases segment <;> simp_all [Plain, Segment.holdsVariables]
    simp [slot?, elsewhere]
  | pop segment index =>
    have elsewhere : segment.holdsVariables = false := by
      cases segment <;> simp_all [Plain, Segment.holdsVariables]
    simp [slot?, elsewhere]
  | _ => rfl

/-- An instruction that accesses a variable moves a word from or to its slot. -/
theorem Instruction.eq_of_slot?_eq_some {instruction : Instruction} {segment : Segment}
    {index : Nat} (accessed : instruction.slot? = some (segment, index)) :
    instruction = push segment index ∨ instruction = pop segment index := by
  cases instruction with
  | push own position =>
    rw [slot?, Option.ite_none_right_eq_some] at accessed
    cases accessed.2
    exact .inl rfl
  | pop own position =>
    rw [slot?, Option.ite_none_right_eq_some] at accessed
    cases accessed.2
    exact .inr rfl
  | _ => cases accessed

theorem VariableKind.holdsVariables_segment (kind : VariableKind) :
    kind.segment.holdsVariables = true := by
  cases kind <;> rfl

theorem Variable.slot?_push (declared : Variable) :
    (Instruction.push declared.kind.segment declared.index).slot? = some declared.slot := by
  rw [Instruction.slot?, if_pos declared.kind.holdsVariables_segment, slot]

theorem Variable.slot?_pop (declared : Variable) :
    (Instruction.pop declared.kind.segment declared.index).slot? = some declared.slot := by
  rw [Instruction.slot?, if_pos declared.kind.holdsVariables_segment, slot]

/-- The slot that a scope has for what is mentioned. -/
def Mention.slot? (scope : Scope) : Mention → Option (Segment × Nat)
  | .variable name | .context name => (scope.resolve? name).map Variable.slot
  | .text _ | .flaw _ => none

/-- Whether code accesses the variables that are mentioned, in this order, and is plain apart from
that. -/
structure Accesses (scope : Scope) (mentions : List Mention) (code : List Instruction) : Prop where
  slots : code.filterMap Instruction.slot? = mentions.filterMap (Mention.slot? scope)
  plain : ∀ instruction ∈ code, instruction.slot? = none → instruction.Plain

namespace Accesses

variable {scope : Scope} {first second mentions : List Mention} {code more : List Instruction}
  {name : String} {declared : Variable}

theorem append (one : Accesses scope first code) (two : Accesses scope second more) :
    Accesses scope (first ++ second) (code ++ more) where
  slots := by rw [List.filterMap_append, List.filterMap_append, one.slots, two.slots]
  plain := by
    intro instruction among
    rcases List.mem_append.mp among with among | among
    · exact one.plain instruction among
    · exact two.plain instruction among

theorem filterMap_slot?_eq_nil (plain : ∀ instruction ∈ code, instruction.Plain) :
    code.filterMap Instruction.slot? = [] :=
  List.filterMap_eq_nil_iff.mpr fun instruction among => (plain instruction among).slot?_eq

/-- Plain code mentions nothing. -/
theorem of_plain (plain : ∀ instruction ∈ code, instruction.Plain) : Accesses scope [] code where
  slots := filterMap_slot?_eq_nil plain
  plain := fun instruction among _ => plain instruction among

theorem append_plain (one : Accesses scope mentions code)
    (plain : ∀ instruction ∈ more, instruction.Plain) : Accesses scope mentions (code ++ more) := by
  have both := one.append (of_plain plain)
  rw [List.append_nil] at both
  exact both

theorem plain_append (two : Accesses scope mentions more)
    (plain : ∀ instruction ∈ code, instruction.Plain) : Accesses scope mentions (code ++ more) :=
  (of_plain plain).append two

/-- An instruction that accesses the slot of what is mentioned. -/
theorem single {mention : Mention} {instruction : Instruction} {slot : Segment × Nat}
    (mentioned : mention.slot? scope = some slot) (accessed : instruction.slot? = some slot) :
    Accesses scope [mention] [instruction] where
  slots := by simp [mentioned, accessed]
  plain := by
    intro other among none
    rw [List.mem_singleton.mp among, accessed] at none
    cases none

theorem push (found : scope.resolve? name = some declared) :
    Accesses scope [.variable name] [.push declared.kind.segment declared.index] := by
  refine single ?_ declared.slot?_push
  rw [Mention.slot?, found, Option.map_some]

theorem pop (found : scope.resolve? name = some declared) :
    Accesses scope [.variable name] [.pop declared.kind.segment declared.index] := by
  refine single ?_ declared.slot?_pop
  rw [Mention.slot?, found, Option.map_some]

/-- The context of a call is accessed if it is a variable. -/
theorem pushContext (found : scope.resolve? name = some declared) :
    Accesses scope [.context name] [.push declared.kind.segment declared.index] := by
  refine single ?_ declared.slot?_push
  rw [Mention.slot?, found, Option.map_some]

/-- The context of a call is not accessed if it is no variable. -/
theorem skipContext (absent : scope.resolve? name = none) : Accesses scope [.context name] [] where
  slots := by rw [List.filterMap_cons, Mention.slot?, absent]; rfl
  plain := by
    intro instruction among
    cases among

/-- The characters of a string are no variables. -/
theorem text {value : String} (plain : ∀ instruction ∈ code, instruction.Plain) :
    Accesses scope [.text value] code where
  slots := filterMap_slot?_eq_nil plain
  plain := fun instruction among _ => plain instruction among

end Accesses

/-! ## Expressions -/

theorem plain_appendChars (characters : List Char) :
    ∀ instruction ∈ characters.flatMap appendCharCode, instruction.Plain := by
  intro instruction among
  obtain ⟨c, -, among⟩ := List.mem_flatMap.mp among
  simp only [appendCharCode, List.mem_cons, List.not_mem_nil, or_false] at among
  rcases among with rfl | rfl
  · trivial
  · trivial

theorem UnaryOperator.plain (operator : UnaryOperator) : operator.instruction.Plain := by
  cases operator <;> trivial

theorem BinaryOperator.plain (operator : BinaryOperator) : operator.instruction.Plain := by
  cases operator <;> trivial

namespace Expression

variable {frame : Frame}

theorem accesses_codeOfList {list : List Expression} {code : List Instruction}
    (each : ∀ expression ∈ list, ∀ code, (expression.code frame).result = .ok code →
      Accesses frame.scope expression.mentions code)
    (emitted : (codeOfList frame list).result = .ok code) :
    Accesses frame.scope (mentionsOfList list) code := by
  induction list generalizing code with
  | nil =>
    obtain rfl := codeOfList_nil.mp emitted
    exact .of_plain (by simp)
  | cons expression later ih =>
    rw [List.forall_mem_cons] at each
    obtain ⟨first, firstCode, more, moreCode, rfl⟩ := codeOfList_cons.mp emitted
    exact (each.1 first firstCode).append (ih each.2 moreCode)

/-- The code of an expression accesses the variables that the expression mentions. -/
theorem accesses_code {expression : Expression} {code : List Instruction}
    (emitted : (expression.code frame).result = .ok code) :
    Accesses frame.scope expression.mentions code := by
  induction expression generalizing code with
  | integer value =>
    obtain rfl := code_integer.mp emitted
    exact .of_plain (by simp [Instruction.Plain])
  | string value =>
    obtain ⟨-, -, rfl⟩ := code_string.mp emitted
    have new : ∀ instruction ∈ [Instruction.push .constant value.length, .call "String.new" 1],
        instruction.Plain := by simp [Instruction.Plain]
    exact (Accesses.text (plain_appendChars value.toList)).plain_append new
  | truth =>
    obtain rfl := code_truth.mp emitted
    exact .of_plain (by simp [Instruction.Plain])
  | zero =>
    obtain rfl := code_zero.mp emitted
    exact .of_plain (by simp [Instruction.Plain])
  | receiver =>
    obtain rfl := code_receiver.mp emitted
    exact .of_plain (by simp [Instruction.Plain])
  | named name =>
    obtain ⟨declared, found, rfl⟩ := code_named.mp emitted
    exact .push found
  | element array index ih =>
    obtain ⟨declared, found, position, indexCode, rfl⟩ := code_element.mp emitted
    have address := (Accesses.push found).append (ih indexCode)
    exact address.append_plain (by simp [Instruction.Plain])
  | unary operator operand ih =>
    obtain ⟨value, operandCode, op, rfl, rfl⟩ := code_unary.mp emitted
    have value := (ih operandCode).append_plain (List.forall_mem_singleton.mpr op.plain)
    simpa only [mentions, Mention.ofPart, List.append_nil] using value
  | binary left operator right ihLeft ihRight =>
    obtain ⟨first, firstCode, second, secondCode, op, rfl, rfl⟩ := code_binary.mp emitted
    have operands := (ihLeft firstCode).append (ihRight secondCode)
    have value := operands.append_plain (List.forall_mem_singleton.mpr op.plain)
    simpa only [mentions, Mention.ofPart, List.append_nil] using value
  | call callee arguments ih =>
    have listed (values : List Instruction)
        (valuesCode : (codeOfList frame arguments).result = .ok values) :
        Accesses frame.scope (mentionsOfList arguments) values :=
      accesses_codeOfList (fun argument among _ emitted => ih argument among emitted) valuesCode
    cases callee with
    | own name =>
      obtain ⟨values, valuesCode, rfl⟩ := code_ownCall.mp emitted
      have receiver : (Instruction.push .pointer 0).Plain := Nat.zero_le 1
      have passed := (listed values valuesCode).plain_append
        (List.forall_mem_singleton.mpr receiver)
      exact passed.append_plain (by simp [Instruction.Plain])
    | qualified context name =>
      cases found : frame.scope.resolve? context with
      | some object =>
        obtain ⟨values, valuesCode, rfl⟩ := (code_methodCall found).mp emitted
        have passed := (Accesses.pushContext found).append (listed values valuesCode)
        exact passed.append_plain (by simp [Instruction.Plain])
      | none =>
        obtain ⟨values, valuesCode, rfl⟩ := (code_functionCall found).mp emitted
        have passed := (Accesses.skipContext found).append (listed values valuesCode)
        exact passed.append_plain (by simp [Instruction.Plain])
  | flaw error => exact absurd emitted code_flaw

end Expression

/-! ## Statements -/

namespace Statement

variable {frame : Frame}

theorem accesses_codeOfBlock {block : List Statement} {code : List Instruction} {next free : Nat}
    (each : ∀ statement ∈ block, ∀ code next free,
      (statement.code frame next).result = .ok (code, free) →
        Accesses frame.scope statement.mentions code)
    (emitted : (codeOfBlock frame next block).result = .ok (code, free)) :
    Accesses frame.scope (mentionsOfBlock block) code := by
  induction block generalizing code next with
  | nil =>
    obtain ⟨rfl, -⟩ := codeOfBlock_nil.mp emitted
    exact .of_plain (by simp)
  | cons statement later ih =>
    rw [List.forall_mem_cons] at each
    obtain ⟨first, middle, firstCode, more, moreCode, rfl⟩ := codeOfBlock_cons.mp emitted
    exact (each.1 first next middle firstCode).append (ih each.2 moreCode)

/-- The code of a statement accesses the variables that the statement mentions. -/
theorem accesses_code {statement : Statement} {code : List Instruction} {next free : Nat}
    (emitted : (statement.code frame next).result = .ok (code, free)) :
    Accesses frame.scope statement.mentions code := by
  induction statement generalizing code next free with
  | assign name value =>
    obtain ⟨first, valueCode, declared, found, rfl, -⟩ := code_assign.mp emitted
    exact (Expression.accesses_code valueCode).append (.pop found)
  | assignElement array index value =>
    obtain ⟨declared, found, position, indexCode, second, valueCode, rfl, -⟩ :=
      code_assignElement.mp emitted
    have address := (Accesses.push found).append (Expression.accesses_code indexCode)
    have add : ∀ instruction ∈ [Instruction.operate .add], instruction.Plain := by
      simp [Instruction.Plain]
    have store : ∀ instruction ∈ [Instruction.pop .temp elementTemp, .pop .pointer 1,
        .push .temp elementTemp, .pop .that 0], instruction.Plain := by
      simp [Instruction.Plain]
    have value := ((Expression.accesses_code valueCode).plain_append add).append_plain store
    simpa only [mentions, List.append_assoc, List.cons_append, List.nil_append]
      using address.append value
  | when condition block ih =>
    obtain ⟨test, testCode, inner, innerCode, rfl⟩ := code_when.mp emitted
    have block := accesses_codeOfBlock (fun statement among _ _ _ h => ih statement among h)
      innerCode
    have skip : ∀ instruction ∈ [Instruction.operate .not, .ifGoto (frame.scope.label next)],
        instruction.Plain := by simp [Instruction.Plain]
    have front := (Expression.accesses_code testCode).append_plain skip
    exact (front.append block).append_plain (by simp [Instruction.Plain])
  | choose condition yes no ihYes ihNo =>
    obtain ⟨test, testCode, first, middle, firstCode, second, secondCode, rfl⟩ :=
      code_choose.mp emitted
    have yes := accesses_codeOfBlock (fun statement among _ _ _ h => ihYes statement among h)
      firstCode
    have no := accesses_codeOfBlock (fun statement among _ _ _ h => ihNo statement among h)
      secondCode
    have select : ∀ instruction ∈ [Instruction.ifGoto (frame.scope.label next),
        .goto (frame.scope.label (next + 1)), .label (frame.scope.label next)],
        instruction.Plain := by simp [Instruction.Plain]
    have across : ∀ instruction ∈ [Instruction.goto (frame.scope.label (next + 2)),
        .label (frame.scope.label (next + 1))], instruction.Plain := by simp [Instruction.Plain]
    have front := (Expression.accesses_code testCode).append_plain select
    have between := (front.append yes).append_plain across
    exact (between.append no).append_plain (by simp [Instruction.Plain])
  | loop condition block ih =>
    obtain ⟨test, testCode, inner, innerCode, rfl⟩ := code_loop.mp emitted
    have block := accesses_codeOfBlock (fun statement among _ _ _ h => ih statement among h)
      innerCode
    have again : ∀ instruction ∈ [Instruction.label (frame.scope.label next)],
        instruction.Plain := by simp [Instruction.Plain]
    have skip : ∀ instruction ∈ [Instruction.operate .not,
        .ifGoto (frame.scope.label (next + 1))], instruction.Plain := by simp [Instruction.Plain]
    have front := ((Expression.accesses_code testCode).plain_append again).append_plain skip
    exact (front.append block).append_plain (by simp [Instruction.Plain])
  | perform call =>
    obtain ⟨value, callCode, rfl, -⟩ := code_perform.mp emitted
    exact (Expression.accesses_code callCode).append_plain (by simp [Instruction.Plain])
  | leave value =>
    cases value with
    | some value =>
      obtain ⟨first, valueCode, rfl, -⟩ := code_leave_some.mp emitted
      exact (Expression.accesses_code valueCode).append_plain (by simp [Instruction.Plain])
    | none =>
      obtain ⟨rfl, -⟩ := code_leave_none.mp emitted
      exact .of_plain (by simp [Instruction.Plain])
  | flaw error => exact absurd emitted code_flaw

end Statement

end JackCompiler
