import JackCompiler.Proofs.Code.Emission
import JackCompiler.Proofs.Program.Induction

/-!
# Stack heights in generated code

Every position of generated code has a height that the stack has there, counted from the bottom of
the running subroutine. `Instruction.Moves` says which heights an instruction can be between, and
`Leads` that code leads from one height to another, instruction by instruction.

The code of an expression leads from any height to the next one, and the code of a statement from
zero to zero. The main result is `exists_heights_of_generate`; the tree it is generated from may be
malformed.
-/

set_option autoImplicit false

namespace JackCompiler

/-- The heights in front of an instruction and behind it. Jumps and labels are at an empty stack, as
are the headers of subroutines, and a return has nothing but the value it gives back. Behind an
instruction that never goes on to the next one the height is free. -/
inductive Instruction.Moves : Instruction → Nat → Nat → Prop
  | push (segment : Segment) (index height : Nat) :
      Moves (.push segment index) height (height + 1)
  | pop (segment : Segment) (index height : Nat) :
      Moves (.pop segment index) (height + 1) height
  | unary (operation : Operation) (height : Nat) (one : operation = .neg ∨ operation = .not) :
      Moves (.operate operation) (height + 1) (height + 1)
  | binary (operation : Operation) (height : Nat) (two : operation ≠ .neg ∧ operation ≠ .not) :
      Moves (.operate operation) (height + 2) (height + 1)
  | label (name : String) : Moves (.label name) 0 0
  | goto (target : String) (height : Nat) : Moves (.goto target) 0 height
  | ifGoto (target : String) : Moves (.ifGoto target) 1 0
  | function (name : String) (locals : Nat) : Moves (.function name locals) 0 0
  | call (name : String) (arguments height : Nat) :
      Moves (.call name arguments) (height + arguments) (height + 1)
  | ret (height : Nat) : Moves .ret 1 height

/-- Whether code leads from one height to another. -/
inductive Leads : List Instruction → Nat → Nat → Prop
  | nil (height : Nat) : Leads [] height height
  | cons {instruction : Instruction} {code : List Instruction} {first middle last : Nat}
      (moves : instruction.Moves first middle) (leads : Leads code middle last) :
      Leads (instruction :: code) first last

namespace Leads

variable {code first second : List Instruction} {low middle high : Nat}

theorem single {instruction : Instruction} (moves : instruction.Moves low high) :
    Leads [instruction] low high :=
  .cons moves (.nil high)

theorem append (one : Leads first low middle) (two : Leads second middle high) :
    Leads (first ++ second) low high := by
  induction one with
  | nil => exact two
  | cons moves _ ih => exact .cons moves (ih two)

/-- Code that leads from one height to another gives each of its positions a height. -/
theorem exists_heights (leads : Leads code low high) :
    ∃ height : Nat → Nat, height 0 = low ∧ height code.length = high ∧
      ∀ (position : Nat) (instruction : Instruction), code[position]? = some instruction →
        instruction.Moves (height position) (height (position + 1)) := by
  induction leads with
  | nil height =>
    refine ⟨fun _ => height, rfl, rfl, ?_⟩
    intro position instruction found
    simp at found
  | @cons instruction code low middle high moves _ ih =>
    obtain ⟨height, starts, ends, between⟩ := ih
    refine ⟨fun position => position.casesOn low height, rfl, ends, ?_⟩
    intro position found at_
    cases position with
    | zero =>
      simp only [List.getElem?_cons_zero, Option.some.injEq] at at_
      subst at_
      show instruction.Moves low (height 0)
      rw [starts]
      exact moves
    | succ position => exact between position found (by simpa using at_)

end Leads

/-! ## Expressions -/

theorem UnaryOperator.moves (operator : UnaryOperator) (height : Nat) :
    operator.instruction.Moves (height + 1) (height + 1) := by
  cases operator with
  | negate => exact .unary .neg height (.inl rfl)
  | complement => exact .unary .not height (.inr rfl)

/-- An operator between its operands takes two words and gives one, be it an operation or a call. -/
theorem BinaryOperator.moves (operator : BinaryOperator) (height : Nat) :
    operator.instruction.Moves (height + 2) (height + 1) := by
  cases operator with
  | mul => exact .call "Math.multiply" 2 height
  | div => exact .call "Math.divide" 2 height
  | add => exact .binary .add height (by decide)
  | sub => exact .binary .sub height (by decide)
  | and => exact .binary .and height (by decide)
  | or => exact .binary .or height (by decide)
  | lt => exact .binary .lt height (by decide)
  | gt => exact .binary .gt height (by decide)
  | eq => exact .binary .eq height (by decide)

theorem leads_appendChars (characters : List Char) (height : Nat) :
    Leads (characters.flatMap appendCharCode) (height + 1) (height + 1) := by
  induction characters with
  | nil => exact .nil _
  | cons c rest ih =>
    rw [List.flatMap_cons]
    refine Leads.append ?_ ih
    exact .cons (.push .constant c.toNat (height + 1))
      (.single (.call "String.appendChar" 2 height))

namespace Expression

variable {frame : Frame}

/-- The code of some expressions leads up by their number, if that of each leads up by one. -/
theorem leads_codeOfList {list : List Expression} {code : List Instruction}
    (each : ∀ expression ∈ list, ∀ code, (expression.code frame).result = .ok code →
      ∀ height, Leads code height (height + 1))
    (emitted : (codeOfList frame list).result = .ok code) (height : Nat) :
    Leads code height (height + list.length) := by
  induction list generalizing code height with
  | nil =>
    obtain rfl := codeOfList_nil.mp emitted
    exact .nil height
  | cons expression later ih =>
    rw [List.forall_mem_cons] at each
    obtain ⟨first, firstCode, more, moreCode, rfl⟩ := codeOfList_cons.mp emitted
    have one := each.1 first firstCode height
    have others := ih each.2 moreCode (height + 1)
    rw [List.length_cons, Nat.add_comm later.length 1, ← Nat.add_assoc]
    exact one.append others

/-- The code of an expression leads up by one word. -/
theorem leads_code {expression : Expression} {code : List Instruction}
    (emitted : (expression.code frame).result = .ok code) (height : Nat) :
    Leads code height (height + 1) := by
  induction expression generalizing code height with
  | integer value =>
    obtain rfl := code_integer.mp emitted
    exact .single (.push .constant value height)
  | string value =>
    obtain ⟨-, -, rfl⟩ := code_string.mp emitted
    exact .cons (.push .constant value.length height)
      (.cons (.call "String.new" 1 height) (leads_appendChars value.toList height))
  | truth =>
    obtain rfl := code_truth.mp emitted
    exact .cons (.push .constant 0 height) (.single (.unary .not height (.inr rfl)))
  | zero =>
    obtain rfl := code_zero.mp emitted
    exact .single (.push .constant 0 height)
  | receiver =>
    obtain rfl := code_receiver.mp emitted
    exact .single (.push .pointer 0 height)
  | named name =>
    obtain ⟨declared, -, rfl⟩ := code_named.mp emitted
    exact .single (.push _ _ height)
  | element array index ih =>
    obtain ⟨declared, -, position, indexCode, rfl⟩ := code_element.mp emitted
    have inner := ih indexCode (height + 1)
    have access : Leads [.operate .add, .pop .pointer 1, .push .that 0] (height + 2)
        (height + 1) :=
      .cons (.binary .add height (by decide)) (.cons (.pop .pointer 1 height)
        (.single (.push .that 0 height)))
    exact .append (.cons (.push _ _ height) inner) access
  | unary operator operand ih =>
    obtain ⟨value, operandCode, op, -, rfl⟩ := code_unary.mp emitted
    exact (ih operandCode height).append (.single (op.moves height))
  | binary left operator right ihLeft ihRight =>
    obtain ⟨first, firstCode, second, secondCode, op, -, rfl⟩ := code_binary.mp emitted
    have both := (ihLeft firstCode height).append (ihRight secondCode (height + 1))
    exact both.append (.single (op.moves height))
  | call callee arguments ih =>
    have listed (values : List Instruction)
        (valuesCode : (codeOfList frame arguments).result = .ok values) (height : Nat) :
        Leads values height (height + arguments.length) :=
      leads_codeOfList (fun argument among code emitted => ih argument among emitted) valuesCode
        height
    -- the receiver of a call counts as one more argument
    have behind (name : String) : Leads [.call name (arguments.length + 1)]
        (height + 1 + arguments.length) (height + 1) := by
      rw [Nat.add_assoc, Nat.add_comm 1]
      exact .single (.call name (arguments.length + 1) height)
    cases callee with
    | own name =>
      obtain ⟨values, valuesCode, rfl⟩ := code_ownCall.mp emitted
      exact .append (.cons (.push .pointer 0 height) (listed values valuesCode (height + 1)))
        (behind _)
    | qualified context name =>
      cases found : frame.scope.resolve? context with
      | some object =>
        obtain ⟨values, valuesCode, rfl⟩ := (code_methodCall found).mp emitted
        exact .append (.cons (.push _ _ height) (listed values valuesCode (height + 1)))
          (behind _)
      | none =>
        obtain ⟨values, valuesCode, rfl⟩ := (code_functionCall found).mp emitted
        exact (listed values valuesCode height).append
          (.single (.call _ arguments.length height))
  | flaw error => exact absurd emitted code_flaw

end Expression

/-! ## Statements -/

namespace Statement

variable {frame : Frame}

/-- The code of a block leads from an empty stack to an empty stack, if that of each statement
does. -/
theorem leads_codeOfBlock {block : List Statement} {code : List Instruction} {next free : Nat}
    (each : ∀ statement ∈ block, ∀ code next free,
      (statement.code frame next).result = .ok (code, free) → Leads code 0 0)
    (emitted : (codeOfBlock frame next block).result = .ok (code, free)) : Leads code 0 0 := by
  induction block generalizing code next free with
  | nil =>
    obtain ⟨rfl, rfl⟩ := codeOfBlock_nil.mp emitted
    exact .nil 0
  | cons statement later ih =>
    rw [List.forall_mem_cons] at each
    obtain ⟨first, middle, firstCode, more, moreCode, rfl⟩ := codeOfBlock_cons.mp emitted
    exact (each.1 first next middle firstCode).append (ih each.2 moreCode)

/-- The code of a statement leads from an empty stack to an empty stack. -/
theorem leads_code {statement : Statement} {code : List Instruction} {next free : Nat}
    (emitted : (statement.code frame next).result = .ok (code, free)) : Leads code 0 0 := by
  induction statement generalizing code next free with
  | assign name value =>
    obtain ⟨first, valueCode, declared, -, rfl, -⟩ := code_assign.mp emitted
    exact (Expression.leads_code valueCode 0).append (.single (.pop _ _ 0))
  | assignElement array index value =>
    obtain ⟨declared, -, position, indexCode, second, valueCode, rfl, -⟩ :=
      code_assignElement.mp emitted
    have address : Leads (.push declared.kind.segment declared.index :: position) 0 2 :=
      .cons (.push _ _ 0) (Expression.leads_code indexCode 1)
    have value : Leads (.operate .add :: second) 2 2 :=
      .cons (.binary .add 0 (by decide)) (Expression.leads_code valueCode 1)
    have store : Leads [.pop .temp elementTemp, .pop .pointer 1, .push .temp elementTemp,
        .pop .that 0] 2 0 :=
      .cons (.pop _ _ 1) (.cons (.pop _ _ 0) (.cons (.push _ _ 0) (.single (.pop _ _ 0))))
    exact (address.append value).append store
  | when condition block ih =>
    obtain ⟨test, testCode, inner, innerCode, rfl⟩ := code_when.mp emitted
    have block := leads_codeOfBlock (fun statement among _ _ _ h => ih statement among h) innerCode
    have skip : Leads [.operate .not, .ifGoto (frame.scope.label next)] 1 0 :=
      .cons (.unary .not 0 (.inr rfl)) (.single (.ifGoto _))
    exact (((Expression.leads_code testCode 0).append skip).append block).append
      (.single (.label _))
  | choose condition yes no ihYes ihNo =>
    obtain ⟨test, testCode, first, middle, firstCode, second, secondCode, rfl⟩ :=
      code_choose.mp emitted
    have yes := leads_codeOfBlock (fun statement among _ _ _ h => ihYes statement among h) firstCode
    have no := leads_codeOfBlock (fun statement among _ _ _ h => ihNo statement among h) secondCode
    have select : Leads [.ifGoto (frame.scope.label next), .goto (frame.scope.label (next + 1)),
        .label (frame.scope.label next)] 1 0 :=
      .cons (.ifGoto _) (.cons (.goto _ 0) (.single (.label _)))
    have across : Leads [.goto (frame.scope.label (next + 2)),
        .label (frame.scope.label (next + 1))] 0 0 :=
      .cons (.goto _ 0) (.single (.label _))
    have join : Leads [.goto (frame.scope.label (next + 2)),
        .label (frame.scope.label (next + 2))] 0 0 :=
      .cons (.goto _ 0) (.single (.label _))
    exact (((((Expression.leads_code testCode 0).append select).append yes).append across).append
      no).append join
  | loop condition block ih =>
    obtain ⟨test, testCode, inner, innerCode, rfl⟩ := code_loop.mp emitted
    have block := leads_codeOfBlock (fun statement among _ _ _ h => ih statement among h) innerCode
    have again : Leads (.label (frame.scope.label next) :: test) 0 1 :=
      .cons (.label _) (Expression.leads_code testCode 0)
    have skip : Leads [.operate .not, .ifGoto (frame.scope.label (next + 1))] 1 0 :=
      .cons (.unary .not 0 (.inr rfl)) (.single (.ifGoto _))
    have back : Leads [.goto (frame.scope.label next), .label (frame.scope.label (next + 1))] 0 0 :=
      .cons (.goto _ 0) (.single (.label _))
    exact ((again.append skip).append block).append back
  | perform call =>
    obtain ⟨value, callCode, rfl, -⟩ := code_perform.mp emitted
    exact (Expression.leads_code callCode 0).append (.single (.pop _ _ 0))
  | leave value =>
    cases value with
    | some value =>
      obtain ⟨first, valueCode, rfl, -⟩ := code_leave_some.mp emitted
      exact (Expression.leads_code valueCode 0).append (.single (.ret 0))
    | none =>
      obtain ⟨rfl, -⟩ := code_leave_none.mp emitted
      exact .cons (.push .constant 0 0) (.single (.ret 0))
  | flaw error => exact absurd emitted code_flaw

end Statement

/-! ## Subroutines and classes -/

theorem BodyPart.leads_codeOfParts {parts : List BodyPart} {frame : Frame} {next : Nat}
    {code : List Instruction} {inner : Scope}
    (emitted : (codeOfList frame next parts).result = .ok (code, inner)) : Leads code 0 0 := by
  induction parts generalizing frame next code with
  | nil =>
    obtain ⟨rfl, rfl⟩ := codeOfList_nil.mp emitted
    exact .nil 0
  | cons part later ih =>
    cases part with
    | declare declaration =>
      obtain ⟨scope, -, laterCode⟩ := codeOfList_declare.mp emitted
      exact ih laterCode
    | statements block =>
      obtain ⟨first, free, blockCode, more, moreCode, rfl⟩ := codeOfList_statements.mp emitted
      have block := Statement.leads_codeOfBlock
        (fun statement _ _ _ _ h => Statement.leads_code h) blockCode
      exact block.append (ih moreCode)
    | flaw error => exact absurd emitted codeOfList_flaw

theorem Subroutine.leads_prologue (fields : Nat) (kind : SubroutineKind) :
    Leads (prologue fields kind) 0 0 := by
  cases kind with
  | constructor =>
    exact .cons (.push .constant fields 0) (.cons (.call "Memory.alloc" 1 0)
      (.single (.pop .pointer 0 0)))
  | function => exact .nil 0
  | method => exact .cons (.push .argument 0 0) (.single (.pop .pointer 0 0))

theorem Subroutine.leads_subroutine {className name : String} {classScope : Scope}
    {subroutine : Subroutine} {code : List Instruction}
    (emitted : (subroutine.code className classScope name).result = .ok code) :
    Leads code 0 0 := by
  obtain ⟨scope, -, body, inner, bodyCode, rfl⟩ := Subroutine.code_eq_ok.mp emitted
  exact .append (.cons (.function _ _) (Subroutine.leads_prologue _ _))
    (BodyPart.leads_codeOfParts bodyCode)

theorem Member.leads_members {className : String} {classScope : Scope} {seen : List String}
    {members : List (Except CompileError Member)} {code : List Instruction}
    (emitted : (codeOfList className classScope seen members).result = .ok code) :
    Leads code 0 0 := by
  induction members generalizing seen code with
  | nil =>
    obtain rfl := codeOfList_nil.mp emitted
    exact .nil 0
  | cons member later ih =>
    obtain ⟨found, -, -, subroutine, -, first, firstCode, more, moreCode, rfl⟩ :=
      codeOfList_cons.mp emitted
    exact (Subroutine.leads_subroutine firstCode).append (ih moreCode)

/-- Whatever tree code is generated from, its positions have heights that begin and end with an
empty stack and that every instruction can be between. -/
theorem exists_heights_of_generate (tree : Tree) (code : List Instruction)
    (emitted : (generate tree).result = .ok code) :
    ∃ height : Nat → Nat, height 0 = 0 ∧ height code.length = 0 ∧
      ∀ (position : Nat) (instruction : Instruction), code[position]? = some instruction →
        instruction.Moves (height position) (height (position + 1)) := by
  obtain ⟨definition, -, classCode⟩ := generate_eq_ok.mp emitted
  obtain ⟨scope, -, membersCode⟩ := Class.code_eq_ok.mp classCode
  exact (Member.leads_members membersCode).exists_heights

/-! ## A loop that is left by a return -/

/-- The statements `while (~g(i)) { return i; } return 0;`. -/
def leavingLoop : List Tree :=
  let variableTerm : Tree := .node .term [.leaf ⟨.identifier, "i", 1⟩]
  let zero : Tree := .node .term [.leaf ⟨.integerConstant, "0", 1⟩]
  let call : Tree := .node .subroutineCall [.leaf ⟨.identifier, "g", 1⟩, .leaf ⟨.symbol, "(", 1⟩,
    .node .expressionList [.node .expression [variableTerm]], .leaf ⟨.symbol, ")", 1⟩]
  let condition : Tree := .node .expression
    [.node .term [.leaf ⟨.symbol, "~", 1⟩, .node .term [call]]]
  let giveBack (term : Tree) : Tree := .node .returnStatement [.leaf ⟨.keyword, "return", 1⟩,
    .node .expression [term], .leaf ⟨.symbol, ";", 1⟩]
  [.node .whileStatement [.leaf ⟨.keyword, "while", 1⟩, .leaf ⟨.symbol, "(", 1⟩, condition,
    .leaf ⟨.symbol, ")", 1⟩, .leaf ⟨.symbol, "\x7b", 1⟩, .node .statements [giveBack variableTerm],
    .leaf ⟨.symbol, "\x7d", 1⟩], giveBack zero]

/-- The class `A` with the method `int f(int i)` that consists of these statements. -/
def leavingClass : Tree :=
  .node .classDec [.leaf ⟨.keyword, "class", 1⟩, .leaf ⟨.identifier, "A", 1⟩,
    .leaf ⟨.symbol, "\x7b", 1⟩, .node .subroutineDec [.leaf ⟨.keyword, "method", 1⟩,
      .leaf ⟨.keyword, "int", 1⟩, .leaf ⟨.identifier, "f", 1⟩, .leaf ⟨.symbol, "(", 1⟩,
      .node .parameterList [.leaf ⟨.keyword, "int", 1⟩, .leaf ⟨.identifier, "i", 1⟩],
      .leaf ⟨.symbol, ")", 1⟩, .node .subroutineBody [.leaf ⟨.symbol, "\x7b", 1⟩,
        .node .statements leavingLoop, .leaf ⟨.symbol, "\x7d", 1⟩]],
    .leaf ⟨.symbol, "\x7d", 1⟩]

def leavingCode : List Instruction :=
  [.function "A.f" 0, .push .argument 0, .pop .pointer 0, .label "A_f_0", .push .pointer 0,
    .push .argument 1, .call "A.g" 2, .operate .not, .operate .not, .ifGoto "A_f_1",
    .push .argument 1, .ret, .goto "A_f_0", .label "A_f_1", .push .constant 0, .ret]

/-- There is a return inside the loop and one behind it. -/
theorem exists_heights_of_leavingClass :
    (generate leavingClass).result = .ok leavingCode ∧
      ∃ height : Nat → Nat, height 0 = 0 ∧ height leavingCode.length = 0 ∧
        ∀ (position : Nat) (instruction : Instruction), leavingCode[position]? = some instruction →
          instruction.Moves (height position) (height (position + 1)) := by
  have emitted : (generate leavingClass).result = .ok leavingCode := by rfl
  exact ⟨emitted, exists_heights_of_generate leavingClass leavingCode emitted⟩

end JackCompiler
