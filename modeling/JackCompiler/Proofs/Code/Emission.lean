import JackCompiler.Code.Class
import JackCompiler.Proofs.Outcome

/-!
# When code is emitted, and which

For each form of an expression and of a statement, when it has code and what that code is made of.
Everything proved about emitted code goes through the equivalences here and never opens the
generator again.
-/

set_option autoImplicit false

namespace JackCompiler

/-- Code that needs the slot of a variable exists exactly if the variable is declared and the code
exists for its slot. -/
theorem Frame.result_slot_bind_eq_ok {frame : Frame} {name : String} {α : Type}
    {f : Segment × Nat → Generated α} {a : α} :
    ((liftM (frame.slot name) : Generated (Segment × Nat)) >>= f).result = .ok a ↔
      ∃ declared, frame.scope.resolve? name = some declared ∧
        (f (declared.kind.segment, declared.index)).result = .ok a := by
  rw [Logged.result_bind_eq_ok, Logged.result_liftM]
  unfold slot Scope.require
  cases frame.scope.resolve? name with
  | none => simp [bind, Except.bind]
  | some declared => simp [bind, Except.bind, pure, Except.pure]

/-- The code of a character that is appended to a string. -/
def appendCharCode (c : Char) : List Instruction :=
  [.push .constant c.toNat, .call "String.appendChar" 2]

/-- Characters can be appended exactly if the machine can hold each of them. -/
theorem appendCode_eq_ok {characters : List Char} {code : List Instruction} :
    appendCode characters = .ok code ↔
      (∀ c ∈ characters, c.toNat ≤ maxWord) ∧ code = characters.flatMap appendCharCode := by
  induction characters generalizing code with
  | nil => simp [appendCode, eq_comm]
  | cons c rest ih =>
    unfold appendCode
    by_cases small : c.toNat ≤ maxWord
    · rw [if_pos small]
      cases h : appendCode rest with
      | error error =>
        have large : ¬ ∀ c ∈ rest, c.toNat ≤ maxWord := by
          intro all
          have found := ih.mpr ⟨all, rfl⟩
          rw [h] at found
          cases found
        simp [bind, Except.bind, large]
      | ok more =>
        obtain ⟨all, rfl⟩ := ih.mp h
        simp only [bind, Except.bind, pure, Except.pure, Except.ok.injEq, List.forall_mem_cons,
          List.flatMap_cons, appendCharCode]
        exact ⟨fun eq => ⟨⟨small, all⟩, eq.symm⟩, fun h => h.2.symm⟩
    · rw [if_neg small]
      simp [small]

namespace Expression

variable {frame : Frame} {code : List Instruction}

theorem code_integer {value : Nat} :
    ((integer value).code frame).result = .ok code ↔ code = [.push .constant value] := by
  simp [Expression.code, eq_comm]

/-- A string has code if the machine can hold its length and its characters. -/
theorem code_string {value : String} :
    ((string value).code frame).result = .ok code ↔
      value.length ≤ maxWord ∧ (∀ c ∈ value.toList, c.toNat ≤ maxWord) ∧
        code = .push .constant value.length :: .call "String.new" 1 ::
          value.toList.flatMap appendCharCode := by
  unfold Expression.code stringCode
  rw [Logged.result_ofExcept]
  by_cases short : value.length ≤ maxWord
  · rw [if_pos short]
    cases h : appendCode value.toList with
    | error error =>
      have large : ¬ ∀ c ∈ value.toList, c.toNat ≤ maxWord := by
        intro all
        have found := appendCode_eq_ok.mpr ⟨all, rfl⟩
        rw [h] at found
        cases found
      simp only [bind, Except.bind, large, false_and, and_false, reduceCtorEq]
    | ok more =>
      obtain ⟨all, rfl⟩ := appendCode_eq_ok.mp h
      simp only [bind, Except.bind, pure, Except.pure, Except.ok.injEq]
      exact ⟨fun eq => ⟨short, all, eq.symm⟩, fun h => h.2.2.symm⟩
  · rw [if_neg short]
    simp [short]

theorem code_truth :
    (truth.code frame).result = .ok code ↔ code = [.push .constant 0, .operate .not] := by
  simp [Expression.code, eq_comm]

theorem code_zero : (zero.code frame).result = .ok code ↔ code = [.push .constant 0] := by
  simp [Expression.code, eq_comm]

theorem code_receiver :
    (receiver.code frame).result = .ok code ↔ code = [.push .pointer 0] := by
  simp [Expression.code, eq_comm]

theorem code_named {name : String} :
    ((named name).code frame).result = .ok code ↔
      ∃ declared, frame.scope.resolve? name = some declared ∧
        code = [.push declared.kind.segment declared.index] := by
  unfold Expression.code
  rw [Frame.result_slot_bind_eq_ok]
  simp only [Logged.result_pure_eq_ok]

theorem code_element {array : String} {index : Expression} :
    ((element array index).code frame).result = .ok code ↔
      ∃ declared, frame.scope.resolve? array = some declared ∧
      ∃ position, (index.code frame).result = .ok position ∧
        code = .push declared.kind.segment declared.index :: position ++
          [.operate .add, .pop .pointer 1, .push .that 0] := by
  rw [Expression.code]
  rw [Frame.result_slot_bind_eq_ok]
  simp only [Logged.result_bind_eq_ok, Logged.result_pure_eq_ok]

theorem code_unary {operator : Except CompileError UnaryOperator} {operand : Expression} :
    ((unary operator operand).code frame).result = .ok code ↔
      ∃ value, (operand.code frame).result = .ok value ∧ ∃ op, operator = .ok op ∧
        code = value ++ [op.instruction] := by
  rw [Expression.code]
  simp only [Logged.result_bind_eq_ok, Logged.result_liftM, Logged.result_pure_eq_ok]

theorem code_binary {left right : Expression} {operator : Except CompileError BinaryOperator} :
    ((binary left operator right).code frame).result = .ok code ↔
      ∃ first, (left.code frame).result = .ok first ∧
      ∃ second, (right.code frame).result = .ok second ∧ ∃ op, operator = .ok op ∧
        code = first ++ second ++ [op.instruction] := by
  rw [Expression.code]
  simp only [Logged.result_bind_eq_ok, Logged.result_liftM, Logged.result_pure_eq_ok]

/-- A call of the class itself passes the receiver and then the arguments. -/
theorem code_ownCall {name : String} {arguments : List Expression} :
    ((call (.own name) arguments).code frame).result = .ok code ↔
      ∃ values, (codeOfList frame arguments).result = .ok values ∧
        code = .push .pointer 0 :: values ++
          [.call s!"{frame.className}.{name}" (arguments.length + 1)] := by
  rw [Expression.code]
  split
  · simp only [Logged.result_bind_eq_ok, Logged.result_report, Logged.result_pure_eq_ok, true_and,
      exists_const]
  · simp only [Logged.result_bind_eq_ok, Logged.result_pure_eq_ok]

/-- A call behind a variable passes the variable and then the arguments. -/
theorem code_methodCall {context name : String} {arguments : List Expression} {object : Variable}
    (h : frame.scope.resolve? context = some object) :
    ((call (.qualified context name) arguments).code frame).result = .ok code ↔
      ∃ values, (codeOfList frame arguments).result = .ok values ∧
        code = .push object.kind.segment object.index :: values ++
          [.call s!"{object.type}.{name}" (arguments.length + 1)] := by
  rw [Expression.code, h]
  simp only [Logged.result_bind_eq_ok, Logged.result_pure_eq_ok]

/-- A call behind any other name passes the arguments alone. -/
theorem code_functionCall {context name : String} {arguments : List Expression}
    (h : frame.scope.resolve? context = none) :
    ((call (.qualified context name) arguments).code frame).result = .ok code ↔
      ∃ values, (codeOfList frame arguments).result = .ok values ∧
        code = values ++ [.call s!"{context}.{name}" arguments.length] := by
  rw [Expression.code, h]
  simp only [Logged.result_bind_eq_ok, Logged.result_pure_eq_ok]

theorem code_flaw {error : CompileError} : ¬ ((flaw error).code frame).result = .ok code := by
  simp [Expression.code, Logged.fail]

theorem codeOfList_nil : (codeOfList frame []).result = .ok code ↔ code = [] := by
  simp [codeOfList, eq_comm]

theorem codeOfList_cons {expression : Expression} {later : List Expression} :
    (codeOfList frame (expression :: later)).result = .ok code ↔
      ∃ first, (expression.code frame).result = .ok first ∧
      ∃ more, (codeOfList frame later).result = .ok more ∧ code = first ++ more := by
  rw [codeOfList]
  simp only [Logged.result_bind_eq_ok, Logged.result_pure_eq_ok]

end Expression

namespace Statement

variable {frame : Frame} {code : List Instruction} {next free : Nat} {condition : Expression}

theorem code_assign {name : String} {value : Expression} :
    ((assign name value).code frame next).result = .ok (code, free) ↔
      ∃ first, (value.code frame).result = .ok first ∧
      ∃ declared, frame.scope.resolve? name = some declared ∧
        code = first ++ [.pop declared.kind.segment declared.index] ∧ free = next := by
  rw [Statement.code, Logged.result_bind_eq_ok]
  simp only [Frame.result_slot_bind_eq_ok, Logged.result_pure_eq_ok, Prod.mk.injEq]

theorem code_assignElement {array : String} {index value : Expression} :
    ((assignElement array index value).code frame next).result = .ok (code, free) ↔
      ∃ declared, frame.scope.resolve? array = some declared ∧
      ∃ position, (index.code frame).result = .ok position ∧
      ∃ second, (value.code frame).result = .ok second ∧
        code = .push declared.kind.segment declared.index :: position ++
          .operate .add :: second ++ [.pop .temp elementTemp, .pop .pointer 1,
            .push .temp elementTemp, .pop .that 0] ∧ free = next := by
  rw [Statement.code, Frame.result_slot_bind_eq_ok]
  simp only [Logged.result_bind_eq_ok, Logged.result_pure_eq_ok, Prod.mk.injEq]

/-- A conditional without a second block jumps behind its block if the condition fails. -/
theorem code_when {block : List Statement} :
    ((when condition block).code frame next).result = .ok (code, free) ↔
      ∃ test, (condition.code frame).result = .ok test ∧
      ∃ inner, (codeOfBlock frame (next + 1) block).result = .ok (inner, free) ∧
        code = test ++ [.operate .not, .ifGoto (frame.scope.label next)] ++ inner ++
          [.label (frame.scope.label next)] := by
  rw [Statement.code]
  simp only [Logged.result_bind_eq_ok, Logged.result_pure_eq_ok, Prod.mk.injEq, Prod.exists,
    exists_eq_right_right']

/-- A conditional with two blocks jumps to the one that the condition selects, and from both of them
behind the second. -/
theorem code_choose {yes no : List Statement} :
    ((choose condition yes no).code frame next).result = .ok (code, free) ↔
      ∃ test, (condition.code frame).result = .ok test ∧
      ∃ first middle, (codeOfBlock frame (next + 3) yes).result = .ok (first, middle) ∧
      ∃ second, (codeOfBlock frame middle no).result = .ok (second, free) ∧
        code = test ++ [.ifGoto (frame.scope.label next), .goto (frame.scope.label (next + 1)),
            .label (frame.scope.label next)] ++ first ++
          [.goto (frame.scope.label (next + 2)), .label (frame.scope.label (next + 1))] ++
          second ++ [.goto (frame.scope.label (next + 2)),
            .label (frame.scope.label (next + 2))] := by
  rw [Statement.code]
  simp only [Logged.result_bind_eq_ok, Logged.result_pure_eq_ok, Prod.mk.injEq, Prod.exists,
    exists_eq_right_right']

/-- A loop jumps behind its block if the condition fails, and behind the block back to the
condition. -/
theorem code_loop {block : List Statement} :
    ((loop condition block).code frame next).result = .ok (code, free) ↔
      ∃ test, (condition.code frame).result = .ok test ∧
      ∃ inner, (codeOfBlock frame (next + 2) block).result = .ok (inner, free) ∧
        code = .label (frame.scope.label next) :: test ++
          [.operate .not, .ifGoto (frame.scope.label (next + 1))] ++ inner ++
          [.goto (frame.scope.label next), .label (frame.scope.label (next + 1))] := by
  rw [Statement.code]
  simp only [Logged.result_bind_eq_ok, Logged.result_pure_eq_ok, Prod.mk.injEq, Prod.exists,
    exists_eq_right_right']

theorem code_perform {call : Expression} :
    ((perform call).code frame next).result = .ok (code, free) ↔
      ∃ value, (call.code frame).result = .ok value ∧
        code = value ++ [.pop .temp dropTemp] ∧ free = next := by
  rw [Statement.code]
  simp only [Logged.result_bind_eq_ok, Logged.result_pure_eq_ok, Prod.mk.injEq]

theorem code_leave_some {value : Expression} :
    ((leave (some value)).code frame next).result = .ok (code, free) ↔
      ∃ first, (value.code frame).result = .ok first ∧ code = first ++ [.ret] ∧ free = next := by
  rw [Statement.code]
  simp only [Logged.result_bind_eq_ok, Logged.result_pure_eq_ok, Prod.mk.injEq]

theorem code_leave_none :
    ((leave none).code frame next).result = .ok (code, free) ↔
      code = [.push .constant 0, .ret] ∧ free = next := by
  rw [Statement.code]
  simp only [Logged.result_pure_eq_ok, Prod.mk.injEq]

theorem code_flaw {error : CompileError} :
    ¬ ((flaw error).code frame next).result = .ok (code, free) := by
  simp [Statement.code, Logged.fail]

theorem codeOfBlock_nil :
    (codeOfBlock frame next []).result = .ok (code, free) ↔ code = [] ∧ free = next := by
  rw [codeOfBlock]
  simp only [Logged.result_pure_eq_ok, Prod.mk.injEq]

theorem codeOfBlock_cons {statement : Statement} {later : List Statement} :
    (codeOfBlock frame next (statement :: later)).result = .ok (code, free) ↔
      ∃ first middle, (statement.code frame next).result = .ok (first, middle) ∧
      ∃ more, (codeOfBlock frame middle later).result = .ok (more, free) ∧
        code = first ++ more := by
  rw [codeOfBlock]
  simp only [Logged.result_bind_eq_ok, Logged.result_pure_eq_ok, Prod.mk.injEq, Prod.exists,
    exists_eq_right_right']

end Statement

namespace BodyPart

variable {frame : Frame} {next : Nat} {later : List BodyPart} {code : List Instruction}
  {inner : Scope}

theorem codeOfList_nil :
    (codeOfList frame next []).result = .ok (code, inner) ↔ code = [] ∧ inner = frame.scope := by
  rw [codeOfList]
  simp only [Logged.result_pure_eq_ok, Prod.mk.injEq]

theorem codeOfList_declare {declaration : Declaration} :
    (codeOfList frame next (declare declaration :: later)).result = .ok (code, inner) ↔
      ∃ scope, frame.scope.declareAll declaration.type .localVar declaration.names = .ok scope ∧
        (codeOfList { frame with scope := scope } next later).result = .ok (code, inner) := by
  rw [codeOfList]
  simp only [Logged.result_bind_eq_ok, Logged.result_liftM]

/-- The labels of a block are numbered on from those in front of it. -/
theorem codeOfList_statements {block : List Statement} :
    (codeOfList frame next (statements block :: later)).result = .ok (code, inner) ↔
      ∃ first free, (Statement.codeOfBlock frame next block).result = .ok (first, free) ∧
      ∃ more, (codeOfList frame free later).result = .ok (more, inner) ∧ code = first ++ more := by
  rw [codeOfList]
  simp only [Logged.result_bind_eq_ok, Logged.result_pure_eq_ok, Prod.mk.injEq, Prod.exists,
    exists_eq_right_right']

theorem codeOfList_flaw {error : CompileError} :
    ¬ (codeOfList frame next (flaw error :: later)).result = .ok (code, inner) := by
  simp [codeOfList, Logged.fail]

end BodyPart

/-- The code of a subroutine is a header with the number of its locals, the beginning that belongs
to its kind, and the code of its body. -/
theorem Subroutine.code_eq_ok {className name : String} {classScope : Scope}
    {subroutine : Subroutine} {code : List Instruction} :
    (subroutine.code className classScope name).result = .ok code ↔
      ∃ scope, subroutine.scope className classScope name = .ok scope ∧
      ∃ body inner, (BodyPart.codeOfList ⟨className, subroutine.kind, scope⟩
        scope.inner.nextLabel subroutine.body).result = .ok (body, inner) ∧
        code = .function scope.qualifiedName (inner.count .localVar) ::
          prologue (classScope.count .field) subroutine.kind ++ body := by
  rw [Subroutine.code]
  simp only [Logged.result_bind_eq_ok, Logged.result_liftM, Logged.result_report,
    Logged.result_pure_eq_ok, Prod.exists, true_and, exists_const]

namespace Member

variable {className : String} {classScope : Scope} {seen : List String}
  {later : List (Except CompileError Member)} {code : List Instruction}

theorem codeOfList_nil :
    (codeOfList className classScope seen []).result = .ok code ↔ code = [] := by
  rw [codeOfList]
  simp only [Logged.result_pure_eq_ok]

/-- A subroutine has code if its name is new. -/
theorem codeOfList_cons {member : Except CompileError Member} :
    (codeOfList className classScope seen (member :: later)).result = .ok code ↔
      ∃ found, member = .ok found ∧ found.name ∉ seen ∧
      ∃ subroutine, found.subroutine = .ok subroutine ∧
      ∃ first, (subroutine.code className classScope found.name).result = .ok first ∧
      ∃ more, (codeOfList className classScope (found.name :: seen) later).result = .ok more ∧
        code = first ++ more := by
  rw [codeOfList, Logged.result_bind_eq_ok]
  refine exists_congr fun found => and_congr_right fun _ => ?_
  by_cases h : found.name ∈ seen
  · simp [h]
  · simp only [List.contains_iff_mem, h, if_false, not_false_eq_true, true_and,
      Logged.result_bind_eq_ok, Logged.result_liftM, Logged.result_pure_eq_ok]

end Member

theorem Class.code_eq_ok {definition : Class} {code : List Instruction} :
    definition.code.result = .ok code ↔
      ∃ scope, (Scope.root definition.name).declareVariables definition.declarations = .ok scope ∧
        (Member.codeOfList definition.name scope [] definition.members).result = .ok code := by
  rw [Class.code]
  simp only [Logged.result_bind_eq_ok, Logged.result_liftM, Logged.result_report,
    Logged.result_pure_eq_ok, true_and, exists_const, exists_eq_right']

theorem generate_eq_ok {tree : Tree} {code : List Instruction} :
    (generate tree).result = .ok code ↔
      ∃ definition, Class.ofTree tree = .ok definition ∧ definition.code.result = .ok code := by
  rw [generate]
  simp only [Logged.result_bind_eq_ok, Logged.result_liftM]

end JackCompiler
