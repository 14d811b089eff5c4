import JackCompiler.Proofs.Code.Diagnosis
import JackCompiler.Proofs.Code.Text
import JackCompiler.Proofs.Program.Callee
import JackCompiler.Proofs.Token.Cut
import JackCompiler.Proofs.Token.Spacing
import JackCompiler.Proofs.Scope.Declaration

/-!
# The names in generated code

A label carries the names of a class and of a subroutine, and a call names a subroutine of the
runtime, of a class that is written out, or of the class that a variable is declared with. All of
these come from tokens that are no string constants, so no name in the code of a source has a blank
in it (`namesBlankFree_of_compile`). In particular none has a newline, and the code can be read back
from its text.
-/

set_option autoImplicit false

namespace JackCompiler

/-! ## Texts without blanks -/

/-- Whether a text has no blank character. -/
def BlankFree (text : String) : Prop := ∀ c ∈ text.toList, isBlank c = false

instance decidableBlankFree (text : String) : Decidable (BlankFree text) :=
  List.decidableBAll (fun c => isBlank c = false) text.toList

namespace BlankFree

variable {first second third : String}

theorem append (one : BlankFree first) (two : BlankFree second) : BlankFree (first ++ second) := by
  intro c among
  rw [String.toList_append, List.mem_append] at among
  exact among.elim (one c) (two c)

/-- Names around a dot are one name. -/
theorem qualified (one : BlankFree first) (two : BlankFree second) :
    BlankFree s!"{first}.{second}" := by
  have dot : BlankFree "." := by decide
  exact (one.append dot).append two

theorem number (n : Nat) : BlankFree (toString n) := by
  intro c among
  have range := code_of_identifierChar (.inr (isDigit_of_mem_toString among))
  rw [Bool.eq_false_iff]
  intro blank
  rcases code_of_isBlank blank with low | high
  · omega
  · omega

end BlankFree

/-- A token that is no string constant has no blank. -/
theorem Token.WellFormed.blankFree {token : Token} (wellFormed : token.WellFormed)
    (noString : token.kind ≠ .stringConstant) : BlankFree token.text := by
  unfold Token.WellFormed at wellFormed
  by_cases symbol : token.kind = .symbol
  · rw [symbol] at wellFormed
    unfold BlankFree
    generalize token.text.toList = lexeme at wellFormed
    cases wellFormed with
    | symbol c among => simpa using (symbol_chars among).2.2.2
  · intro c among
    exact (isWordChar_iff.mp ((wellFormed.word symbol noString).2 c among)).1

/-- Whether no name in code has a blank. -/
def NamesBlankFree (code : List Instruction) : Prop :=
  ∀ instruction ∈ code, ∀ name ∈ instruction.name?, BlankFree name

section Lists

variable {code first second : List Instruction} {instruction : Instruction}

@[simp] theorem namesBlankFree_nil : NamesBlankFree [] := by simp [NamesBlankFree]

@[simp] theorem namesBlankFree_cons : NamesBlankFree (instruction :: code) ↔
    (∀ name ∈ instruction.name?, BlankFree name) ∧ NamesBlankFree code := by
  simp [NamesBlankFree]

@[simp] theorem namesBlankFree_append :
    NamesBlankFree (first ++ second) ↔ NamesBlankFree first ∧ NamesBlankFree second := by
  simp [NamesBlankFree, or_imp, forall_and]

theorem NamesBlankFree.namesOnOneLine (blankFree : NamesBlankFree code) : NamesOnOneLine code := by
  intro instruction among name isName newline
  have noBlank := blankFree instruction among name isName '\n' newline
  cases noBlank

end Lists

@[simp] theorem Instruction.name?_push (segment : Segment) (index : Nat) :
    (push segment index).name? = none := rfl

/-! ## Scopes -/

/-- Whether neither the name of a level nor the type of any of its variables has a blank. -/
structure Level.Unbroken (level : Level) : Prop where
  name : BlankFree level.name
  types : ∀ entry ∈ level.entries, BlankFree entry.2.type

/-- Whether no level of a scope has blanks in its name or its types. -/
def Scope.Unbroken (scope : Scope) : Prop := ∀ level ∈ scope.inner :: scope.outer, level.Unbroken

namespace Scope

variable {scope scope' : Scope}

theorem Unbroken.root {name : String} (unbroken : BlankFree name) :
    (Scope.root name).Unbroken := by
  intro level among
  obtain rfl := List.mem_singleton.mp among
  exact ⟨unbroken, List.forall_mem_nil _⟩

theorem Unbroken.child (unbroken : scope.Unbroken) {name : String}
    (own : BlankFree name) : (Scope.child name scope).Unbroken := by
  intro level among
  rcases List.mem_cons.mp among with rfl | among
  · exact ⟨own, List.forall_mem_nil _⟩
  · exact unbroken level among

/-- What is found under a name has a type without blanks. -/
theorem Unbroken.type (unbroken : scope.Unbroken) {name : String} {declared : Variable}
    (found : scope.resolve? name = some declared) : BlankFree declared.type := by
  obtain ⟨level, among, found⟩ := List.exists_of_findSome?_eq_some found
  exact (unbroken level among).types _ (Level.mem_entries_of_find? found)

theorem Unbroken.label (unbroken : scope.Unbroken) (number : Nat) :
    BlankFree (scope.label number) := by
  have underscore : BlankFree "_" := by decide
  obtain ⟨inner, outer⟩ := scope
  have own := (unbroken inner List.mem_cons_self).name
  cases outer with
  | nil => exact (own.append underscore).append (.number number)
  | cons level outer =>
    have around := (unbroken level (by simp)).name
    exact (((around.append underscore).append own).append underscore).append (.number number)

theorem Unbroken.qualifiedName (unbroken : scope.Unbroken) :
    BlankFree scope.qualifiedName := by
  obtain ⟨inner, outer⟩ := scope
  have own := (unbroken inner List.mem_cons_self).name
  cases outer with
  | nil => exact own
  | cons level outer => exact (unbroken level (by simp)).name.qualified own

/-- A declaration with a type without blanks keeps a scope without them. -/
theorem Unbroken.declare (unbroken : scope.Unbroken) {name type : String} {kind : VariableKind}
    {declared : Variable} (own : BlankFree type)
    (ok : scope.declare name type kind = .ok (declared, scope')) : scope'.Unbroken := by
  rw [Scope.declare] at ok
  cases found : scope.inner.find? name with
  | some old =>
    rw [found] at ok
    cases ok
  | none =>
    rw [found] at ok
    cases ok
    intro level among
    rcases List.mem_cons.mp among with rfl | among
    · have inner := unbroken scope.inner List.mem_cons_self
      exact ⟨inner.name, List.forall_mem_cons.mpr ⟨own, inner.types⟩⟩
    · exact unbroken level (List.mem_cons_of_mem _ among)

theorem Unbroken.declareAll (unbroken : scope.Unbroken) {type : String} {kind : VariableKind}
    {names : List String} (own : BlankFree type)
    (ok : scope.declareAll type kind names = .ok scope') : scope'.Unbroken := by
  induction names generalizing scope with
  | nil =>
    cases ok
    exact unbroken
  | cons name later ih =>
    obtain ⟨⟨declared, next⟩, first, rest⟩ := except_bind_eq_ok.mp ok
    exact ih (unbroken.declare own first) rest

theorem Unbroken.declareParameters (unbroken : scope.Unbroken)
    {parameters : List (Except CompileError Parameter)}
    (types : ∀ parameter, .ok parameter ∈ parameters → BlankFree parameter.type)
    (ok : scope.declareParameters parameters = .ok scope') : scope'.Unbroken := by
  induction parameters generalizing scope with
  | nil =>
    cases ok
    exact unbroken
  | cons parameter later ih =>
    obtain ⟨own, rfl, rest⟩ := except_bind_eq_ok.mp ok
    obtain ⟨⟨declared, next⟩, first, rest⟩ := except_bind_eq_ok.mp rest
    refine ih (unbroken.declare (types own List.mem_cons_self) first) ?_ rest
    exact fun parameter among => types parameter (List.mem_cons_of_mem _ among)

theorem Unbroken.declareVariables (unbroken : scope.Unbroken)
    {declarations : List (Except CompileError (VariableKind × Declaration))}
    (types : ∀ part, .ok part ∈ declarations → BlankFree part.2.type)
    (ok : scope.declareVariables declarations = .ok scope') : scope'.Unbroken := by
  induction declarations generalizing scope with
  | nil =>
    cases ok
    exact unbroken
  | cons declaration later ih =>
    obtain ⟨⟨kind, own⟩, rfl, rest⟩ := except_bind_eq_ok.mp ok
    obtain ⟨next, first, rest⟩ := except_bind_eq_ok.mp rest
    refine ih (unbroken.declareAll (types (kind, own) List.mem_cons_self) first) ?_ rest
    exact fun part among => types part (List.mem_cons_of_mem _ among)

end Scope

/-! ## Code of programs whose names have no blanks -/

/-- Whether a frame has no blanks in its names and types. -/
structure Frame.Unbroken (frame : Frame) : Prop where
  className : BlankFree frame.className
  scope : frame.scope.Unbroken

/-- Whether the names of callees have no blanks. -/
def CalleesBlankFree (callees : List Callee) : Prop :=
  ∀ callee ∈ callees, ∀ name ∈ callee.names, BlankFree name

section Callees

variable {first second : List Callee} {callee : Callee}

@[simp] theorem calleesBlankFree_cons : CalleesBlankFree (callee :: second) ↔
    (∀ name ∈ callee.names, BlankFree name) ∧ CalleesBlankFree second := by
  simp [CalleesBlankFree]

@[simp] theorem calleesBlankFree_append : CalleesBlankFree (first ++ second) ↔
    CalleesBlankFree first ∧ CalleesBlankFree second := by
  simp [CalleesBlankFree, or_imp, forall_and]

theorem calleesBlankFree_flatMap {α : Type} {list : List α} {f : α → List Callee} :
    CalleesBlankFree (list.flatMap f) ↔ ∀ a ∈ list, CalleesBlankFree (f a) := by
  simp only [CalleesBlankFree, List.mem_flatMap, forall_exists_index, and_imp]
  exact ⟨fun h a among callee inside => h callee a among inside,
    fun h callee a among inside => h a among callee inside⟩

end Callees

@[simp] theorem UnaryOperator.name?_instruction (operator : UnaryOperator) :
    operator.instruction.name? = none := by
  cases operator <;> rfl

/-- The operators that are calls call the runtime. -/
theorem BinaryOperator.blankFree_instruction (operator : BinaryOperator) :
    ∀ name ∈ operator.instruction.name?, BlankFree name := by
  cases operator <;> simp [instruction, Instruction.name?] <;> decide

theorem namesBlankFree_appendChars (characters : List Char) :
    NamesBlankFree (characters.flatMap appendCharCode) := by
  have runtime : BlankFree "String.appendChar" := by decide
  intro instruction among name isName
  obtain ⟨c, -, among⟩ := List.mem_flatMap.mp among
  simp only [appendCharCode, List.mem_cons, List.not_mem_nil, or_false] at among
  rcases among with rfl | rfl
  · cases isName
  · cases isName
    exact runtime

variable {frame : Frame}

/-- Consecutive expressions each of which has code without blanks in its names have such code. -/
theorem Expression.namesBlankFree_codeOfList {list : List Expression} {code : List Instruction}
    (each : ∀ expression ∈ list, ∀ code, (expression.code frame).result = .ok code →
      NamesBlankFree code)
    (emitted : (codeOfList frame list).result = .ok code) : NamesBlankFree code := by
  induction list generalizing code with
  | nil =>
    obtain rfl := codeOfList_nil.mp emitted
    exact namesBlankFree_nil
  | cons expression later ih =>
    rw [List.forall_mem_cons] at each
    obtain ⟨first, firstCode, more, moreCode, rfl⟩ := codeOfList_cons.mp emitted
    exact namesBlankFree_append.mpr ⟨each.1 first firstCode, ih each.2 moreCode⟩

/-- The code of an expression has names without blanks if its callees have. -/
theorem Expression.namesBlankFree_code (unbroken : frame.Unbroken) {expression : Expression}
    (callees : CalleesBlankFree expression.callees) (code : List Instruction)
    (emitted : (expression.code frame).result = .ok code) : NamesBlankFree code := by
  induction expression generalizing code with
  | integer value =>
    obtain rfl := code_integer.mp emitted
    simp
  | string value =>
    obtain ⟨-, -, rfl⟩ := code_string.mp emitted
    have runtime : BlankFree "String.new" := by decide
    simpa [Instruction.name?, runtime] using namesBlankFree_appendChars value.toList
  | truth =>
    obtain rfl := code_truth.mp emitted
    simp [Instruction.name?]
  | zero =>
    obtain rfl := code_zero.mp emitted
    simp
  | receiver =>
    obtain rfl := code_receiver.mp emitted
    simp
  | named name =>
    obtain ⟨declared, -, rfl⟩ := code_named.mp emitted
    simp
  | element array index ih =>
    obtain ⟨declared, -, position, positionCode, rfl⟩ := code_element.mp emitted
    simpa [Instruction.name?] using ih callees position positionCode
  | unary operator operand ih =>
    obtain ⟨value, valueCode, op, -, rfl⟩ := code_unary.mp emitted
    simpa using ih callees value valueCode
  | binary left operator right ihLeft ihRight =>
    obtain ⟨first, firstCode, second, secondCode, op, -, rfl⟩ := code_binary.mp emitted
    rw [Expression.callees, calleesBlankFree_append] at callees
    simpa [ihLeft callees.1 first firstCode, ihRight callees.2 second secondCode] using
      op.blankFree_instruction
  | call callee arguments ih =>
    rw [Expression.callees, calleesBlankFree_cons, calleesOfList_eq_flatMap,
      calleesBlankFree_flatMap] at callees
    obtain ⟨own, inside⟩ := callees
    have passed {values : List Instruction}
        (valuesCode : (codeOfList frame arguments).result = .ok values) : NamesBlankFree values :=
      namesBlankFree_codeOfList (fun argument among => ih argument among (inside argument among))
        valuesCode
    cases callee with
    | own name =>
      obtain ⟨values, valuesCode, rfl⟩ := code_ownCall.mp emitted
      have called := unbroken.className.qualified (own name (by simp [Callee.names]))
      simpa [passed valuesCode, Instruction.name?] using called
    | qualified context name =>
      have called := own name (by simp [Callee.names])
      cases found : frame.scope.resolve? context with
      | some object =>
        obtain ⟨values, valuesCode, rfl⟩ := (code_methodCall found).mp emitted
        have called := (unbroken.scope.type found).qualified called
        simpa [passed valuesCode, Instruction.name?] using called
      | none =>
        obtain ⟨values, valuesCode, rfl⟩ := (code_functionCall found).mp emitted
        have called := (own context (by simp [Callee.names])).qualified called
        simpa [passed valuesCode, Instruction.name?] using called
  | flaw error => exact absurd emitted code_flaw

/-- A block of statements each of which has code without blanks in its names has such code. -/
theorem Statement.namesBlankFree_codeOfBlock {block : List Statement} {next free : Nat}
    {code : List Instruction}
    (each : ∀ statement ∈ block, ∀ next code free,
      (statement.code frame next).result = .ok (code, free) → NamesBlankFree code)
    (emitted : (codeOfBlock frame next block).result = .ok (code, free)) :
    NamesBlankFree code := by
  induction block generalizing next code with
  | nil =>
    obtain ⟨rfl, -⟩ := codeOfBlock_nil.mp emitted
    exact namesBlankFree_nil
  | cons statement later ih =>
    rw [List.forall_mem_cons] at each
    obtain ⟨first, middle, firstCode, more, moreCode, rfl⟩ := codeOfBlock_cons.mp emitted
    exact namesBlankFree_append.mpr ⟨each.1 next first middle firstCode, ih each.2 moreCode⟩

/-- The code of a statement has names without blanks if its callees have. Its labels carry the names
of the levels of its scope. -/
theorem Statement.namesBlankFree_code (unbroken : frame.Unbroken) {statement : Statement}
    (callees : CalleesBlankFree statement.callees) (next : Nat) (code : List Instruction)
    (free : Nat) (emitted : (statement.code frame next).result = .ok (code, free)) :
    NamesBlankFree code := by
  have label := unbroken.scope.label
  induction statement generalizing next code free with
  | assign name value =>
    obtain ⟨first, firstCode, declared, -, rfl, -⟩ := code_assign.mp emitted
    simpa [Instruction.name?] using Expression.namesBlankFree_code unbroken callees first firstCode
  | assignElement array index value =>
    obtain ⟨declared, -, position, positionCode, second, secondCode, rfl, -⟩ :=
      code_assignElement.mp emitted
    rw [Statement.callees, calleesBlankFree_append] at callees
    simpa [Instruction.name?] using
      ⟨Expression.namesBlankFree_code unbroken callees.1 position positionCode,
        Expression.namesBlankFree_code unbroken callees.2 second secondCode⟩
  | when condition block ih =>
    obtain ⟨test, testCode, inner, innerCode, rfl⟩ := code_when.mp emitted
    rw [Statement.callees, calleesBlankFree_append, calleesOfBlock_eq_flatMap,
      calleesBlankFree_flatMap] at callees
    have tested := Expression.namesBlankFree_code unbroken callees.1 test testCode
    have done := namesBlankFree_codeOfBlock
      (fun statement among => ih statement among (callees.2 statement among)) innerCode
    simp [Instruction.name?, tested, done, label]
  | choose condition yes no ihYes ihNo =>
    obtain ⟨test, testCode, first, middle, firstCode, second, secondCode, rfl⟩ :=
      code_choose.mp emitted
    rw [Statement.callees, calleesBlankFree_append, calleesBlankFree_append,
      calleesOfBlock_eq_flatMap, calleesOfBlock_eq_flatMap, calleesBlankFree_flatMap,
      calleesBlankFree_flatMap] at callees
    have tested := Expression.namesBlankFree_code unbroken callees.1.1 test testCode
    have one := namesBlankFree_codeOfBlock
      (fun statement among => ihYes statement among (callees.1.2 statement among)) firstCode
    have two := namesBlankFree_codeOfBlock
      (fun statement among => ihNo statement among (callees.2 statement among)) secondCode
    simp [Instruction.name?, tested, one, two, label]
  | loop condition block ih =>
    obtain ⟨test, testCode, inner, innerCode, rfl⟩ := code_loop.mp emitted
    rw [Statement.callees, calleesBlankFree_append, calleesOfBlock_eq_flatMap,
      calleesBlankFree_flatMap] at callees
    have tested := Expression.namesBlankFree_code unbroken callees.1 test testCode
    have done := namesBlankFree_codeOfBlock
      (fun statement among => ih statement among (callees.2 statement among)) innerCode
    simp [Instruction.name?, tested, done, label]
  | perform call =>
    obtain ⟨value, valueCode, rfl, -⟩ := code_perform.mp emitted
    simpa [Instruction.name?] using Expression.namesBlankFree_code unbroken callees value valueCode
  | leave value =>
    cases value with
    | some value =>
      obtain ⟨first, firstCode, rfl, -⟩ := code_leave_some.mp emitted
      simpa [Instruction.name?] using
        Expression.namesBlankFree_code unbroken callees first firstCode
    | none =>
      obtain ⟨rfl, -⟩ := code_leave_none.mp emitted
      simp [Instruction.name?]
  | flaw error => exact absurd emitted code_flaw

/-! ## Subroutines and classes -/

/-- Whether a part of a body declares variables of types without blanks, and calls names without
them. -/
def BodyPart.Unbroken : BodyPart → Prop
  | declare declaration => BlankFree declaration.type
  | statements block => CalleesBlankFree (Statement.calleesOfBlock block)
  | flaw _ => True

/-- Whether a subroutine has no blanks in the types of its parameters and in its body. -/
structure Subroutine.Unbroken (subroutine : Subroutine) : Prop where
  types : ∀ parameter, .ok parameter ∈ subroutine.parameters → BlankFree parameter.type
  body : ∀ part ∈ subroutine.body, part.Unbroken

/-- Whether a class has no blanks in its names and types. -/
structure Class.Unbroken (definition : Class) : Prop where
  name : BlankFree definition.name
  types : ∀ part, .ok part ∈ definition.declarations → BlankFree part.2.type
  members : ∀ member, .ok member ∈ definition.members → BlankFree member.name ∧
    ∀ subroutine, member.subroutine = .ok subroutine → subroutine.Unbroken

theorem BodyPart.namesBlankFree_codeOfList {parts : List BodyPart} (unbroken : frame.Unbroken)
    (each : ∀ part ∈ parts, part.Unbroken) {next : Nat} {code : List Instruction} {inner : Scope}
    (emitted : (codeOfList frame next parts).result = .ok (code, inner)) :
    NamesBlankFree code := by
  induction parts generalizing frame next code with
  | nil =>
    obtain ⟨rfl, -⟩ := codeOfList_nil.mp emitted
    exact namesBlankFree_nil
  | cons part later ih =>
    rw [List.forall_mem_cons] at each
    cases part with
    | declare declaration =>
      obtain ⟨scope, declared, laterCode⟩ := codeOfList_declare.mp emitted
      have deeper : Frame.Unbroken { frame with scope := scope } :=
        ⟨unbroken.className, unbroken.scope.declareAll each.1 declared⟩
      exact ih deeper each.2 laterCode
    | statements block =>
      obtain ⟨first, free, blockCode, more, moreCode, rfl⟩ := codeOfList_statements.mp emitted
      have callees : CalleesBlankFree (Statement.calleesOfBlock block) := each.1
      rw [Statement.calleesOfBlock_eq_flatMap, calleesBlankFree_flatMap] at callees
      refine namesBlankFree_append.mpr ⟨?_, ih unbroken each.2 moreCode⟩
      exact Statement.namesBlankFree_codeOfBlock (fun statement among =>
        Statement.namesBlankFree_code unbroken (callees statement among)) blockCode
    | flaw error => exact absurd emitted codeOfList_flaw

theorem Subroutine.namesBlankFree_prologue (fields : Nat) (kind : SubroutineKind) :
    NamesBlankFree (prologue fields kind) := by
  have runtime : BlankFree "Memory.alloc" := by decide
  cases kind <;> simp [prologue, Instruction.name?, runtime]

theorem Subroutine.Unbroken.namesBlankFree_code {className name : String} {classScope : Scope}
    {subroutine : Subroutine} (unbroken : subroutine.Unbroken) (ofClass : BlankFree className)
    (own : BlankFree name) (around : classScope.Unbroken) {code : List Instruction}
    (emitted : (subroutine.code className classScope name).result = .ok code) :
    NamesBlankFree code := by
  obtain ⟨scope, declared, body, inner, bodyCode, rfl⟩ := Subroutine.code_eq_ok.mp emitted
  have inside : scope.Unbroken := by
    have fresh := around.child own
    rw [Subroutine.scope] at declared
    split at declared
    · obtain ⟨⟨receiver, next⟩, first, rest⟩ := except_bind_eq_ok.mp declared
      exact (fresh.declare ofClass first).declareParameters unbroken.types rest
    · exact fresh.declareParameters unbroken.types declared
  have whole : Frame.Unbroken ⟨className, subroutine.kind, scope⟩ := ⟨ofClass, inside⟩
  have done := BodyPart.namesBlankFree_codeOfList whole unbroken.body bodyCode
  simpa [Instruction.name?, Subroutine.namesBlankFree_prologue, done] using inside.qualifiedName

theorem Member.namesBlankFree_codeOfList {className : String} {classScope : Scope}
    (ofClass : BlankFree className) (around : classScope.Unbroken) {seen : List String}
    {members : List (Except CompileError Member)}
    (each : ∀ member, .ok member ∈ members → BlankFree member.name ∧
      ∀ subroutine, member.subroutine = .ok subroutine → subroutine.Unbroken)
    {code : List Instruction}
    (emitted : (codeOfList className classScope seen members).result = .ok code) :
    NamesBlankFree code := by
  induction members generalizing seen code with
  | nil =>
    obtain rfl := codeOfList_nil.mp emitted
    exact namesBlankFree_nil
  | cons member later ih =>
    obtain ⟨found, rfl, -, subroutine, whole, first, firstCode, more, moreCode, rfl⟩ :=
      codeOfList_cons.mp emitted
    obtain ⟨own, parts⟩ := each found List.mem_cons_self
    refine namesBlankFree_append.mpr ⟨?_, ih ?_ moreCode⟩
    · exact (parts subroutine whole).namesBlankFree_code ofClass own around firstCode
    · exact fun member among => each member (List.mem_cons_of_mem _ among)

/-- The code of a class has names without blanks if the class has. -/
theorem Class.Unbroken.namesBlankFree_code {definition : Class} (unbroken : definition.Unbroken)
    {code : List Instruction} (emitted : definition.code.result = .ok code) :
    NamesBlankFree code := by
  obtain ⟨scope, declared, membersCode⟩ := Class.code_eq_ok.mp emitted
  have around := (Scope.Unbroken.root unbroken.name).declareVariables unbroken.types declared
  exact Member.namesBlankFree_codeOfList unbroken.name around unbroken.members membersCode

/-! ## Names that are read from a tree -/

theorem Tree.mem_tokens_of_leaf {tree : Tree} {token : Token}
    (listed : .leaf token ∈ tree.children) : token ∈ tree.tokens := by
  cases tree with
  | leaf own => cases listed
  | node rule children => exact mem_tokens_node.mpr ⟨_, listed, List.mem_singleton_self _⟩

/-- The type of a declaration is one of its tokens. -/
theorem Declaration.exists_token {tree : Tree} {declaration : Declaration}
    (read : Declaration.ofTree tree = .ok declaration) :
    ∃ token ∈ tree.tokens, token.text = declaration.type := by
  obtain ⟨type, at_, eq⟩ := except_bind_eq_ok.mp read
  cases eq
  have listed := List.mem_of_getElem? (Tree.exists_of_terminal_eq_ok at_)
  exact ⟨type, Tree.mem_tokens_of_leaf listed, rfl⟩

/-- The type of a parameter is one of the tokens that the parameters are read from. -/
theorem Parameter.exists_token {tokens : List Token} {parameter : Parameter}
    (among : .ok parameter ∈ ofTokens tokens) : ∃ token ∈ tokens, token.text = parameter.type := by
  induction tokens using ofTokens.induct with
  | case1 => cases among
  | case2 token =>
    cases List.mem_singleton.mp among
  | case3 type name rest ih =>
    rcases List.mem_cons.mp among with here | there
    · cases here
      exact ⟨type, List.mem_cons_self, rfl⟩
    · obtain ⟨token, inside, text⟩ := ih there
      exact ⟨token, List.mem_cons_of_mem _ (List.mem_cons_of_mem _ inside), text⟩

namespace Tree

variable {tree : Tree}

/-- Declarations and parameters have no string constants, since they mention nothing. -/
theorem Derivation.kind_ne_stringConstant (derives : tree.Derivation)
    (isDeclaration : tree.rule? ∈ [some .classVarDec, some .varDec, some .parameterList])
    {token : Token} (inside : token ∈ tree.tokens) : token.kind ≠ .stringConstant := by
  intro isString
  have mentioned : Mention.text token.stringValue ∈ tree.mentions := by
    apply mem_mentions_of_token inside
    rw [Token.mentions, isString]
    exact List.mem_singleton_self _
  rw [← derives.mentionsRead_eq, mentionsRead] at mentioned
  simp only [List.mem_cons, List.not_mem_nil, or_false] at isDeclaration
  rcases isDeclaration with is | is | is
  all_goals
    rw [is] at mentioned
    cases mentioned

theorem HasIdentifier.blankFree {name : String} (has : tree.HasIdentifier name)
    (areTokens : ∀ token ∈ tree.tokens, token.WellFormed) : BlankFree name := by
  obtain ⟨token, inside, isIdentifier, rfl⟩ := has
  refine (areTokens token inside).blankFree ?_
  rw [isIdentifier]
  decide

theorem Derivation.blankFree_type (derives : tree.Derivation)
    (isDeclaration : tree.rule? ∈ [some .classVarDec, some .varDec, some .parameterList])
    (areTokens : ∀ token ∈ tree.tokens, token.WellFormed) {declaration : Declaration}
    (read : Declaration.ofTree tree = .ok declaration) : BlankFree declaration.type := by
  obtain ⟨token, inside, text⟩ := Declaration.exists_token read
  rw [← text]
  exact (areTokens token inside).blankFree (derives.kind_ne_stringConstant isDeclaration inside)

theorem Derivation.blankFree_parameter {parameters : List Tree}
    (derives : (node .parameterList parameters).Derivation)
    (areTokens : ∀ token ∈ (node .parameterList parameters).tokens, token.WellFormed)
    {parameter : Parameter}
    (among : .ok parameter ∈ Parameter.ofTokens ((parameters.filterMap token?).filter fun token =>
      !token.is .symbol ",")) : BlankFree parameter.type := by
  obtain ⟨token, listed, text⟩ := Parameter.exists_token among
  obtain ⟨part, listed, isToken⟩ := List.mem_filterMap.mp (List.mem_filter.mp listed).1
  cases part with
  | node rule children => cases isToken
  | leaf own =>
    cases isToken
    have inside : token ∈ (node .parameterList parameters).tokens := mem_tokens_of_leaf listed
    rw [← text]
    have noString := derives.kind_ne_stringConstant (by simp [rule?]) inside
    exact (areTokens token inside).blankFree noString

/-- A declaration in a body has no blanks in its type. -/
theorem Derivation.unbroken_varDec (derives : tree.Derivation)
    (isRule : tree.rule? = some .varDec) (areTokens : ∀ token ∈ tree.tokens, token.WellFormed)
    {part : BodyPart} (read : BodyPart.ofTree? tree = some part) : part.Unbroken := by
  obtain ⟨declaration, readable⟩ := derives.exists_declaration isRule
  cases tree with
  | leaf token => cases isRule
  | node rule children =>
    cases isRule
    rw [BodyPart.ofTree?_varDec, readable, Option.some.injEq] at read
    rw [← read]
    exact derives.blankFree_type (by simp [rule?]) areTokens readable

/-- A block calls identifiers. -/
theorem Derivation.unbroken_block {block : List Tree}
    (derives : (node .statements block).Derivation)
    (areTokens : ∀ token ∈ (node .statements block).tokens, token.WellFormed) :
    (BodyPart.statements (Statement.blockOfTree (node .statements block))).Unbroken := by
  intro callee among name isName
  rw [← calleesRead_node_block, derives.calleesRead_eq] at among
  exact (hasIdentifier_of_mem_callees among isName).blankFree areTokens

/-- A subroutine that is read from a derivation tree has no blanks in its types and callees. -/
theorem Derivation.unbroken_subroutine (derives : tree.Derivation)
    (isRule : tree.rule? = some .subroutineDec)
    (areTokens : ∀ token ∈ tree.tokens, token.WellFormed) {subroutine : Subroutine}
    (read : Subroutine.ofTree tree = .ok subroutine) :
    BlankFree (tree.textAt 2) ∧ subroutine.Unbroken := by
  obtain ⟨keyword, name, result, parameters, declared, block, l₁, l₂, l₃, l₄, l₅, l₆, rfl, -, -,
    parametersDerive, derive, blockDerives⟩ := derives.exists_subroutine isRule
  obtain ⟨-, areParameters, areParts⟩ := Subroutine.ofTree_eq_ok read
  simp only [mem_tokens_node, forall_exists_index, and_imp] at areTokens
  have named : (identifier name l₂).HasIdentifier name := ⟨_, List.mem_singleton_self _, rfl, rfl⟩
  refine ⟨named.blankFree fun token inside => areTokens token _ (by simp) inside, ?_, ?_⟩
  · intro parameter among
    rw [areParameters] at among
    exact parametersDerive.blankFree_parameter
      (fun token inside => areTokens token _ (by simp) inside) among
  · have inside {part : Tree} (listed : part ∈ [symbol "\x7b" l₅] ++ declared ++
        [node .statements block, symbol "\x7d" l₆]) : ∀ token ∈ part.tokens, token.WellFormed :=
      fun token inside => areTokens token (node .subroutineBody _) (by simp)
        (mem_tokens_node.mpr ⟨part, listed, inside⟩)
    intro part among
    rw [areParts] at among
    obtain ⟨child, listed, isPart⟩ := List.mem_filterMap.mp among
    have listed : child ∈ [symbol "\x7b" l₅] ++ declared ++
        [node .statements block, symbol "\x7d" l₆] := listed
    have own := inside listed
    simp only [List.mem_append, List.mem_cons, List.not_mem_nil, or_false] at listed
    rcases listed with (rfl | isVariable) | rfl | rfl
    · cases isPart
    · obtain ⟨isRule, derives⟩ := derive child isVariable
      exact derives.unbroken_varDec isRule own isPart
    · cases isPart
      exact blockDerives.unbroken_block own
    · cases isPart

/-- A class that is read from a derivation tree has no blanks in its names and types. -/
theorem Derivation.unbroken_class (derives : tree.Derivation)
    (isRule : tree.rule? = some .classDec)
    (areTokens : ∀ token ∈ tree.tokens, token.WellFormed) {definition : Class}
    (read : Class.ofTree tree = .ok definition) : definition.Unbroken := by
  obtain rfl := Class.ofTree_eq_ok read
  have inside {rule : Rule} {part : Tree} (among : part ∈ tree.groups rule) :
      ∀ token ∈ part.tokens, token.WellFormed :=
    fun token listed => areTokens token (mem_tokens_of_mem_groups among listed)
  refine ⟨?_, ?_, ?_⟩
  · have named : tree.HasIdentifier (tree.textAt 1) := by
      cases derives with
      | classDec text l₁ l₂ l₃ l₄ =>
        have own : (identifier text l₂).HasIdentifier text :=
          ⟨_, List.mem_singleton_self _, rfl, rfl⟩
        exact own.node (by simp)
      | _ => cases isRule
    exact named.blankFree areTokens
  · rintro ⟨kind, declaration⟩ among
    obtain ⟨part, listed, found⟩ := List.mem_map.mp among
    obtain ⟨isDeclaration, partDerives⟩ := derives.of_mem_groups isRule listed
    obtain ⟨keyword, -, found⟩ := except_bind_eq_ok.mp found
    obtain ⟨own, -, found⟩ := except_bind_eq_ok.mp found
    obtain ⟨declared, readable, eq⟩ := except_bind_eq_ok.mp found
    cases eq
    exact partDerives.blankFree_type (by simp [isDeclaration]) (inside listed) readable
  · intro member among
    obtain ⟨part, listed, found⟩ := List.mem_map.mp among
    obtain ⟨isSubroutine, partDerives⟩ := derives.of_mem_groups isRule listed
    obtain ⟨subroutine, readable, -⟩ := partDerives.exists_regular isSubroutine
    obtain rfl := Member.ofTree_eq_ok found
    rw [found, Except.ok.injEq, Member.mk.injEq] at readable
    refine ⟨?_, ?_⟩
    · exact (partDerives.unbroken_subroutine isSubroutine (inside listed) readable.2).1
    · intro own readOwn
      exact (partDerives.unbroken_subroutine isSubroutine (inside listed) readOwn).2

end Tree

/-! ## Code of sources -/

/-- No name in the code of a source has a blank. -/
theorem namesBlankFree_of_compile {source : String} {artifact : Artifact}
    (compiled : (compile source).result = .ok artifact) : NamesBlankFree artifact.code := by
  obtain ⟨tree, parsed, compiled⟩ := Logged.result_bind_eq_ok.mp compiled
  obtain ⟨name, -, compiled⟩ := Logged.result_bind_eq_ok.mp compiled
  obtain ⟨code, emitted, compiled⟩ := Logged.result_bind_eq_ok.mp compiled
  cases compiled
  obtain ⟨tokens, tokenized, parsed⟩ := exists_tokens_of_parse parsed
  obtain ⟨isRule, derives, same⟩ := derivation_of_parseTokens parsed
  have areTokens : ∀ token ∈ tree.tokens, token.WellFormed := by
    rw [same]
    exact wellFormed_of_tokenize tokenized
  obtain ⟨definition, read, classCode⟩ := generate_eq_ok.mp emitted
  exact (derives.unbroken_class isRule areTokens read).namesBlankFree_code classCode

/-- Code whose names have no newline is read back from its text, which has a line for each
instruction, so its text determines it. The code of a source has no blanks in its names at all. -/
theorem codeOfText?_of_render :
    (∀ code, NamesOnOneLine code → codeOfText? (render code) = some code ∧
      (render code).toList.splitOn '\n' =
        code.map (fun instruction => instruction.text.toList) ++ [[]] ∧
      ∀ other, NamesOnOneLine other → (render code = render other ↔ code = other)) ∧
    ∀ source artifact, (compile source).result = .ok artifact →
      NamesBlankFree artifact.code ∧ (compileToText source).result = .ok (render artifact.code) ∧
        codeOfText? (render artifact.code) = some artifact.code := by
  refine ⟨?_, ?_⟩
  · intro code oneLine
    exact ⟨codeOfText?_render oneLine, splitOn_render oneLine,
      fun other otherOneLine => render_inj oneLine otherOneLine⟩
  · intro source artifact compiled
    have blankFree := namesBlankFree_of_compile compiled
    refine ⟨blankFree, ?_, codeOfText?_render blankFree.namesOnOneLine⟩
    rw [compileToText, Logged.result_bind_eq_ok]
    exact ⟨artifact, compiled, rfl⟩

/-- A class with a loop, a call behind a variable and a call of its own. -/
def namesSource : String :=
  "class A \x7b method int f(B b) \x7b\nwhile (b.g(1)) \x7b do h(); \x7d return 0; \x7d \x7d\n"

def namesCode : List Instruction :=
  [.function "A.f" 0, .push .argument 0, .pop .pointer 0, .label "A_f_0", .push .argument 1,
    .push .constant 1, .call "B.g" 2, .operate .not, .ifGoto "A_f_1", .push .pointer 0,
    .call "A.h" 1, .pop .temp 7, .goto "A_f_0", .label "A_f_1", .push .constant 0, .ret]

/-- Names that are empty, end in a number or look like another instruction; and the code of a
source. -/
theorem codeOfText?_of_render_namesCode :
    codeOfText? (render [.label "", .goto "call f 1", .call "a 3" 3, .function "" 0]) =
      some [.label "", .goto "call f 1", .call "a 3" 3, .function "" 0] ∧
    NamesBlankFree namesCode ∧ codeOfText? (render namesCode) = some namesCode := by
  have oneLine : NamesOnOneLine [.label "", .goto "call f 1", .call "a 3" 3, .function "" 0] := by
    simp [NamesOnOneLine, Instruction.name?]
  have compiled : (compile namesSource).result = .ok ⟨"A", namesCode⟩ := by decide +kernel
  obtain ⟨blankFree, -, read⟩ := codeOfText?_of_render.2 namesSource ⟨"A", namesCode⟩ compiled
  exact ⟨(codeOfText?_of_render.1 _ oneLine).1, blankFree, read⟩

end JackCompiler
