import JackCompiler.Proofs.Report
import JackCompiler.Proofs.Code.Block
import JackCompiler.Proofs.Program.OwnCall

/-!
# The log of a compilation

What a compilation reports can be read off the tree of its text and the code it ends with
(`Tree.log`). It is put together along the code: an expression, a statement and a body report one
warning for each callee without a qualifier if they stand in a function, from left to right, and
first ones of these warnings if they fail on the way (`Expression.tells_code`,
`Statement.tells_code`, `BodyPart.tells_codeOfList`). A subroutine that has code reports its block
behind its warnings, and one that has none reports no block (`Subroutine.exists_events`). So the
blocks that are reported are those in front of the first subroutine that fails
(`Member.exists_reports`, `Member.events_of_later_fails`).

On the side of the tree, the names that a function calls without a qualifier are read off the tokens
of its body, and its locals are counted in its declarations.
-/

set_option autoImplicit false

namespace JackCompiler

/-! ## Warnings -/

/-- What is reported of callees in a scope: one warning for each call of the class itself, if the
subroutine has no receiver that could be passed on. -/
def SubroutineKind.warnings (kind : SubroutineKind) (scope : String) (callees : List Callee) :
    List Event :=
  if kind = .function then (callees.filterMap Callee.own?).map (.missingReceiver scope) else []

@[simp] theorem SubroutineKind.warnings_nil (kind : SubroutineKind) (scope : String) :
    kind.warnings scope [] = [] := by
  cases kind <;> rfl

@[simp] theorem SubroutineKind.warnings_append (kind : SubroutineKind) (scope : String)
    (first second : List Callee) :
    kind.warnings scope (first ++ second) =
      kind.warnings scope first ++ kind.warnings scope second := by
  cases kind <;> simp [warnings]

/-- What is reported of callees in a piece of code with given surroundings. -/
def Frame.warnings (frame : Frame) (callees : List Callee) : List Event :=
  frame.kind.warnings frame.scope.qualifiedName callees

section Frame

variable {frame : Frame}

@[simp] theorem Frame.warnings_nil : frame.warnings [] = [] := frame.kind.warnings_nil _

@[simp] theorem Frame.warnings_append (first second : List Callee) :
    frame.warnings (first ++ second) = frame.warnings first ++ frame.warnings second :=
  frame.kind.warnings_append _ first second

theorem Frame.warnings_qualified (context name : String) (callees : List Callee) :
    frame.warnings (.qualified context name :: callees) = frame.warnings callees := by
  rfl

theorem Frame.warnings_own (isFunction : frame.kind = .function) (name : String)
    (callees : List Callee) : frame.warnings (.own name :: callees) =
      [.missingReceiver frame.scope.qualifiedName name] ++ frame.warnings callees := by
  simp [warnings, SubroutineKind.warnings, isFunction, Callee.own?]

theorem Frame.warnings_own_of_ne (other : frame.kind ≠ .function) (name : String)
    (callees : List Callee) : frame.warnings (.own name :: callees) = frame.warnings callees := by
  simp [warnings, SubroutineKind.warnings, other]

/-! ## Expressions -/

namespace Expression

open Logged

/-- Consecutive expressions report what each of them does. -/
theorem tells_codeOfList {list : List Expression}
    (each : ∀ expression ∈ list,
      (expression.code frame).Tells (frame.warnings expression.callees)) :
    (codeOfList frame list).Tells (frame.warnings (calleesOfList list)) := by
  induction list with
  | nil =>
    rw [codeOfList, calleesOfList, Frame.warnings_nil]
    exact tells_pure []
  | cons expression later ih =>
    rw [List.forall_mem_cons] at each
    rw [codeOfList, calleesOfList, Frame.warnings_append]
    exact each.1.bind fun first _ => (ih each.2).before fun more _ => tells_pure _

theorem tells_code (expression : Expression) :
    (expression.code frame).Tells (frame.warnings expression.callees) := by
  induction expression with
  | integer value | truth | zero | receiver =>
    rw [callees, Frame.warnings_nil]
    exact tells_pure _
  | string value =>
    rw [callees, Frame.warnings_nil]
    exact tells_ofExcept _
  | named name =>
    rw [callees, Frame.warnings_nil]
    exact (tells_ofExcept _).behind fun _ _ => tells_pure _
  | element array index ih =>
    rw [callees, code]
    exact (tells_ofExcept _).behind fun _ _ => ih.before fun _ _ => tells_pure _
  | unary operator operand ih =>
    rw [callees, code]
    exact ih.before fun _ _ => (tells_ofExcept _).behind fun _ _ => tells_pure _
  | binary left operator right ihLeft ihRight =>
    rw [callees, code, Frame.warnings_append]
    exact ihLeft.bind fun _ _ => ihRight.before fun _ _ =>
      (tells_ofExcept _).behind fun _ _ => tells_pure _
  | flaw error => exact tells_fail error _
  | call callee arguments ih =>
    have values := tells_codeOfList ih
    rw [callees]
    cases callee with
    | own name =>
      rw [code]
      by_cases isFunction : frame.kind = .function
      · rw [if_pos isFunction, Frame.warnings_own isFunction]
        exact (tells_report _).bind fun _ _ => values.before fun _ _ => tells_pure _
      · rw [if_neg isFunction, Frame.warnings_own_of_ne isFunction]
        exact values.before fun _ _ => tells_pure _
    | qualified context name =>
      rw [code, Frame.warnings_qualified]
      cases frame.scope.resolve? context <;> exact values.before fun _ _ => tells_pure _

end Expression

/-! ## Statements -/

namespace Statement

open Logged

/-- Consecutive statements report what each of them does. -/
theorem tells_codeOfBlock {block : List Statement} (next : Nat)
    (each : ∀ statement ∈ block, ∀ next,
      (statement.code frame next).Tells (frame.warnings statement.callees)) :
    (codeOfBlock frame next block).Tells (frame.warnings (calleesOfBlock block)) := by
  induction block generalizing next with
  | nil =>
    rw [codeOfBlock, calleesOfBlock, Frame.warnings_nil]
    exact tells_pure _
  | cons statement later ih =>
    rw [List.forall_mem_cons] at each
    rw [codeOfBlock, calleesOfBlock, Frame.warnings_append]
    exact (each.1 next).bind fun first _ => (ih first.2 each.2).before fun more _ => tells_pure _

theorem tells_code (statement : Statement) (next : Nat) :
    (statement.code frame next).Tells (frame.warnings statement.callees) := by
  induction statement generalizing next with
  | assign name value =>
    rw [code, callees]
    exact (value.tells_code).before fun _ _ => (tells_ofExcept _).behind fun _ _ => tells_pure _
  | assignElement array index value =>
    rw [code, callees, Frame.warnings_append]
    exact (tells_ofExcept _).behind fun _ _ => index.tells_code.bind fun _ _ =>
      value.tells_code.before fun _ _ => tells_pure _
  | when condition block ih =>
    rw [code, callees, Frame.warnings_append]
    exact condition.tells_code.bind fun _ _ => (tells_codeOfBlock _ ih).before fun _ _ =>
      tells_pure _
  | choose condition yes no ihYes ihNo =>
    rw [code, callees, Frame.warnings_append, Frame.warnings_append, List.append_assoc]
    exact condition.tells_code.bind fun _ _ => (tells_codeOfBlock _ ihYes).bind fun _ _ =>
      (tells_codeOfBlock _ ihNo).before fun _ _ => tells_pure _
  | loop condition block ih =>
    rw [code, callees, Frame.warnings_append]
    exact condition.tells_code.bind fun _ _ => (tells_codeOfBlock _ ih).before fun _ _ =>
      tells_pure _
  | perform call =>
    rw [code, callees]
    exact call.tells_code.before fun _ _ => tells_pure _
  | leave value =>
    cases value with
    | some value =>
      rw [code, callees]
      exact value.tells_code.before fun _ _ => tells_pure _
    | none =>
      rw [code, callees, Frame.warnings_nil]
      exact tells_pure _
  | flaw error =>
    rw [code]
    exact tells_fail error _

end Statement

end Frame

/-! ## Subroutines -/

open Logged

/-- A body reports what its blocks do. Declarations in it do not change the name of its scope. -/
theorem BodyPart.tells_codeOfList (parts : List BodyPart) (kind : SubroutineKind)
    (className : String) (scope : Scope) (next : Nat) :
    (codeOfList ⟨className, kind, scope⟩ next parts).Tells
      (kind.warnings scope.qualifiedName (parts.flatMap callees)) := by
  induction parts generalizing scope next with
  | nil =>
    rw [codeOfList, List.flatMap_nil, SubroutineKind.warnings_nil]
    exact tells_pure _
  | cons part later ih =>
    rw [List.flatMap_cons, SubroutineKind.warnings_append]
    cases part with
    | declare declaration =>
      rw [codeOfList, callees, SubroutineKind.warnings_nil, List.nil_append]
      refine (tells_ofExcept _).behind fun inner declared => ?_
      have declared : scope.declareAll declaration.type .localVar declaration.names = .ok inner :=
        declared
      rw [Scope.declareAll_eq] at declared
      have named : inner.qualifiedName = scope.qualifiedName := by
        rw [Scope.eq_addAll_of_declareEach declared, Scope.qualifiedName_addAll]
      rw [← named]
      exact ih inner next
    | statements block =>
      rw [codeOfList, callees]
      exact (Statement.tells_codeOfBlock next fun statement _ next =>
        statement.tells_code next).bind fun first _ =>
          (ih scope first.2).before fun more _ => tells_pure _
    | flaw error =>
      rw [codeOfList]
      exact tells_fail error _

theorem SubroutineKind.severity_of_mem_warnings {kind : SubroutineKind} {scope : String}
    {callees : List Callee} {event : Event} (among : event ∈ kind.warnings scope callees) :
    event.severity = .warn := by
  rw [warnings] at among
  split at among
  · obtain ⟨name, -, rfl⟩ := List.mem_map.mp among
    rfl
  · cases among

/-- A subroutine that has code reports its calls and then its block. One that has none reports
calls at most. -/
theorem Subroutine.exists_events (className name : String) (classScope : Scope)
    (subroutine : Subroutine) :
    (∃ scopeName locals later, (subroutine.code className classScope name).result =
        .ok (.function scopeName locals :: later) ∧
      (subroutine.code className classScope name).events =
        subroutine.kind.warnings scopeName (subroutine.body.flatMap BodyPart.callees) ++
          [.subroutineCompiled scopeName locals (later.length + 1)]) ∨
    (∃ error, (subroutine.code className classScope name).result = .error error ∧
      ∀ event ∈ (subroutine.code className classScope name).events, event.severity = .warn) := by
  cases declared : subroutine.scope className classScope name with
  | error error =>
    refine .inr ⟨error, ?_, ?_⟩
    · simp [code, declared, bind]
    · simp [code, declared, events_bind, events_liftM]
  | ok scope =>
    have body := BodyPart.tells_codeOfList subroutine.body subroutine.kind className scope
      scope.inner.nextLabel
    cases bodyCode : (BodyPart.codeOfList ⟨className, subroutine.kind, scope⟩ scope.inner.nextLabel
        subroutine.body).result with
    | error error =>
      refine .inr ⟨error, ?_, ?_⟩
      · simp [code, declared, bodyCode, bind]
      · simp only [code, declared, events_bind, result_liftM, bodyCode, events_liftM,
          List.nil_append, List.append_nil]
        intro event among
        exact SubroutineKind.severity_of_mem_warnings (body.front.subset among)
    | ok found =>
      obtain ⟨inside, inner⟩ := found
      refine .inl ⟨scope.qualifiedName, inner.count .localVar,
        prologue (classScope.count .field) subroutine.kind ++ inside, ?_, ?_⟩
      · simp [code, declared, bodyCode, bind]
      · rw [← body.whole _ bodyCode]
        simp [code, declared, events_bind, result_liftM, bodyCode, events_liftM]

/-! ## Records -/

/-- The name of a subroutine of a class, behind the name of the class. -/
def Tree.nameIn (subroutine : Tree) (className : String) : String :=
  s!"{className}.{subroutine.textAt 2}"

/-- The warnings of a subroutine: one for each unqualified call in the body of a function. -/
def Tree.warnings (className : String) (subroutine : Tree) : List Event :=
  if subroutine.textAt 0 = "function" then
    (unqualifiedCalls false (tokensOfList (subroutine.partsAt 6))).map
      (.missingReceiver (subroutine.nameIn className))
  else []

/-- The report of a subroutine and its block. -/
def Tree.report (className : String) (subroutine : Tree) (block : Block) : Event :=
  .subroutineCompiled (subroutine.nameIn className) subroutine.localNames.length block.code.length

/-- The reports of subroutines and their blocks, each behind its warnings. -/
def reports (className : String) (subroutines : List Tree) (list : List Block) : List Event :=
  (List.zipWith (fun subroutine block =>
    subroutine.warnings className ++ [subroutine.report className block]) subroutines list).flatten

/-- What is reported of a subroutine that has code are its calls and its block. -/
theorem Tree.Derivation.events_code {className : String} {fields : List Binding} {tree : Tree}
    {subroutine : Subroutine} {code : List Instruction} (derives : tree.Derivation)
    (isRule : tree.rule? = some .subroutineDec) (read : Subroutine.ofTree tree = .ok subroutine)
    (emitted : (subroutine.code className (classScope className fields)
      (tree.textAt 2)).result = .ok code) :
    ∃ block, code = block.code ∧ Headless block.body ∧
      (subroutine.code className (classScope className fields) (tree.textAt 2)).events =
        tree.warnings className ++ [tree.report className block] := by
  obtain ⟨block, arguments, body, own, rfl, headless⟩ := Emitted.of_code read emitted
  refine ⟨block, rfl, headless, ?_⟩
  rcases subroutine.exists_events className (tree.textAt 2) (classScope className fields) with
    ⟨scopeName, locals, later, result, events⟩ | ⟨error, result, -⟩
  · rw [result, Except.ok.injEq, Block.code, List.cons.injEq, Instruction.function.injEq] at emitted
    obtain ⟨⟨rfl, rfl⟩, rfl⟩ := emitted
    have named : block.name = tree.nameIn className := congrArg Block.name own.block_eq
    have counted : block.locals = tree.localNames.length := congrArg Block.locals own.block_eq
    have warned : subroutine.kind.warnings block.name
        (subroutine.body.flatMap BodyPart.callees) = tree.warnings className := by
      rw [warnings, derives.unqualifiedCalls_eq isRule read, ← named, SubroutineKind.warnings]
      rcases SubroutineKind.ofKeyword_eq_ok (Subroutine.ofTree_eq_ok read).1 with
        ⟨keyword, kind⟩ | ⟨keyword, kind⟩ | ⟨keyword, kind⟩ <;>
        simp [keyword, kind]
    rw [events, warned, Tree.report, ← named, ← counted]
    rfl
  · rw [result] at emitted
    cases emitted

namespace Member

section Members

variable {className : String} {classScope : Scope} {seen : List String}
  {before : List (Except CompileError Member)}

/-- Behind a subroutine that has code the others follow. -/
theorem events_codeOfList_cons {found : Member} {subroutine : Subroutine} {first : List Instruction}
    (later : List (Except CompileError Member))
    (new : found.name ∉ seen) (read : found.subroutine = .ok subroutine)
    (firstCode : (subroutine.code className classScope found.name).result = .ok first) :
    (codeOfList className classScope seen (.ok found :: later)).events =
        (subroutine.code className classScope found.name).events ++
          (codeOfList className classScope (found.name :: seen) later).events ∧
      (codeOfList className classScope seen (.ok found :: later)).result =
        (codeOfList className classScope (found.name :: seen) later).result.map (first ++ ·) := by
  constructor
  · cases rest : (codeOfList className classScope (found.name :: seen) later).result <;>
      simp [codeOfList, new, read, firstCode, events_bind, rest]
  · cases rest : (codeOfList className classScope (found.name :: seen) later).result <;>
      simp [codeOfList, new, read, firstCode, rest, bind, Except.map]

/-- A subroutine that has no code reports calls at most, and nothing follows. -/
theorem events_of_first_fails {member : Except CompileError Member} {error : CompileError}
    (later : List (Except CompileError Member))
    (fails : (codeOfList className classScope seen [member]).result = .error error) :
    (codeOfList className classScope seen (member :: later)).result = .error error ∧
      ∀ event ∈ (codeOfList className classScope seen (member :: later)).events,
        event.severity = .warn := by
  cases member with
  | error flaw => simpa [codeOfList, events_bind, bind, Except.bind] using fails
  | ok found =>
    by_cases old : found.name ∈ seen
    · simpa [codeOfList, old, events_bind, bind, Except.bind, Logged.fail] using fails
    · cases read : found.subroutine with
      | error flaw => simpa [codeOfList, old, read, events_bind, bind, Except.bind] using fails
      | ok subroutine =>
        rcases subroutine.exists_events className found.name classScope with
          ⟨scopeName, locals, inside, result, -⟩ | ⟨flaw, result, warns⟩
        · have none : (codeOfList className classScope (found.name :: seen) []).result = .ok [] :=
            codeOfList_nil.mpr rfl
          rw [(events_codeOfList_cons [] old read result).2, none] at fails
          cases fails
        · constructor
          · simpa [codeOfList, old, read, result, bind] using fails
          · simpa [codeOfList, old, read, result, events_bind] using warns

/-- If the first one that has no code comes behind others, it adds nothing but warnings to what they
report, and nothing follows. -/
theorem events_of_later_fails {member : Except CompileError Member} {error : CompileError}
    {code : List Instruction} (later : List (Except CompileError Member))
    (succeeds : (codeOfList className classScope seen before).result = .ok code)
    (fails : (codeOfList className classScope seen (before ++ [member])).result = .error error) :
    (codeOfList className classScope seen (before ++ member :: later)).result = .error error ∧
      ∃ warnings, (∀ event ∈ warnings, event.severity = .warn) ∧
        (codeOfList className classScope seen (before ++ member :: later)).events =
          (codeOfList className classScope seen before).events ++ warnings := by
  induction before generalizing seen code with
  | nil =>
    obtain ⟨result, warns⟩ := events_of_first_fails later fails
    refine ⟨result, _, warns, ?_⟩
    simp [codeOfList]
  | cons first before ih =>
    obtain ⟨found, rfl, new, subroutine, read, own, firstCode, more, moreCode, rfl⟩ :=
      codeOfList_cons.mp succeeds
    rw [List.cons_append, (events_codeOfList_cons _ new read firstCode).2] at fails
    have failsLater : (codeOfList className classScope (found.name :: seen)
        (before ++ [member])).result = .error error := by
      cases rest : (codeOfList className classScope (found.name :: seen)
          (before ++ [member])).result with
      | ok code =>
        rw [rest] at fails
        cases fails
      | error flaw =>
        rw [rest] at fails
        exact fails
    obtain ⟨result, warnings, warns, events⟩ := ih moreCode failsLater
    rw [List.cons_append, (events_codeOfList_cons _ new read firstCode).1,
      (events_codeOfList_cons _ new read firstCode).2, result, events,
      (events_codeOfList_cons _ new read firstCode).1]
    exact ⟨rfl, warnings, warns, (List.append_assoc _ _ _).symm⟩

end Members

/-- What is reported of subroutines that have code are the calls and the block of each of them. -/
theorem exists_reports {className : String} {fields : List Binding} {seen : List String}
    {trees : List Tree} {code : List Instruction}
    (derive : ∀ tree ∈ trees, tree.rule? = some .subroutineDec ∧ tree.Derivation)
    (emitted : (codeOfList className (classScope className fields) seen
      (trees.map Member.ofTree)).result = .ok code) :
    ∃ list : List Block, code = list.flatMap Block.code ∧
      (∀ block ∈ list, Headless block.body) ∧ trees.length = list.length ∧
      (codeOfList className (classScope className fields) seen
        (trees.map Member.ofTree)).events = reports className trees list := by
  induction trees generalizing seen code with
  | nil =>
    obtain rfl := codeOfList_nil.mp emitted
    exact ⟨[], rfl, by simp, rfl, rfl⟩
  | cons tree later ih =>
    rw [List.forall_mem_cons] at derive
    obtain ⟨found, member, new, subroutine, whole, first, firstCode, more, moreCode, rfl⟩ :=
      codeOfList_cons.mp emitted
    have events := (events_codeOfList_cons (later.map Member.ofTree) new whole firstCode).1
    rw [List.map_cons, member, events]
    obtain rfl := Member.ofTree_eq_ok member
    obtain ⟨block, rfl, headless, own⟩ := derive.1.2.events_code derive.1.1 whole firstCode
    obtain ⟨list, rfl, others, same, rest⟩ := ih derive.2 moreCode
    refine ⟨block :: list, rfl, List.forall_mem_cons.mpr ⟨headless, others⟩,
      congrArg (· + 1) same, ?_⟩
    rw [own, rest]
    rfl

end Member

/-! ## Classes -/

/-- A class without the subroutines behind the first so many. -/
def Class.upTo (count : Nat) (definition : Class) : Class :=
  { definition with members := definition.members.take count }

theorem exists_classScope {className : String} {scope : Scope}
    {declarations : List (Except CompileError (VariableKind × Declaration))}
    (declared : (Scope.root className).declareVariables declarations = .ok scope) :
    ∃ fields, scope = classScope className fields := by
  obtain ⟨found, rfl⟩ := Scope.exists_of_declareVariables_eq_ok declared
  rw [Scope.declareVariables_map_ok] at declared
  exact ⟨_, Scope.eq_addAll_of_declareEach declared⟩

section Failure

variable {name : String} {scope : Scope} {error : CompileError}
  {declarations : List (Except CompileError (VariableKind × Declaration))}
  {members : List (Except CompileError Member)}

/-- A class whose variables can be declared fails with its subroutines. -/
theorem Class.code_eq_error
    (declared : (Scope.root name).declareVariables declarations = .ok scope) :
    (⟨name, declarations, members⟩ : Class).code.result = .error error ↔
      (Member.codeOfList name scope [] members).result = .error error := by
  rw [Class.code]
  cases outcome : (Member.codeOfList name scope [] members).result <;>
    simp [declared, outcome, bind]

theorem Class.events_code_of_error
    (declared : (Scope.root name).declareVariables declarations = .ok scope)
    (fails : (Member.codeOfList name scope [] members).result = .error error) :
    (⟨name, declarations, members⟩ : Class).code.events =
      (Member.codeOfList name scope [] members).events := by
  rw [Class.code]
  simp [declared, fails, events_bind]

end Failure

/-- What is left of a class that is read from a tree, if only the first subroutines are kept. -/
theorem Class.upTo_eq {tree : Tree} {definition : Class} (read : Class.ofTree tree = .ok definition)
    (count : Nat) : definition.upTo count =
      ⟨tree.textAt 1, (tree.groups .classVarDec).map Class.variablesOfTree,
        ((tree.groups .subroutineDec).take count).map Member.ofTree⟩ := by
  rw [Class.ofTree_eq_ok read, Class.upTo, List.map_take]

namespace Tree.Derivation

variable {tree : Tree} {definition : Class} {count : Nat} {code : List Instruction}

/-- The events of the code of a class are those of its subroutines and one of its own. -/
theorem events_upTo (derives : tree.Derivation) (isRule : tree.rule? = some .classDec)
    (read : Class.ofTree tree = .ok definition)
    (emitted : (definition.upTo count).code.result = .ok code) :
    ((tree.groups .subroutineDec).take count).length = (blocks code).length ∧
      code = (blocks code).flatMap Block.code ∧
      (definition.upTo count).code.events =
        reports (tree.textAt 1) ((tree.groups .subroutineDec).take count) (blocks code) ++
          [.classGenerated (tree.textAt 1) code.length] := by
  rw [Class.upTo_eq read] at emitted ⊢
  obtain ⟨scope, declared, membersCode⟩ := Class.code_eq_ok.mp emitted
  obtain ⟨fields, rfl⟩ := exists_classScope declared
  have derive : ∀ part ∈ (tree.groups .subroutineDec).take count,
      part.rule? = some .subroutineDec ∧ part.Derivation :=
    fun part among => derives.of_mem_groups isRule (List.mem_of_mem_take among)
  obtain ⟨list, rfl, headless, same, events⟩ := Member.exists_reports derive membersCode
  rw [blocks_flatMap_code headless]
  refine ⟨same, rfl, ?_⟩
  rw [← events, Class.code]
  simp only [events_bind, result_liftM, events_liftM, declared, membersCode, result_report,
    events_report, events_pure, List.nil_append, List.append_nil]

/-- If a subroutine is the first one that has no code, the class has none, and the events are those
of the subroutines in front of it and warnings. -/
theorem events_of_upTo_fails {error : CompileError} (derives : tree.Derivation)
    (isRule : tree.rule? = some .classDec) (read : Class.ofTree tree = .ok definition)
    (succeeds : (definition.upTo count).code.result = .ok code)
    (fails : (definition.upTo (count + 1)).code.result = .error error) :
    count < (tree.groups .subroutineDec).length ∧ definition.code.result = .error error ∧
      ∃ warnings, (∀ event ∈ warnings, event.severity = .warn) ∧
        definition.code.events =
          reports (tree.textAt 1) ((tree.groups .subroutineDec).take count) (blocks code) ++
            warnings := by
  have short : count < (tree.groups .subroutineDec).length := by
    by_contra long
    have all : (tree.groups .subroutineDec).take (count + 1) =
        (tree.groups .subroutineDec).take count := by
      rw [List.take_of_length_le (by omega), List.take_of_length_le (by omega)]
    rw [Class.upTo_eq read, all, ← Class.upTo_eq read, succeeds] at fails
    cases fails
  rw [Class.upTo_eq read] at succeeds fails
  obtain rfl := Class.ofTree_eq_ok read
  have derive : ∀ part ∈ (tree.groups .subroutineDec).take count,
      part.rule? = some .subroutineDec ∧ part.Derivation :=
    fun part among => derives.of_mem_groups isRule (List.mem_of_mem_take among)
  have whole : tree.groups .subroutineDec = (tree.groups .subroutineDec).take count ++
      (tree.groups .subroutineDec)[count] :: (tree.groups .subroutineDec).drop (count + 1) := by
    rw [List.getElem_cons_drop, List.take_append_drop]
  rw [List.take_succ_eq_append_getElem short] at fails
  generalize (tree.groups .subroutineDec).take count = before at *
  obtain ⟨scope, declared, membersCode⟩ := Class.code_eq_ok.mp succeeds
  rw [Class.code_eq_error declared, List.map_append, List.map_singleton] at fails
  obtain ⟨result, warnings, warns, events⟩ := Member.events_of_later_fails
    (((tree.groups .subroutineDec).drop (count + 1)).map Member.ofTree) membersCode fails
  rw [← List.map_cons, ← List.map_append, ← whole] at result events
  refine ⟨short, (Class.code_eq_error declared).mpr result, warnings, warns, ?_⟩
  rw [Class.events_code_of_error declared result, events]
  obtain ⟨fields, rfl⟩ := exists_classScope declared
  obtain ⟨list, rfl, headless, -, own⟩ := Member.exists_reports derive membersCode
  rw [blocks_flatMap_code headless]
  exact congrArg (· ++ warnings) own

end Tree.Derivation

/-! ## What the log shows -/

/-- A record of the log: how important it is and what it says. -/
def Event.record (event : Event) : Severity × String := (event.severity, event.message)

/-- What the log says at one severity. -/
def Event.textsAt (severity : Severity) (events : List Event) : List String :=
  (events.filter (·.severity = severity)).map Event.message

namespace Tree

/-- What the log says of a subroutine of a class and its block. -/
def compiledText (className : String) (subroutine : Tree) (block : Block) : String :=
  let name := subroutine.nameIn className
  s!"compiled {name}: {subroutine.localNames.length} locals, {block.code.length} instructions"

/-- The warning of a call of a subroutine without a qualifier in another one. -/
def warningText (caller name : String) : String :=
  s!"{caller}: unqualified call to `{name}` inside a function passes a receiver that does not " ++
    "exist"

/-- What the log warns of in a subroutine of a class: in a function, each call without a qualifier
that is written in its body. -/
def warningTexts (className : String) (subroutine : Tree) : List String :=
  if subroutine.textAt 0 = "function" then
    (unqualifiedCalls false (tokensOfList (subroutine.partsAt 6))).map
      (warningText (subroutine.nameIn className))
  else []

/-- The log of a class that has code: subroutine by subroutine the warnings and then the block, and
at the end the size of the whole code. -/
def log (tree : Tree) (code : List Instruction) : List (Severity × String) :=
  (List.zipWith (fun subroutine block =>
      (subroutine.warningTexts (tree.textAt 1)).map (.warn, ·) ++
        [(.debug, subroutine.compiledText (tree.textAt 1) block)])
    (tree.groups .subroutineDec) (blocks code)).flatten ++
  [(.debug, s!"generated {code.length} instructions for class {tree.textAt 1}"),
    (.debug, s!"compiled class {tree.textAt 1} into {code.length} instructions")]

theorem map_record_warnings (className : String) (subroutine : Tree) :
    (subroutine.warnings className).map Event.record =
      (subroutine.warningTexts className).map (.warn, ·) := by
  unfold warnings warningTexts
  by_cases isFunction : subroutine.textAt 0 = "function"
  · rw [if_pos isFunction, if_pos isFunction, List.map_map, List.map_map]
    rfl
  · rw [if_neg isFunction, if_neg isFunction]
    rfl

end Tree

/-! ## Compilations -/

namespace Event

theorem shownAt_append (threshold : Severity) (first second : List Event) :
    shownAt (some threshold) (first ++ second) =
      shownAt (some threshold) first ++ shownAt (some threshold) second :=
  List.filter_append _ _

theorem textsAt_append (severity : Severity) (first second : List Event) :
    textsAt severity (first ++ second) = textsAt severity first ++ textsAt severity second := by
  rw [textsAt, List.filter_append, List.map_append]
  rfl

section OneSeverity

variable {severity other : Severity} {events : List Event}
  (alike : ∀ event ∈ events, event.severity = other)

include alike

theorem shownAt_eq_self (shown : other.rank ≤ severity.rank) :
    shownAt (some severity) events = events := by
  rw [shownAt, List.filter_eq_self]
  intro event among
  rw [alike event among]
  exact decide_eq_true shown

theorem shownAt_eq_nil (hidden : severity.rank < other.rank) :
    shownAt (some severity) events = [] := by
  rw [shownAt, List.filter_eq_nil_iff]
  intro event among
  rw [alike event among, decide_eq_true_eq]
  exact Nat.not_le_of_lt hidden

theorem textsAt_eq_nil (apart : other ≠ severity) : textsAt severity events = [] := by
  rw [textsAt, List.map_eq_nil_iff, List.filter_eq_nil_iff]
  intro event among
  rw [alike event among, decide_eq_true_eq]
  exact apart

end OneSeverity

end Event

theorem Tree.severity_warnings (className : String) (subroutine : Tree) :
    ∀ event ∈ subroutine.warnings className, event.severity = .warn := by
  intro event among
  unfold Tree.warnings at among
  by_cases isFunction : subroutine.textAt 0 = "function"
  · rw [if_pos isFunction] at among
    obtain ⟨name, -, rfl⟩ := List.mem_map.mp among
    rfl
  · rw [if_neg isFunction] at among
    cases among

theorem reports_cons (className : String) (subroutine : Tree) (later : List Tree) (block : Block)
    (list : List Block) : reports className (subroutine :: later) (block :: list) =
      subroutine.warnings className ++
        ([subroutine.report className block] ++ reports className later list) := by
  rw [reports, List.zipWith_cons_cons, List.flatten_cons, List.append_assoc]
  rfl

/-- What is reported of subroutines is shown by a log that shows no traces. -/
theorem shownAt_reports (className : String) (subroutines : List Tree) (list : List Block) :
    (Event.shownAt (some .debug) (reports className subroutines list)).map Event.record =
      (List.zipWith (fun subroutine block =>
        (subroutine.warningTexts className).map (.warn, ·) ++
          [(.debug, subroutine.compiledText className block)]) subroutines list).flatten := by
  induction subroutines generalizing list with
  | nil => rfl
  | cons subroutine later ih =>
    cases list with
    | nil => rfl
    | cons block list =>
      have warned : Event.shownAt (some .debug) (subroutine.warnings className) =
          subroutine.warnings className :=
        Event.shownAt_eq_self (subroutine.severity_warnings className) (by decide)
      have own : Event.shownAt (some .debug) [subroutine.report className block] =
        [subroutine.report className block] := rfl
      rw [reports_cons, Event.shownAt_append, Event.shownAt_append, warned, own, List.map_append,
        List.map_append, Tree.map_record_warnings, ih, List.zipWith_cons_cons, List.flatten_cons,
        List.append_assoc]
      rfl

/-- What is reported of subroutines at the severity of their blocks is one text for each. -/
theorem textsAt_reports (className : String) (subroutines : List Tree) (list : List Block) :
    Event.textsAt .debug (reports className subroutines list) =
      List.zipWith (Tree.compiledText className) subroutines list := by
  induction subroutines generalizing list with
  | nil => rfl
  | cons subroutine later ih =>
    cases list with
    | nil => rfl
    | cons block list =>
      have warned : Event.textsAt .debug (subroutine.warnings className) = [] :=
        Event.textsAt_eq_nil (subroutine.severity_warnings className) (by decide)
      rw [reports_cons, Event.textsAt_append, Event.textsAt_append, warned, ih,
        List.zipWith_cons_cons]
      rfl

section Compile

variable {source : String} {tree : Tree} {definition : Class}

theorem Class.nameOfTree_eq (read : Class.ofTree tree = .ok definition) :
    Class.nameOfTree tree = .ok (tree.textAt 1) := by
  obtain ⟨name, named, eq⟩ := except_bind_eq_ok.mp read
  cases eq
  have same : name = tree.textAt 1 := congrArg Class.name (Class.ofTree_eq_ok read)
  rw [named, same]

/-- A compilation does what the parser does, then what the class that was read does, and reports its
size at the end. -/
theorem compile_eq (parsed : (parse source).result = .ok tree)
    (read : Class.ofTree tree = .ok definition) :
    (compile source).result = definition.code.result.map (⟨tree.textAt 1, ·⟩) ∧
      (compile source).events = (parse source).events ++ (definition.code.events ++
        match definition.code.result with
        | .ok code => [.classCompiled (tree.textAt 1) code.length]
        | .error _ => []) := by
  have named := Class.nameOfTree_eq read
  cases emitted : definition.code.result <;>
    simp [compile, generate, parsed, named, read, emitted, bind, Except.map]

end Compile

/-- The tree of a source text is the derivation tree of a class that can be read. -/
theorem exists_class_of_parse {source : String} {tree : Tree}
    (parsed : (parse source).result = .ok tree) :
    tree.rule? = some .classDec ∧ tree.Derivation ∧
      ∃ definition, Class.ofTree tree = .ok definition := by
  obtain ⟨tokens, -, parsed⟩ := exists_tokens_of_parse parsed
  obtain ⟨isRule, derives, -⟩ := derivation_of_parseTokens parsed
  exact ⟨isRule, derives, derives.exists_class isRule⟩

/-- A text that has code is a class, and the log of its compilation is that of the class. -/
theorem exists_log_of_compile {source : String} {artifact : Artifact}
    (compiled : (compile source).result = .ok artifact) : ∃ tree,
      (parse source).result = .ok tree ∧ artifact.className = tree.textAt 1 ∧
      (tree.groups .subroutineDec).length = (blocks artifact.code).length ∧
      artifact.code = (blocks artifact.code).flatMap Block.code ∧
      (Event.shownAt (some .debug) (compile source).events).map Event.record =
        tree.log artifact.code := by
  obtain ⟨tree, parsed, -⟩ := Logged.result_bind_eq_ok.mp compiled
  obtain ⟨isRule, derives, definition, read⟩ := exists_class_of_parse parsed
  obtain ⟨result, events⟩ := compile_eq parsed read
  rw [result] at compiled
  cases emitted : definition.code.result with
  | error error =>
    rw [emitted] at compiled
    cases compiled
  | ok code =>
    rw [emitted] at compiled events
    cases compiled
    have whole : definition.upTo (tree.groups .subroutineDec).length = definition := by
      rw [Class.upTo_eq read, List.take_length, ← Class.ofTree_eq_ok read]
    obtain ⟨same, cut, told⟩ := derives.events_upTo isRule read (whole.symm ▸ emitted)
    rw [List.take_length] at same told
    rw [whole] at told
    have ends : (Event.shownAt (some .debug) [.classGenerated (tree.textAt 1) code.length,
        .classCompiled (tree.textAt 1) code.length]).map Event.record =
      [(.debug, s!"generated {code.length} instructions for class {tree.textAt 1}"),
        (.debug, s!"compiled class {tree.textAt 1} into {code.length} instructions")] := rfl
    refine ⟨tree, parsed, rfl, same, cut, ?_⟩
    rw [events, Event.shownAt_append, Event.shownAt_eq_nil (traces_parse source) (by decide),
      List.nil_append, told,
      List.append_assoc, Event.shownAt_append, List.map_append, shownAt_reports]
    exact congrArg (_ ++ ·) ends

/-- If the subroutines of a class have code up to one that has none, the log tells of those. -/
theorem textsAt_of_upTo_fails {source : String} {tree : Tree} {definition : Class} {count : Nat}
    {code : List Instruction} {error : CompileError} (parsed : (parse source).result = .ok tree)
    (read : Class.ofTree tree = .ok definition)
    (succeeds : (definition.upTo count).code.result = .ok code)
    (fails : (definition.upTo (count + 1)).code.result = .error error) :
    (compile source).result = .error error ∧ count < (tree.groups .subroutineDec).length ∧
      count = (blocks code).length ∧
      Event.textsAt .debug (compile source).events = List.zipWith
        (Tree.compiledText (tree.textAt 1)) ((tree.groups .subroutineDec).take count)
          (blocks code) := by
  obtain ⟨isRule, derives, -⟩ := exists_class_of_parse parsed
  obtain ⟨result, events⟩ := compile_eq parsed read
  obtain ⟨short, fails, warnings, warns, told⟩ :=
    derives.events_of_upTo_fails isRule read succeeds fails
  obtain ⟨same, -, -⟩ := derives.events_upTo isRule read succeeds
  rw [fails] at result events
  refine ⟨result, short, ?_, ?_⟩
  · rw [← same, List.length_take, Nat.min_eq_left (Nat.le_of_lt short)]
  · rw [events, Event.textsAt_append, Event.textsAt_eq_nil (traces_parse source) (by decide),
      List.nil_append, List.append_nil, told, Event.textsAt_append, textsAt_reports,
      Event.textsAt_eq_nil warns (by decide), List.append_nil]

/-- A class that has no code either has a first subroutine that has none, or its variables cannot be
declared, and then nothing is reported. -/
theorem Class.exists_upTo_fails {definition : Class} {error : CompileError}
    (fails : definition.code.result = .error error) :
    (∃ count code flaw, (definition.upTo count).code.result = .ok code ∧
      (definition.upTo (count + 1)).code.result = .error flaw) ∨
    ((definition.upTo 0).code.result = .error error ∧ definition.code.events = []) := by
  obtain ⟨name, declarations, members⟩ := definition
  cases declared : (Scope.root name).declareVariables declarations with
  | error flaw =>
    refine .inr ⟨?_, ?_⟩
    · rw [← fails]
      simp [upTo, code, declared, bind]
    · simp [code, declared, events_bind]
  | ok scope =>
    left
    by_contra never
    have always (count : Nat) :
        ∃ code, ((⟨name, declarations, members⟩ : Class).upTo count).code.result = .ok code := by
      induction count with
      | zero => exact ⟨[], Class.code_eq_ok.mpr ⟨scope, declared, Member.codeOfList_nil.mpr rfl⟩⟩
      | succ count ih =>
        obtain ⟨code, succeeds⟩ := ih
        cases later : ((⟨name, declarations, members⟩ : Class).upTo (count + 1)).code.result with
        | ok code => exact ⟨code, rfl⟩
        | error flaw => exact absurd ⟨count, code, flaw, succeeds, later⟩ never
    obtain ⟨code, whole⟩ := always members.length
    rw [upTo, List.take_length, fails] at whole
    cases whole

/-- The log of a text that is a class without code ends in front of some subroutine, unless the
variables of the class cannot be declared. -/
theorem exists_failure_of_compile {source : String} {tree : Tree} {definition : Class}
    {error : CompileError} (parsed : (parse source).result = .ok tree)
    (read : Class.ofTree tree = .ok definition)
    (fails : (compile source).result = .error error) :
    (∃ count code, (definition.upTo count).code.result = .ok code ∧
      (definition.upTo (count + 1)).code.result = .error error) ∨
    ((definition.upTo 0).code.result = .error error ∧
      Event.textsAt .debug (compile source).events = []) := by
  obtain ⟨result, events⟩ := compile_eq parsed read
  rw [fails] at result
  cases emitted : definition.code.result with
  | ok code =>
    rw [emitted] at result
    cases result
  | error flaw =>
    rw [emitted] at result events
    obtain rfl : error = flaw := Except.error.inj result
    rcases Class.exists_upTo_fails emitted with ⟨count, code, flaw, succeeds, later⟩ | ⟨first, told⟩
    · have same := (textsAt_of_upTo_fails parsed read succeeds later).1
      rw [fails] at same
      obtain rfl : error = flaw := Except.error.inj same
      exact .inl ⟨count, code, succeeds, later⟩
    · refine .inr ⟨first, ?_⟩
      rw [events, told, Event.textsAt_append,
        Event.textsAt_eq_nil (traces_parse source) (by decide)]
      rfl

/-- Truth of the log. If a source text has code, then the log of its compilation down to the
severity of the blocks is, subroutine by subroutine in the order of the tree, one warning for each
call without a qualifier in a function's body and then the number of locals and the length of the
block, and at the end the size of the whole code, which is the sum of those lengths. If the text is
a class and its subroutines have code up to one that has none, the log tells of the blocks in front
of that one and of nothing else; and there is such a subroutine, unless the variables of the class
cannot be declared, of which the log tells nothing. -/
theorem compile_log (source : String) :
    (∀ artifact, (compile source).result = .ok artifact → ∃ tree,
      (parse source).result = .ok tree ∧ artifact.className = tree.textAt 1 ∧
      (tree.groups .subroutineDec).length = (blocks artifact.code).length ∧
      artifact.code.length = ((blocks artifact.code).map fun block => block.code.length).sum ∧
      (Event.shownAt (some .debug) (compile source).events).map Event.record =
        tree.log artifact.code) ∧
    (∀ tree definition count code error, (parse source).result = .ok tree →
      Class.ofTree tree = .ok definition → (definition.upTo count).code.result = .ok code →
      (definition.upTo (count + 1)).code.result = .error error →
      (compile source).result = .error error ∧ count < (tree.groups .subroutineDec).length ∧
      count = (blocks code).length ∧
      Event.textsAt .debug (compile source).events = List.zipWith
        (Tree.compiledText (tree.textAt 1)) ((tree.groups .subroutineDec).take count)
          (blocks code)) ∧
    (∀ tree definition error, (parse source).result = .ok tree →
      Class.ofTree tree = .ok definition → (compile source).result = .error error →
      (∃ count code, (definition.upTo count).code.result = .ok code ∧
        (definition.upTo (count + 1)).code.result = .error error) ∨
      ((definition.upTo 0).code.result = .error error ∧
        Event.textsAt .debug (compile source).events = [])) := by
  refine ⟨fun artifact compiled => ?_,
    fun tree definition count code error => textsAt_of_upTo_fails,
    fun tree definition error => exists_failure_of_compile⟩
  obtain ⟨tree, parsed, named, same, cut, told⟩ := exists_log_of_compile compiled
  have size := congrArg List.length cut
  rw [List.length_flatMap] at size
  exact ⟨tree, parsed, named, same, size, told⟩

/-- A class whose first subroutine is a function with two calls without a qualifier, one in the
arguments of the other, and whose second one is a method. -/
def callsSource : String :=
  "class A \x7b function int f(int x) \x7b return g(f(x), A.f(1)); \x7d\n" ++
    "method int g() \x7b var int y; do g(); return y; \x7d \x7d\n"

def callsCode : List Instruction :=
  [.function "A.f" 0, .push .pointer 0, .push .pointer 0, .push .argument 0, .call "A.f" 2,
    .push .constant 1, .call "A.f" 1, .call "A.g" 3, .ret, .function "A.g" 1, .push .argument 0,
    .pop .pointer 0, .push .pointer 0, .call "A.g" 1, .pop .temp 7, .push .localVar 0, .ret]

/-- A class whose second subroutine has no code. -/
def stoppedSource : String :=
  "class A \x7b function void f() \x7b do f(); return; \x7d\n" ++
    "function int g() \x7b do f(); return x; \x7d \x7d\n"

theorem compile_log_callsSource :
    (∃ tree, (parse callsSource).result = .ok tree ∧ tree.log callsCode =
      [(.warn, "A.f: unqualified call to `g` inside a function passes a receiver that does not " ++
          "exist"),
        (.warn, "A.f: unqualified call to `f` inside a function passes a receiver that does not " ++
          "exist"),
        (.debug, "compiled A.f: 0 locals, 9 instructions"),
        (.debug, "compiled A.g: 1 locals, 8 instructions"),
        (.debug, "generated 17 instructions for class A"),
        (.debug, "compiled class A into 17 instructions")]) ∧
    (∃ tree definition code, (parse stoppedSource).result = .ok tree ∧
      Class.ofTree tree = .ok definition ∧ (definition.upTo 1).code.result = .ok code ∧
      (definition.upTo 2).code.result = .error (.undeclaredVariable "A.g" "x") ∧
      (blocks code).length = 1) := by
  constructor
  · have compiled : (compile callsSource).result = .ok ⟨"A", callsCode⟩ := by decide +kernel
    obtain ⟨tree, parsed, -, -, -, told⟩ := (compile_log callsSource).1 _ compiled
    refine ⟨tree, parsed, ?_⟩
    rw [← told]
    decide +kernel
  · have fails : (compile stoppedSource).result = .error (.undeclaredVariable "A.g" "x") := by
      decide +kernel
    have told : Event.textsAt .debug (compile stoppedSource).events =
        ["compiled A.f: 0 locals, 6 instructions"] := by
      decide +kernel
    have isClass : (parse stoppedSource).result.toBool = true := by decide +kernel
    cases parsed : (parse stoppedSource).result with
    | error error =>
      rw [parsed] at isClass
      cases isClass
    | ok tree =>
      obtain ⟨-, -, definition, read⟩ := exists_class_of_parse parsed
      rcases (compile_log stoppedSource).2.2 tree definition _ parsed read fails with
        ⟨count, code, succeeds, later⟩ | ⟨-, silent⟩
      · obtain ⟨-, short, length, texts⟩ :=
          (compile_log stoppedSource).2.1 tree definition count code _ parsed read succeeds later
        have one := congrArg List.length (told.symm.trans texts)
        rw [List.length_zipWith, List.length_take, ← length, List.length_singleton] at one
        obtain rfl : count = 1 := by omega
        exact ⟨tree, definition, code, rfl, read, succeeds, later, length.symm⟩
      · rw [told] at silent
        cases silent

end JackCompiler
