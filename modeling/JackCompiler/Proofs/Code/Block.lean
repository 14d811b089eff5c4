import Mathlib.Data.List.Forall2
import JackCompiler.Proofs.Code.Access
import JackCompiler.Proofs.Program.Outline

/-!
# The blocks of generated code

Code falls into blocks, each of which begins with a header and ends in front of the next one. The
code of a class is nothing but its blocks, one for each subroutine in order
(`exists_blocks_of_generate`), and `Emitted` says all that a subroutine of any tree, malformed or
not, has to do with its block.
-/

set_option autoImplicit false

namespace JackCompiler

/-- Whether an instruction is the header of a subroutine. -/
def Instruction.isHeader : Instruction → Bool
  | function _ _ => true
  | _ => false

/-- A header, by its name and its number of locals, and the code behind it. -/
structure Block where
  name : String
  locals : Nat
  body : List Instruction
  deriving DecidableEq, Repr

/-- The code of a block. -/
def Block.code (block : Block) : List Instruction :=
  .function block.name block.locals :: block.body

/-- The blocks of code, one for each header. -/
def blocks : List Instruction → List Block
  | [] => []
  | .function name locals :: later =>
    ⟨name, locals, later.takeWhile (!·.isHeader)⟩ :: blocks later
  | _ :: later => blocks later

/-- Whether code has no header. -/
def Headless (code : List Instruction) : Prop := ∀ instruction ∈ code, instruction.isHeader = false

namespace Headless

variable {first second code : List Instruction}

theorem append (one : Headless first) (two : Headless second) : Headless (first ++ second) := by
  intro instruction among
  rcases List.mem_append.mp among with among | among
  · exact one instruction among
  · exact two instruction among

theorem blocks_append (headless : Headless first) : blocks (first ++ second) = blocks second := by
  induction first with
  | nil => rfl
  | cons instruction later ih =>
    unfold Headless at headless
    rw [List.forall_mem_cons] at headless
    rw [← ih headless.2]
    cases instruction with
    | function name locals => cases headless.1
    | _ => rfl

theorem takeWhile_append (headless : Headless first)
    (starts : ∀ instruction ∈ second.head?, instruction.isHeader = true) :
    (first ++ second).takeWhile (!·.isHeader) = first := by
  rw [List.takeWhile_append_of_pos]
  · cases second with
    | nil => simp
    | cons instruction later =>
      have header := starts instruction rfl
      rw [List.takeWhile_cons_of_neg (by simp [header]), List.append_nil]
  · intro instruction among
    simp [headless instruction among]

end Headless

/-- Blocks without headers inside are found again in their code. -/
theorem blocks_flatMap_code {list : List Block} (headless : ∀ block ∈ list, Headless block.body) :
    blocks (list.flatMap Block.code) = list := by
  induction list with
  | nil => rfl
  | cons block later ih =>
    rw [List.forall_mem_cons] at headless
    have starts : ∀ instruction ∈ (later.flatMap Block.code).head?,
        instruction.isHeader = true := by
      cases later with
      | nil => simp
      | cons next others => simp [Block.code, Instruction.isHeader]
    have code : (block :: later).flatMap Block.code =
        .function block.name block.locals :: (block.body ++ later.flatMap Block.code) := rfl
    rw [code, blocks, headless.1.takeWhile_append starts, headless.1.blocks_append, ih headless.2]

theorem Accesses.headless {scope : Scope} {mentions : List Mention} {code : List Instruction}
    (accesses : Accesses scope mentions code) : Headless code := by
  intro instruction among
  cases instruction with
  | function name locals => cases accesses.plain _ among rfl
  | _ => rfl

/-! ## Bodies -/

/-- The code of the parts of a body has no header. None of the parts is missing, and each of them
has declared its variables. -/
theorem BodyPart.of_codeOfList {parts : List BodyPart} {frame : Frame} {next : Nat}
    {code : List Instruction} {inner : Scope}
    (emitted : (codeOfList frame next parts).result = .ok (code, inner)) :
    Headless code ∧ (∀ error, flaw error ∉ parts) ∧
      frame.scope.declareEach (parts.flatMap bindings) = .ok inner := by
  induction parts generalizing frame next code with
  | nil =>
    obtain ⟨rfl, rfl⟩ := codeOfList_nil.mp emitted
    exact ⟨by simp [Headless], by simp, rfl⟩
  | cons part later ih =>
    cases part with
    | declare declaration =>
      obtain ⟨scope, declared, laterCode⟩ := codeOfList_declare.mp emitted
      obtain ⟨headless, readable, rest⟩ := ih laterCode
      refine ⟨headless, by simpa using readable, ?_⟩
      rw [Scope.declareAll_eq] at declared
      rw [List.flatMap_cons, Scope.declareEach_append]
      exact except_bind_eq_ok.mpr ⟨scope, declared, rest⟩
    | statements block =>
      obtain ⟨first, free, blockCode, more, moreCode, rfl⟩ := codeOfList_statements.mp emitted
      obtain ⟨headless, readable, rest⟩ := ih moreCode
      have accesses := Statement.accesses_codeOfBlock
        (fun statement _ _ _ _ h => Statement.accesses_code h) blockCode
      exact ⟨accesses.headless.append headless, by simpa using readable, rest⟩
    | flaw error => exact absurd emitted codeOfList_flaw

/-- The code of declarations and a block is that of the block, once the variables are declared. -/
theorem BodyPart.codeOfList_declarations {declarations : List Declaration}
    {block : List Statement} {frame : Frame} {next : Nat} {code : List Instruction}
    {inner : Scope} :
    (codeOfList frame next (declarations.map .declare ++ [.statements block])).result =
        .ok (code, inner) ↔
      frame.scope.declareEach (declarations.flatMap (·.bindings .localVar)) = .ok inner ∧
        ∃ free, (Statement.codeOfBlock { frame with scope := inner } next block).result =
          .ok (code, free) := by
  induction declarations generalizing frame with
  | nil =>
    rw [List.map_nil, List.nil_append, codeOfList_statements, List.flatMap_nil, Scope.declareEach]
    constructor
    · rintro ⟨first, free, blockCode, more, moreCode, rfl⟩
      obtain ⟨rfl, rfl⟩ := codeOfList_nil.mp moreCode
      rw [List.append_nil]
      exact ⟨rfl, free, blockCode⟩
    · rintro ⟨same, free, blockCode⟩
      cases same
      exact ⟨code, free, blockCode, [], codeOfList_nil.mpr ⟨rfl, rfl⟩, (List.append_nil _).symm⟩
  | cons declaration later ih =>
    rw [List.map_cons, List.cons_append, codeOfList_declare, List.flatMap_cons,
      Scope.declareEach_append, except_bind_eq_ok, ← exists_and_right]
    refine exists_congr fun scope => ?_
    rw [ih, Scope.declareAll_eq, and_assoc]

/-! ## Subroutines -/

theorem Subroutine.headless_prologue (fields : Nat) (kind : SubroutineKind) :
    Headless (prologue fields kind) := by
  cases kind <;> simp [Headless, prologue, Instruction.isHeader]

/-- The scope of a class with the given variables. -/
def classScope (className : String) (fields : List Binding) : Scope :=
  (Scope.root className).addAll fields

/-- The scope of a subroutine with the given arguments, in a class with the given variables. -/
def subroutineScope (className : String) (fields : List Binding) (name : String)
    (arguments : List Binding) : Scope :=
  (Scope.child name (classScope className fields)).addAll arguments

/-- What a subroutine of any tree has to do with the block of code that is generated for it in a
class with the given variables: which parts were read, which variables were declared, and what the
block is made of. -/
structure Emitted (className : String) (fields : List Binding) (tree : Tree) (block : Block)
    (subroutine : Subroutine) (arguments : List Binding) (body : List Instruction) : Prop where
  read : Subroutine.ofTree tree = .ok subroutine
  argumentNames : arguments.map (·.name) = tree.argumentNames
  areArguments : ∀ binding ∈ arguments, binding.kind = .argument
  localNames : (subroutine.body.flatMap BodyPart.bindings).map (·.name) = tree.localNames
  distinct : (tree.argumentNames ++ tree.localNames).Nodup
  emitted : (BodyPart.codeOfList
    ⟨className, subroutine.kind, subroutineScope className fields (tree.textAt 2) arguments⟩ 0
    subroutine.body).result = .ok (body, subroutineScope className fields (tree.textAt 2)
      (arguments ++ subroutine.body.flatMap BodyPart.bindings))
  block_eq : block = ⟨s!"{className}.{tree.textAt 2}", tree.localNames.length,
    Subroutine.prologue ((classScope className fields).count .field) subroutine.kind ++ body⟩

theorem SubroutineKind.receiver_areArguments {className : String} {kind : SubroutineKind} :
    ∀ binding ∈ kind.receiver className, binding.kind = .argument := by
  cases kind <;> simp [receiver]

theorem BodyPart.bindings_areLocals {parts : List BodyPart} :
    ∀ binding ∈ parts.flatMap bindings, binding.kind = .localVar := by
  intro binding among
  obtain ⟨part, -, among⟩ := List.mem_flatMap.mp among
  cases part with
  | declare declaration =>
    obtain ⟨name, -, rfl⟩ := List.mem_map.mp among
    rfl
  | statements block => cases among
  | flaw error => cases among

theorem Parameter.bindings_areArguments {found : List Parameter} :
    ∀ binding ∈ found.map Parameter.binding, binding.kind = .argument := by
  intro binding among
  obtain ⟨parameter, -, rfl⟩ := List.mem_map.mp among
  rfl

theorem qualifiedName_subroutineScope (className : String) (fields : List Binding) (name : String)
    (arguments : List Binding) :
    (subroutineScope className fields name arguments).qualifiedName = s!"{className}.{name}" := by
  have inner : (classScope className fields).inner.name = className :=
    (Level.addAll_name_nextLabel fields).1
  rw [subroutineScope, Scope.qualifiedName_addAll]
  show s!"{(classScope className fields).inner.name}.{name}" = _
  rw [inner]

theorem addAll_subroutineScope (className : String) (fields : List Binding) (name : String)
    (arguments further : List Binding) :
    (subroutineScope className fields name arguments).addAll further =
      subroutineScope className fields name (arguments ++ further) :=
  Scope.addAll_addAll arguments further

theorem allNames_subroutineScope (className : String) (fields : List Binding) (name : String)
    (arguments : List Binding) :
    (subroutineScope className fields name arguments).inner.allNames =
      arguments.map (·.name) :=
  Level.allNames_addAll arguments

theorem names_subroutineScope (className : String) (fields : List Binding) (name : String)
    (arguments : List Binding) (kind : VariableKind) :
    (subroutineScope className fields name arguments).inner.names kind =
      Binding.namesOf kind arguments :=
  Level.names_addAll arguments

/-- A scope counts the variables of a body and not the arguments in front of them. -/
theorem count_subroutineScope {className name : String} {fields arguments locals : List Binding}
    (areArguments : ∀ binding ∈ arguments, binding.kind = .argument)
    (areLocals : ∀ binding ∈ locals, binding.kind = .localVar) :
    (subroutineScope className fields name (arguments ++ locals)).count .localVar =
      locals.length := by
  have noLocals : Binding.namesOf .localVar arguments = [] := by
    apply Binding.namesOf_eq_nil
    intro binding among
    simp [areArguments binding among]
  rw [Scope.count, ← Level.length_names, names_subroutineScope, Binding.namesOf_append, noLocals,
    Binding.namesOf_eq_map areLocals, List.nil_append, List.length_map]

/-- A subroutine that has code is emitted as one block. -/
theorem Emitted.of_code {className : String} {fields : List Binding} {tree : Tree}
    {subroutine : Subroutine} {code : List Instruction}
    (read : Subroutine.ofTree tree = .ok subroutine)
    (emitted : (subroutine.code className (classScope className fields)
      (tree.textAt 2)).result = .ok code) :
    ∃ block arguments body, Emitted className fields tree block subroutine arguments body ∧
      code = block.code ∧ Headless block.body := by
  obtain ⟨scope, declared, body, inner, bodyCode, rfl⟩ := Subroutine.code_eq_ok.mp emitted
  obtain ⟨found, parameters⟩ := Subroutine.exists_of_scope_eq_ok declared
  have names := @Subroutine.names_arguments tree subroutine className found read parameters
  have areArguments : ∀ binding ∈ subroutine.kind.receiver className ++
      found.map Parameter.binding, binding.kind = .argument := by
    intro binding among
    rcases List.mem_append.mp among with among | among
    · exact SubroutineKind.receiver_areArguments binding among
    · exact Parameter.bindings_areArguments binding among
  have fresh : (Scope.child (tree.textAt 2) (classScope className fields)).inner.allNames.Nodup :=
    List.nodup_nil
  rw [Subroutine.scope_eq parameters, Scope.declareEach_eq_ok fresh] at declared
  obtain ⟨distinct, rfl⟩ := declared
  obtain ⟨headless, readable, declared⟩ := BodyPart.of_codeOfList bodyCode
  have localNames := Subroutine.names_locals read readable
  generalize subroutine.kind.receiver className ++ found.map Parameter.binding = arguments at *
  have outer := allNames_subroutineScope className fields (tree.textAt 2) arguments
  have distinct : arguments.map (·.name) |>.Nodup := distinct
  rw [← outer] at distinct
  obtain ⟨distinct, rfl⟩ := (Scope.declareEach_eq_ok distinct).mp declared
  have distinct : (tree.argumentNames ++ tree.localNames).Nodup := by
    rw [← names, ← localNames, ← outer]
    exact distinct
  have counted := @count_subroutineScope className (tree.textAt 2) fields _ _ areArguments
    (@BodyPart.bindings_areLocals subroutine.body)
  rw [← List.length_map (·.name), localNames] at counted
  have first : (subroutineScope className fields (tree.textAt 2) arguments).inner.nextLabel = 0 :=
    (Level.addAll_name_nextLabel arguments).2
  have bodyCode : (BodyPart.codeOfList _ (subroutineScope _ _ _ arguments).inner.nextLabel
    _).result = .ok (body, _) := bodyCode
  rw [first, addAll_subroutineScope] at bodyCode
  refine ⟨_, arguments, body, ⟨read, names, areArguments, localNames, distinct, bodyCode, rfl⟩,
    ?_, ?_⟩
  · have named := qualifiedName_subroutineScope className fields (tree.textAt 2) arguments
    rw [addAll_subroutineScope, Block.code, ← named, ← counted]
    rfl
  · exact (Subroutine.headless_prologue _ _).append headless

/-! ## Classes -/

section Related

variable {α β : Type} {R : α → β → Prop} {first : List α} {second : List β}

/-- Every member of the second one of two related lists is related to a member of the first one. -/
theorem exists_of_mem_right (related : List.Forall₂ R first second) {b : β} (among : b ∈ second) :
    ∃ a ∈ first, R a b := by
  induction related with
  | nil => cases among
  | @cons a own first second here _ ih =>
    rcases List.mem_cons.mp among with rfl | among
    · exact ⟨a, List.mem_cons_self, here⟩
    · obtain ⟨other, inside, there⟩ := ih among
      exact ⟨other, List.mem_cons_of_mem a inside, there⟩

theorem exists_of_mem_left (related : List.Forall₂ R first second) {a : α} (among : a ∈ first) :
    ∃ b ∈ second, R a b :=
  exists_of_mem_right related.flip among

end Related

/-- The code of subroutines with different names is one block for each of them, in order. -/
theorem Member.exists_blocks {className : String} {fields : List Binding} {seen : List String}
    {trees : List Tree} {code : List Instruction}
    (emitted : (codeOfList className (classScope className fields) seen
      (trees.map Member.ofTree)).result = .ok code) :
    (trees.map (·.textAt 2)).Nodup ∧ (∀ tree ∈ trees, tree.textAt 2 ∉ seen) ∧
      ∃ list : List Block, code = list.flatMap Block.code ∧
        (∀ block ∈ list, Headless block.body) ∧
        List.Forall₂ (fun tree block => ∃ subroutine arguments body,
          Emitted className fields tree block subroutine arguments body) trees list := by
  induction trees generalizing seen code with
  | nil =>
    obtain rfl := codeOfList_nil.mp emitted
    exact ⟨List.nodup_nil, by simp, [], rfl, by simp, .nil⟩
  | cons tree later ih =>
    obtain ⟨member, read, new, subroutine, whole, first, firstCode, more, moreCode, rfl⟩ :=
      codeOfList_cons.mp emitted
    obtain rfl := Member.ofTree_eq_ok read
    obtain ⟨block, arguments, body, own, rfl, headless⟩ := Emitted.of_code whole firstCode
    obtain ⟨distinct, unseen, list, rfl, others, each⟩ := ih moreCode
    refine ⟨?_, ?_, block :: list, rfl, ?_, .cons ⟨subroutine, arguments, body, own⟩ each⟩
    · rw [List.map_cons, List.nodup_cons, List.mem_map]
      refine ⟨?_, distinct⟩
      rintro ⟨other, among, same⟩
      exact unseen other among (same ▸ List.mem_cons_self)
    · rw [List.forall_mem_cons]
      refine ⟨new, ?_⟩
      intro other among old
      exact unseen other among (List.mem_cons_of_mem _ old)
    · exact List.forall_mem_cons.mpr ⟨headless, others⟩

/-- What the variables of a class are that is read from a tree, malformed or not. -/
structure Tree.Declares (tree : Tree) (fields : List Binding) : Prop where
  names : fields.map (·.name) = tree.classNames
  kinds : ∀ kind, Binding.namesOf kind fields = tree.classNamesOf kind
  areFields : ∀ binding ∈ fields, binding.kind = .static ∨ binding.kind = .field
  distinct : tree.classNames.Nodup

/-- The code of a class of any tree is its blocks, one for each subroutine in order. The variables
of the class have the names that the tree declares, and no name is repeated. -/
theorem exists_blocks_of_generate {tree : Tree} {code : List Instruction}
    (emitted : (generate tree).result = .ok code) :
    code = (blocks code).flatMap Block.code ∧
      ((tree.groups .subroutineDec).map (·.textAt 2)).Nodup ∧
      ∃ fields : List Binding, tree.Declares fields ∧
        List.Forall₂ (fun subroutine block => ∃ read arguments body,
          Emitted (tree.textAt 1) fields subroutine block read arguments body)
          (tree.groups .subroutineDec) (blocks code) := by
  obtain ⟨definition, read, classCode⟩ := generate_eq_ok.mp emitted
  obtain rfl := Class.ofTree_eq_ok read
  obtain ⟨scope, declared, membersCode⟩ := Class.code_eq_ok.mp classCode
  obtain ⟨found, readable⟩ := Scope.exists_of_declareVariables_eq_ok declared
  have names := Class.names_variables readable
  have fresh : (Scope.root (tree.textAt 1)).inner.allNames.Nodup := List.nodup_nil
  rw [readable, Scope.declareVariables_map_ok, Scope.declareEach_eq_ok fresh] at declared
  obtain ⟨distinct, rfl⟩ := declared
  obtain ⟨different, -, list, rfl, headless, each⟩ := Member.exists_blocks membersCode
  have same := blocks_flatMap_code headless
  rw [same]
  have distinct : ((found.flatMap fun part => part.2.bindings part.1).map (·.name)).Nodup :=
    distinct
  rw [names] at distinct
  exact ⟨rfl, different, _,
    ⟨names, Class.namesOf_variables readable, Class.kinds_variables readable, distinct⟩, each⟩

end JackCompiler
