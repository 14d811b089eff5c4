import JackCompiler.Proofs.Code.Block
import JackCompiler.Proofs.Code.Verdict
import JackCompiler.Proofs.Program.Regular
import JackCompiler.Proofs.Syntax.Soundness

/-!
# The memory in reach of generated code

The names that a class and its subroutines declare tell how many variables of each kind there are
and where each of them lives. Generated code stays within that number for every kind, whatever tree
it is generated from. In the code of a class that the parser read, every mention of a variable is
one access to the slot of its nearest declaration. The main result is `generate_accesses_declared`.
-/

set_option autoImplicit false

namespace JackCompiler

/-! ## Slots of a subroutine -/

namespace Tree

/-- The names of the variables of a kind that a subroutine of a class can reach, in the order of
their declaration. -/
def reach (tree subroutine : Tree) : VariableKind → List String
  | .static => tree.classNamesOf .static
  | .field => tree.classNamesOf .field
  | .argument => subroutine.argumentNames
  | .localVar => subroutine.localNames

/-- Where the nearest declaration of a name puts its variable: the declarations of the subroutine
come before those of the class. -/
def slot? (tree subroutine : Tree) (name : String) : Option (Segment × Nat) :=
  slotAmong (tree.reach subroutine) [.localVar, .argument, .static, .field] name

/-- Where a mention in a subroutine leads, if it is one of a variable. -/
def mentionedSlot? (tree subroutine : Tree) : Mention → Option (Segment × Nat)
  | .variable name | .context name => tree.slot? subroutine name
  | .text _ | .flaw _ => none

end Tree

/-- Whether a segment has a word of this number, if there is so much room for the variables of each
kind. -/
def Segment.Has (room : VariableKind → Nat) (index : Nat) : Segment → Prop
  | static => index < room .static
  | this => index < room .field
  | argument => index < room .argument
  | localVar => index < room .localVar
  | constant => True
  | pointer => index = 0 ∨ index = 1
  | that => index = 0
  | temp => index = 0 ∨ index = 7

/-- Whether an instruction moves words only from and to places that there are. -/
def Instruction.Within (room : VariableKind → Nat) : Instruction → Prop
  | push segment index => segment.Has room index
  | pop segment index => segment ≠ .constant ∧ segment.Has room index
  | operate _ | label _ | goto _ | ifGoto _ | function _ _ | call _ _ | ret => True

section Within

variable {room : VariableKind → Nat} {instruction : Instruction}

theorem Segment.has_of_kind {kind : VariableKind} {index : Nat} (inside : index < room kind) :
    kind.segment.Has room index := by
  cases kind <;> exact inside

theorem Instruction.Plain.within (plain : instruction.Plain) : instruction.Within room := by
  cases instruction with
  | push segment index =>
    cases segment with
    | pointer => exact Nat.le_one_iff_eq_zero_or_eq_one.mp plain
    | constant | that | temp => exact plain
    | static | this | argument | localVar => cases plain
  | pop segment index =>
    cases segment with
    | pointer => exact ⟨by decide, Nat.le_one_iff_eq_zero_or_eq_one.mp plain⟩
    | that | temp => exact ⟨by decide, plain⟩
    | constant | static | this | argument | localVar => cases plain
  | _ => trivial

/-- An access to a variable stays within the room for its kind. -/
theorem Instruction.within_of_slot {kind : VariableKind} {index : Nat}
    (accessed : instruction.slot? = some (kind.segment, index)) (inside : index < room kind) :
    instruction.Within room := by
  have isVariable : kind.segment ≠ .constant := by cases kind <;> decide
  rcases eq_of_slot?_eq_some accessed with rfl | rfl
  · exact Segment.has_of_kind inside
  · exact ⟨isVariable, Segment.has_of_kind inside⟩

end Within

/-- Code that accesses what a scope resolves stays within the numbers of that scope. -/
theorem Accesses.within {scope : Scope} {mentions : List Mention} {code : List Instruction}
    {room : VariableKind → Nat} (accesses : Accesses scope mentions code)
    (resolved : ∀ name declared, scope.resolve? name = some declared →
      declared.index < room declared.kind) :
    ∀ instruction ∈ code, instruction.Within room := by
  intro instruction among
  cases accessed : instruction.slot? with
  | none => exact (accesses.plain instruction among accessed).within
  | some slot =>
    have listed : slot ∈ code.filterMap Instruction.slot? :=
      List.mem_filterMap.mpr ⟨instruction, among, accessed⟩
    rw [accesses.slots] at listed
    obtain ⟨mention, -, mentioned⟩ := List.mem_filterMap.mp listed
    have found : ∃ name, (scope.resolve? name).map Variable.slot = some slot := by
      cases mention with
      | «variable» name => exact ⟨name, mentioned⟩
      | context name => exact ⟨name, mentioned⟩
      | text value => cases mentioned
      | flaw error => cases mentioned
    obtain ⟨name, found⟩ := found
    obtain ⟨declared, isDeclared, rfl⟩ := Option.map_eq_some_iff.mp found
    exact Instruction.within_of_slot accessed (resolved name declared isDeclared)

/-! ## Bodies -/

namespace BodyPart

/-- Every instruction of a body is part of a block that sees the variables declared in front of
it. -/
theorem exists_accesses {parts : List BodyPart} {frame : Frame} {next : Nat}
    {code : List Instruction} {inner : Scope}
    (emitted : (codeOfList frame next parts).result = .ok (code, inner)) :
    ∀ instruction ∈ code, ∃ earlier later mentions own,
      parts.flatMap bindings = earlier ++ later ∧
        Accesses (frame.scope.addAll earlier) mentions own ∧ instruction ∈ own := by
  induction parts generalizing frame next code with
  | nil =>
    obtain ⟨rfl, -⟩ := codeOfList_nil.mp emitted
    intro instruction among
    cases among
  | cons part rest ih =>
    intro instruction among
    cases part with
    | declare declaration =>
      obtain ⟨scope, declared, restCode⟩ := codeOfList_declare.mp emitted
      rw [Scope.declareAll_eq] at declared
      obtain rfl := Scope.eq_addAll_of_declareEach declared
      obtain ⟨earlier, later, mentions, own, split, accesses, inside⟩ := ih restCode _ among
      refine ⟨declaration.bindings .localVar ++ earlier, later, mentions, own, ?_, ?_, inside⟩
      · rw [List.flatMap_cons, split, List.append_assoc]
        rfl
      · rw [Scope.addAll_addAll] at accesses
        exact accesses
    | statements block =>
      obtain ⟨first, free, blockCode, more, moreCode, rfl⟩ := codeOfList_statements.mp emitted
      rcases List.mem_append.mp among with here | there
      · exact ⟨[], rest.flatMap bindings, _, first, rfl, Statement.accesses_codeOfBlock
          (fun statement _ _ _ _ h => Statement.accesses_code h) blockCode, here⟩
      · exact ih moreCode _ there
    | flaw error => exact absurd emitted codeOfList_flaw

/-- A block behind declarations sees all of their variables. -/
theorem accesses_of_declarations {declarations : List Declaration} {block : List Statement}
    {frame : Frame} {next : Nat} {code : List Instruction} {inner : Scope}
    (emitted : (codeOfList frame next
      (declarations.map .declare ++ [.statements block])).result = .ok (code, inner)) :
    Accesses inner (Statement.mentionsOfBlock block) code := by
  obtain ⟨-, free, blockCode⟩ := codeOfList_declarations.mp emitted
  exact Statement.accesses_codeOfBlock (fun statement _ _ _ _ h => Statement.accesses_code h)
    blockCode

end BodyPart

/-! ## Scopes -/

section Scopes

variable {className name : String} {fields bindings : List Binding} {declared : Variable}

theorem dense_classScope (distinct : (fields.map (·.name)).Nodup) :
    (classScope className fields).inner.Dense :=
  (Level.Dense.empty className).addAll distinct

theorem dense_subroutineScope (distinct : (bindings.map (·.name)).Nodup) :
    (subroutineScope className fields name bindings).inner.Dense :=
  (Level.Dense.empty name).addAll distinct

theorem names_classScope (kind : VariableKind) :
    (classScope className fields).inner.names kind = Binding.namesOf kind fields :=
  Level.names_addAll fields

/-- A name is looked up in the subroutine first and then in the class. -/
theorem resolve?_subroutineScope (wanted : String) :
    (subroutineScope className fields name bindings).resolve? wanted =
      ((subroutineScope className fields name bindings).inner.find? wanted).or
        ((classScope className fields).inner.find? wanted) := by
  show List.findSome? _ [_, _] = _
  rw [List.findSome?_cons, List.findSome?_cons, List.findSome?_nil]
  cases (subroutineScope className fields name bindings).inner.find? wanted with
  | some declared => rfl
  | none => cases (classScope className fields).inner.find? wanted <;> rfl

end Scopes

namespace Tree.Declares

variable {tree : Tree} {fields : List Binding}

theorem dense (declares : tree.Declares fields) :
    (classScope (tree.textAt 1) fields).inner.Dense := by
  apply dense_classScope
  rw [declares.names]
  exact declares.distinct

/-- A class has static variables and fields only. -/
theorem mem_kinds (declares : tree.Declares fields) {kind : VariableKind} {name : String}
    (among : name ∈ (classScope (tree.textAt 1) fields).inner.names kind) :
    kind ∈ [VariableKind.static, .field] := by
  rw [names_classScope] at among
  obtain ⟨binding, listed, -⟩ := List.mem_map.mp among
  obtain ⟨isField, isKind⟩ := List.mem_filter.mp listed
  have ofClass := declares.areFields binding isField
  rw [of_decide_eq_true isKind] at ofClass
  simpa using ofClass

/-- The names of a class are in reach of all of its subroutines. -/
theorem names_eq (declares : tree.Declares fields) (sub : Tree) {kind : VariableKind}
    (ofClass : kind ∈ [VariableKind.static, .field]) :
    (classScope (tree.textAt 1) fields).inner.names kind = tree.reach sub kind := by
  rw [names_classScope, declares.kinds]
  cases kind with
  | static | field => rfl
  | argument | localVar => simp at ofClass

theorem index_lt (declares : tree.Declares fields) (sub : Tree) {name : String}
    {declared : Variable} (found : (classScope (tree.textAt 1) fields).inner.find? name =
      some declared) : declared.index < (tree.reach sub declared.kind).length := by
  have below := declares.dense.index_lt found
  have ofClass := declares.mem_kinds (declares.dense.mem_names_of_find? found)
  rw [← Level.length_names, declares.names_eq sub ofClass] at below
  exact below

/-- What a class has under a name is where its own declarations put it. -/
theorem slot_class (declares : tree.Declares fields) (sub : Tree) (name : String) :
    slotAmong (tree.reach sub) [.static, .field] name =
      ((classScope (tree.textAt 1) fields).inner.find? name).map Variable.slot := by
  rw [← declares.dense.slotAmong_names fun kind among => declares.mem_kinds among]
  apply slotAmong_congr
  intro kind ofClass
  exact (declares.names_eq sub ofClass).symm

end Tree.Declares

/-! ## Subroutines -/

theorem Subroutine.within_prologue {room : VariableKind → Nat} {kind : SubroutineKind}
    (fields : Nat) (receiver : kind = .method → 0 < room .argument) :
    ∀ instruction ∈ prologue fields kind, instruction.Within room := by
  cases kind with
  | constructor => simp [prologue, Instruction.Within, Segment.Has]
  | function => simp [prologue]
  | method => simpa [prologue, Instruction.Within, Segment.Has] using receiver rfl

/-- A prologue accesses the receiver of a method, and nothing otherwise. -/
theorem Subroutine.slots_prologue (fields : Nat) (kind : SubroutineKind) :
    (prologue fields kind).filterMap Instruction.slot? =
      if kind = .method then [(.argument, 0)] else [] := by
  cases kind <;> rfl

namespace Emitted

variable {tree sub : Tree} {fields arguments : List Binding} {block : Block}
  {subroutine : Subroutine} {body : List Instruction}

/-- The names that a subroutine declares for the variables of a kind are those it can reach, and
there are none of the kinds of a class. -/
theorem namesOf_eq (own : Emitted (tree.textAt 1) fields sub block subroutine arguments body)
    (kind : VariableKind) :
    Binding.namesOf kind (arguments ++ subroutine.body.flatMap BodyPart.bindings) =
      if kind = .static ∨ kind = .field then [] else tree.reach sub kind := by
  have areLocals := @BodyPart.bindings_areLocals subroutine.body
  rw [Binding.namesOf_append]
  cases kind with
  | argument =>
    rw [Binding.namesOf_eq_map own.areArguments, own.argumentNames, Binding.namesOf_eq_nil,
      List.append_nil]
    · rfl
    · intro binding among
      simp [areLocals binding among]
  | localVar =>
    rw [Binding.namesOf_eq_map areLocals, own.localNames, Binding.namesOf_eq_nil, List.nil_append]
    · rfl
    · intro binding among
      simp [own.areArguments binding among]
  | static | field =>
    rw [Binding.namesOf_eq_nil, Binding.namesOf_eq_nil, List.append_nil]
    · rfl
    · intro binding among
      simp [areLocals binding among]
    · intro binding among
      simp [own.areArguments binding among]

theorem nodup_names (own : Emitted (tree.textAt 1) fields sub block subroutine arguments body) :
    ((arguments ++ subroutine.body.flatMap BodyPart.bindings).map (·.name)).Nodup := by
  rw [List.map_append, own.argumentNames, own.localNames]
  exact own.distinct

/-- What is found in a subroutine while its variables are being declared has a number below that of
all variables of its kind. -/
theorem index_lt (own : Emitted (tree.textAt 1) fields sub block subroutine arguments body)
    (declares : tree.Declares fields) {earlier later : List Binding} {name : String}
    {declared : Variable} (split : subroutine.body.flatMap BodyPart.bindings = earlier ++ later)
    (found : (subroutineScope (tree.textAt 1) fields (sub.textAt 2)
      (arguments ++ earlier)).resolve? name = some declared) :
    declared.index < (tree.reach sub declared.kind).length := by
  have distinct := own.nodup_names
  rw [split, ← List.append_assoc, List.map_append] at distinct
  rw [resolve?_subroutineScope, Option.or_eq_some_iff] at found
  rcases found with inner | ⟨-, outer⟩
  · -- Variables that are declared later only raise the bound.
    have below := (dense_subroutineScope distinct.of_append_left).index_lt inner
    rw [← Level.length_names, names_subroutineScope] at below
    have whole := own.namesOf_eq declared.kind
    rw [split, ← List.append_assoc, Binding.namesOf_append] at whole
    by_cases ofClass : declared.kind = .static ∨ declared.kind = .field
    · rw [if_pos ofClass, List.append_eq_nil_iff] at whole
      rw [whole.1] at below
      cases below
    · rw [if_neg ofClass] at whole
      rw [← whole, List.length_append]
      omega
  · exact declares.index_lt sub outer

/-- What a subroutine has under a name is where its own declarations put it. -/
theorem slot_inner (own : Emitted (tree.textAt 1) fields sub block subroutine arguments body)
    (name : String) :
    slotAmong (tree.reach sub) [.localVar, .argument] name =
      ((subroutineScope (tree.textAt 1) fields (sub.textAt 2)
        (arguments ++ subroutine.body.flatMap BodyPart.bindings)).inner.find? name).map
          Variable.slot := by
  have dense := @dense_subroutineScope (tree.textAt 1) (sub.textAt 2) fields _ own.nodup_names
  have complete : ∀ kind, name ∈ (subroutineScope (tree.textAt 1) fields (sub.textAt 2)
      (arguments ++ subroutine.body.flatMap BodyPart.bindings)).inner.names kind →
      kind ∈ [VariableKind.localVar, .argument] := by
    intro kind among
    rw [names_subroutineScope, own.namesOf_eq kind] at among
    cases kind with
    | static | field => cases among
    | argument | localVar => simp
  rw [← dense.slotAmong_names complete]
  apply slotAmong_congr
  intro kind among
  rw [names_subroutineScope, own.namesOf_eq kind]
  cases kind with
  | static | field => simp at among
  | argument | localVar => rfl

/-- The slot of a name in the scope of a whole subroutine is the one that the declarations tell. -/
theorem slot?_eq (own : Emitted (tree.textAt 1) fields sub block subroutine arguments body)
    (declares : tree.Declares fields) (name : String) :
    ((subroutineScope (tree.textAt 1) fields (sub.textAt 2)
      (arguments ++ subroutine.body.flatMap BodyPart.bindings)).resolve? name).map Variable.slot =
      tree.slot? sub name := by
  have kinds : [VariableKind.localVar, .argument, .static, .field] =
      [.localVar, .argument] ++ [.static, .field] := rfl
  rw [Tree.slot?, kinds, slotAmong_append, own.slot_inner, declares.slot_class,
    resolve?_subroutineScope, Option.map_or]

theorem kind_eq_method_iff
    (own : Emitted (tree.textAt 1) fields sub block subroutine arguments body) :
    subroutine.kind = .method ↔ sub.textAt 0 = "method" := by
  rcases SubroutineKind.ofKeyword_eq_ok (Subroutine.ofTree_eq_ok own.read).1 with
    ⟨keyword, kind⟩ | ⟨keyword, kind⟩ | ⟨keyword, kind⟩ <;> simp [keyword, kind]

/-- The block of a subroutine stays within what the subroutine can reach. -/
theorem within (own : Emitted (tree.textAt 1) fields sub block subroutine arguments body)
    (declares : tree.Declares fields) :
    ∀ instruction ∈ block.body,
      instruction.Within fun kind => (tree.reach sub kind).length := by
  intro instruction among
  rw [own.block_eq] at among
  rcases List.mem_append.mp among with front | inside
  · refine Subroutine.within_prologue _ ?_ instruction front
    intro method
    show 0 < sub.argumentNames.length
    rw [Tree.argumentNames, if_pos (own.kind_eq_method_iff.mp method)]
    exact Nat.succ_pos _
  · obtain ⟨earlier, later, mentions, code, split, accesses, inside⟩ :=
      BodyPart.exists_accesses own.emitted instruction inside
    rw [addAll_subroutineScope] at accesses
    exact accesses.within (fun name declared found => own.index_lt declares split found)
      instruction inside

/-- A constructor allocates as many words as its class has fields. -/
theorem prologue_prefix
    (own : Emitted (tree.textAt 1) fields sub block subroutine arguments body)
    (declares : tree.Declares fields) (keyword : sub.textAt 0 = "constructor") :
    [.push .constant (tree.classNamesOf .field).length, .call "Memory.alloc" 1, .pop .pointer 0] <+:
      block.body := by
  have isKind := (Subroutine.ofTree_eq_ok own.read).1
  rw [keyword] at isKind
  have kind : subroutine.kind = .constructor := (Except.ok.inj isKind).symm
  have count : (classScope (tree.textAt 1) fields).count .field =
      (tree.classNamesOf .field).length := by
    rw [Scope.count, ← Level.length_names, names_classScope, declares.kinds]
  rw [own.block_eq, kind, ← count]
  exact List.prefix_append _ _

/-- A subroutine that the parser read passes the check of all that it mentions. -/
theorem check_eq_ok (own : Emitted (tree.textAt 1) fields sub block subroutine arguments body)
    (regular : subroutine.Regular sub) : ∀ mention ∈ sub.mentions,
      mention.check (subroutineScope (tree.textAt 1) fields (sub.textAt 2)
        (arguments ++ subroutine.body.flatMap BodyPart.bindings)) = .ok () := by
  obtain ⟨declarations, statements, parts, mentions, -⟩ := regular.body
  have verdict := Logged.verdict_eq_ok_iff.mpr ⟨_, own.emitted⟩
  rw [parts, BodyPart.verdict_codeOfList, except_bind_eq_ok, mentions] at verdict
  obtain ⟨scope, declared, checked⟩ := verdict
  rw [Scope.eq_addAll_of_declareEach declared, addAll_subroutineScope] at checked
  rw [parts, BodyPart.flatMap_bindings]
  exact Mention.checkEach_eq_ok_iff.mp checked

/-- The block of a subroutine that the parser read accesses the receiver of a method and then what
the subroutine mentions. -/
theorem slots_eq (own : Emitted (tree.textAt 1) fields sub block subroutine arguments body)
    (declares : tree.Declares fields) (regular : subroutine.Regular sub) :
    block.body.filterMap Instruction.slot? =
      (if sub.textAt 0 = "method" then [(.argument, 0)] else []) ++
        sub.mentions.filterMap (tree.mentionedSlot? sub) := by
  obtain ⟨declarations, statements, parts, mentions, -⟩ := regular.body
  have emitted := own.emitted
  rw [parts] at emitted
  have accesses := BodyPart.accesses_of_declarations emitted
  rw [← parts, mentions] at accesses
  have same : Mention.slot? (subroutineScope (tree.textAt 1) fields (sub.textAt 2)
      (arguments ++ subroutine.body.flatMap BodyPart.bindings)) = tree.mentionedSlot? sub := by
    funext mention
    cases mention with
    | «variable» name => exact own.slot?_eq declares name
    | context name => exact own.slot?_eq declares name
    | text value => rfl
    | flaw error => rfl
  rw [own.block_eq, List.filterMap_append, Subroutine.slots_prologue, accesses.slots, same]
  simp only [own.kind_eq_method_iff]

/-- A subroutine that the parser read has declarations for all variables that it mentions. -/
theorem exists_slot (own : Emitted (tree.textAt 1) fields sub block subroutine arguments body)
    (declares : tree.Declares fields) (regular : subroutine.Regular sub) {name : String}
    (mentioned : .variable name ∈ sub.mentions) : ∃ slot, tree.slot? sub name = some slot := by
  have checked := own.check_eq_ok regular _ mentioned
  obtain ⟨declared, found⟩ := Mention.check_variable_eq_ok_iff.mp checked
  rw [← own.slot?_eq declares, found]
  exact ⟨_, rfl⟩

end Emitted

/-! ## Classes -/

/-- Whatever tree code is generated from, the header of a subroutine counts its variables, the code
behind it stays within what the subroutine and the class declare, and a constructor allocates a word
for each field. If the parser returned the tree, no two declarations of a class or of a subroutine
have the same name, and the block of a subroutine accesses the receiver of a method and then, for
each mention of a variable, the slot of its nearest declaration, which no other name has. -/
theorem generate_accesses_declared (tree : Tree) (code : List Instruction)
    (emitted : (generate tree).result = .ok code) :
    code = (blocks code).flatMap Block.code ∧
      List.Forall₂ (fun sub block =>
        block.name = s!"{tree.textAt 1}.{sub.textAt 2}" ∧
        block.locals = sub.localNames.length ∧
        (∀ instruction ∈ block.body,
          instruction.Within fun kind => (tree.reach sub kind).length) ∧
        (sub.textAt 0 = "constructor" → [.push .constant (tree.classNamesOf .field).length,
          .call "Memory.alloc" 1, .pop .pointer 0] <+: block.body))
        (tree.groups .subroutineDec) (blocks code) ∧
      ∀ tokens, (parseTokens tokens).result = .ok tree →
        tree.classNames.Nodup ∧
        List.Forall₂ (fun sub block =>
          (sub.argumentNames ++ sub.localNames).Nodup ∧
          block.body.filterMap Instruction.slot? =
            (if sub.textAt 0 = "method" then [(.argument, 0)] else []) ++
              sub.mentions.filterMap (tree.mentionedSlot? sub) ∧
          (∀ name, .variable name ∈ sub.mentions → ∃ slot, tree.slot? sub name = some slot) ∧
          ∀ name other slot, tree.slot? sub name = some slot → tree.slot? sub other = some slot →
            name = other)
          (tree.groups .subroutineDec) (blocks code) := by
  obtain ⟨whole, -, fields, declares, each⟩ := exists_blocks_of_generate emitted
  refine ⟨whole, ?_, ?_⟩
  · refine each.imp ?_
    rintro sub block ⟨subroutine, arguments, body, own⟩
    exact ⟨congrArg Block.name own.block_eq, congrArg Block.locals own.block_eq,
      own.within declares, own.prologue_prefix declares⟩
  · intro tokens parsed
    obtain ⟨isRule, derives, -⟩ := derivation_of_parseTokens parsed
    have members : ∀ sub ∈ tree.groups .subroutineDec,
        sub.rule? = some .subroutineDec ∧ sub.Derivation :=
      fun sub among => derives.of_mem_groups isRule among
    refine ⟨declares.distinct, ((List.forall₂_and_left _ _).mpr ⟨members, each⟩).imp ?_⟩
    rintro sub block ⟨⟨isSubroutine, derives⟩, subroutine, arguments, body, own⟩
    have regular := derives.regular isSubroutine own.read
    exact ⟨own.distinct, own.slots_eq declares regular,
      fun name mentioned => own.exists_slot declares regular mentioned,
      fun name other slot one two => slotAmong_inj one two⟩

/-! ## A parameter with the name of a field -/

/-- The parameter of the constructor hides a field, and the first argument of the method is its
receiver. -/
def hidingSource : String :=
  "class A \x7b static int s; field int x, y;\n" ++
    "constructor A new(int x) \x7b let y = x; return this; \x7d\n" ++
    "method int f(A a) \x7b var A b; let b = a; do b.g(s); return x; \x7d \x7d\n"

def hidingCode : List Instruction :=
  [.function "A.new" 0, .push .constant 2, .call "Memory.alloc" 1, .pop .pointer 0,
    .push .argument 0, .pop .this 1, .push .pointer 0, .ret,
    .function "A.f" 1, .push .argument 0, .pop .pointer 0, .push .argument 1, .pop .localVar 0,
    .push .localVar 0, .push .static 0, .call "A.g" 2, .pop .temp 7, .push .this 0, .ret]

/-- The name `x` is an argument in the constructor and a field in the method. -/
theorem generate_accesses_declared_hidingSource :
    ∃ tree tokens, (generate tree).result = .ok hidingCode ∧
      (parseTokens tokens).result = .ok tree ∧
      List.Forall₂ (fun sub block => ∀ instruction ∈ block.body,
          instruction.Within fun kind => (tree.reach sub kind).length)
        (tree.groups .subroutineDec) (blocks hidingCode) ∧
      List.Forall₂ (fun sub block => block.body.filterMap Instruction.slot? =
          (if sub.textAt 0 = "method" then [(.argument, 0)] else []) ++
            sub.mentions.filterMap (tree.mentionedSlot? sub))
        (tree.groups .subroutineDec) (blocks hidingCode) := by
  have compiled : ((parse hidingSource).result >>= fun tree => (generate tree).result) =
      .ok hidingCode := by decide +kernel
  obtain ⟨tree, parsed, emitted⟩ := except_bind_eq_ok.mp compiled
  obtain ⟨tokens, -, parsed⟩ := exists_tokens_of_parse parsed
  obtain ⟨-, bounds, slots⟩ := generate_accesses_declared tree hidingCode emitted
  exact ⟨tree, tokens, emitted, parsed, bounds.imp fun _ _ h => h.2.2.1,
    (slots tokens parsed).2.imp fun _ _ h => h.2.1⟩

end JackCompiler
