import JackCompiler.Proofs.Code.Block
import JackCompiler.Proofs.Code.Steering
import JackCompiler.Proofs.Code.Straight
import JackCompiler.Proofs.Program.Regular
import JackCompiler.Proofs.Scope.Label
import JackCompiler.Proofs.Syntax.Soundness

/-!
# Labels of generated code

The code of a statement defines as many labels as the statement needs, numbered on from the first
free number, and it jumps to each of them and to no other label. A class therefore defines every
label once, in the block of the subroutine that jumps to it. The main result is
`generate_labels_closed`; its first half holds of malformed trees too.
-/

set_option autoImplicit false

namespace JackCompiler

/-- The label that an instruction jumps to, if it does. -/
def Instruction.target? : Instruction → Option String
  | goto target | ifGoto target => some target
  | _ => none

/-- The labels that code defines. -/
def labels (code : List Instruction) : List String := code.filterMap Instruction.label?

/-- The labels that code jumps to. -/
def targets (code : List Instruction) : List String := code.filterMap Instruction.target?

@[simp] theorem labels_nil : labels [] = [] := rfl

@[simp] theorem targets_nil : targets [] = [] := rfl

@[simp] theorem labels_cons (instruction : Instruction) (code : List Instruction) :
    labels (instruction :: code) = instruction.label?.toList ++ labels code := by
  unfold labels
  rw [List.filterMap_cons]
  cases instruction.label? <;> rfl

@[simp] theorem targets_cons (instruction : Instruction) (code : List Instruction) :
    targets (instruction :: code) = instruction.target?.toList ++ targets code := by
  unfold targets
  rw [List.filterMap_cons]
  cases instruction.target? <;> rfl

@[simp] theorem labels_append (first second : List Instruction) :
    labels (first ++ second) = labels first ++ labels second :=
  List.filterMap_append

@[simp] theorem targets_append (first second : List Instruction) :
    targets (first ++ second) = targets first ++ targets second :=
  List.filterMap_append

/-- Straight-line code neither defines labels nor jumps. -/
theorem Straight.unbranched {code : List Instruction} (straight : Straight code) :
    labels code = [] ∧ targets code = [] := by
  have each : ∀ instruction ∈ code, instruction.label? = none ∧ instruction.target? = none := by
    intro instruction among
    have isStraight := straight instruction among
    cases instruction with
    | label name => cases isStraight
    | goto target => cases isStraight
    | ifGoto target => cases isStraight
    | _ => exact ⟨rfl, rfl⟩
  constructor
  · exact List.filterMap_eq_nil_iff.mpr fun instruction among => (each instruction among).1
  · exact List.filterMap_eq_nil_iff.mpr fun instruction among => (each instruction among).2

/-- Whether code defines the labels of some consecutive numbers, each once, and jumps to exactly
these. -/
structure Labelled (label : Nat → String) (first count : Nat) (code : List Instruction) : Prop where
  defined : (labels code).Perm ((List.range' first count).map label)
  closed : ∀ name, name ∈ targets code ↔ name ∈ labels code

namespace Labelled

variable {label : Nat → String} {next first second : Nat} {code more : List Instruction}

theorem of_unbranched (unbranched : labels code = [] ∧ targets code = []) :
    Labelled label next 0 code where
  defined := by
    rw [unbranched.1]
    exact .nil
  closed := by
    intro name
    rw [unbranched.1, unbranched.2]

theorem append (one : Labelled label next first code)
    (two : Labelled label (next + first) second more) :
    Labelled label next (first + second) (code ++ more) where
  defined := by
    rw [labels, List.filterMap_append, ← List.range'_append_1, List.map_append]
    exact one.defined.append two.defined
  closed := by
    intro name
    rw [targets, labels, List.filterMap_append, List.filterMap_append, List.mem_append,
      List.mem_append]
    exact or_congr (one.closed name) (two.closed name)

/-- A conditional with one block takes one label of its own. -/
theorem when {inner : List Instruction} (block : Labelled label (next + 1) first inner)
    (defines : labels code = labels inner ++ [label next])
    (jumps : targets code = label next :: targets inner) :
    Labelled label next (1 + first) code where
  defined := by
    rw [defines, Nat.add_comm, List.range'_succ, List.map_cons]
    exact List.perm_append_comm.trans (block.defined.cons (label next))
  closed := by
    intro name
    rw [defines, jumps, List.mem_cons, List.mem_append, List.mem_singleton, block.closed, or_comm]

/-- A conditional with two blocks takes three labels of its own. -/
theorem choose {yes no : List Instruction} (blockYes : Labelled label (next + 3) first yes)
    (blockNo : Labelled label (next + 3 + first) second no)
    (defines : labels code =
      label next :: (labels yes ++ label (next + 1) :: (labels no ++ [label (next + 2)])))
    (jumps : targets code = label next :: label (next + 1) ::
      (targets yes ++ label (next + 2) :: (targets no ++ [label (next + 2)]))) :
    Labelled label next (3 + first + second) code where
  defined := by
    -- The labels are placed in another order than they are numbered in, so they are counted.
    have both := (blockYes.append blockNo).defined
    have numbers : List.range' next (3 + first + second) =
        next :: (next + 1) :: (next + 2) :: List.range' (next + 3) (first + second) := by
      rw [Nat.add_assoc, Nat.add_comm]
      rfl
    rw [defines, numbers, List.perm_iff_count]
    intro name
    have counted := both.count_eq name
    rw [labels_append, List.count_append] at counted
    simp only [List.map_cons, List.count_cons, List.count_append, List.count_nil]
    omega
  closed := by
    intro name
    rw [defines, jumps]
    simp only [List.mem_cons, List.mem_append, List.not_mem_nil, or_false, blockYes.closed,
      blockNo.closed]
    grind

/-- A loop takes two labels of its own. -/
theorem loop {inner : List Instruction} (block : Labelled label (next + 2) first inner)
    (defines : labels code = label next :: (labels inner ++ [label (next + 1)]))
    (jumps : targets code = label (next + 1) :: (targets inner ++ [label next])) :
    Labelled label next (2 + first) code where
  defined := by
    have numbers : List.range' next (2 + first) =
        next :: (next + 1) :: List.range' (next + 2) first := by
      rw [Nat.add_comm]
      rfl
    have inside : (labels inner ++ [label (next + 1)]).Perm
        (label (next + 1) :: (List.range' (next + 2) first).map label) :=
      List.perm_append_comm.trans (block.defined.cons (label (next + 1)))
    rw [defines, numbers]
    exact inside.cons (label next)
  closed := by
    intro name
    rw [defines, jumps]
    simp only [List.mem_cons, List.mem_append, List.not_mem_nil, or_false, block.closed]
    grind

end Labelled

/-! ## Statements -/

namespace Statement

variable {frame : Frame}

/-- The labels of a block are those of its statements, one after the other. -/
theorem labelled_codeOfBlock {block : List Statement} {code : List Instruction} {next free : Nat}
    (each : ∀ statement ∈ block, ∀ code next free,
      (statement.code frame next).result = .ok (code, free) →
        free = next + statement.labelCount ∧
          Labelled frame.scope.label next statement.labelCount code)
    (emitted : (codeOfBlock frame next block).result = .ok (code, free)) :
    free = next + labelCountOfBlock block ∧
      Labelled frame.scope.label next (labelCountOfBlock block) code := by
  induction block generalizing code next with
  | nil =>
    obtain ⟨rfl, rfl⟩ := codeOfBlock_nil.mp emitted
    exact ⟨rfl, .of_unbranched ⟨rfl, rfl⟩⟩
  | cons statement later ih =>
    rw [List.forall_mem_cons] at each
    obtain ⟨first, middle, firstCode, more, moreCode, rfl⟩ := codeOfBlock_cons.mp emitted
    obtain ⟨rfl, one⟩ := each.1 first next middle firstCode
    obtain ⟨rfl, others⟩ := ih each.2 moreCode
    exact ⟨by rw [labelCountOfBlock, Nat.add_assoc], one.append others⟩

/-- A statement takes as many labels as it needs, and its code defines them and jumps to them. -/
theorem labelled_code {statement : Statement} {code : List Instruction} {next free : Nat}
    (emitted : (statement.code frame next).result = .ok (code, free)) :
    free = next + statement.labelCount ∧
      Labelled frame.scope.label next statement.labelCount code := by
  induction statement generalizing code next free with
  | assign name value =>
    obtain ⟨same, straight, -⟩ := unlabelled_assign name value next code free emitted
    exact ⟨same, .of_unbranched straight.unbranched⟩
  | assignElement array index value =>
    obtain ⟨same, straight, -⟩ := unlabelled_assignElement array index value next code free emitted
    exact ⟨same, .of_unbranched straight.unbranched⟩
  | when condition block ih =>
    obtain ⟨test, testCode, inner, innerCode, rfl⟩ := code_when.mp emitted
    obtain ⟨rfl, inside⟩ := labelled_codeOfBlock
      (fun statement among _ _ _ h => ih statement among h) innerCode
    have test := (Expression.straight_code testCode).unbranched
    refine ⟨by rw [labelCount, Nat.add_assoc], .when inside ?_ ?_⟩
    · simp [test, Instruction.label?]
    · simp [test, Instruction.target?]
  | choose condition yes no ihYes ihNo =>
    obtain ⟨test, testCode, first, middle, firstCode, second, secondCode, rfl⟩ :=
      code_choose.mp emitted
    obtain ⟨rfl, insideYes⟩ := labelled_codeOfBlock
      (fun statement among _ _ _ h => ihYes statement among h) firstCode
    obtain ⟨rfl, insideNo⟩ := labelled_codeOfBlock
      (fun statement among _ _ _ h => ihNo statement among h) secondCode
    have test := (Expression.straight_code testCode).unbranched
    refine ⟨?_, .choose insideYes insideNo ?_ ?_⟩
    · rw [labelCount]
      omega
    · simp [test, Instruction.label?]
    · simp [test, Instruction.target?]
  | loop condition block ih =>
    obtain ⟨test, testCode, inner, innerCode, rfl⟩ := code_loop.mp emitted
    obtain ⟨rfl, inside⟩ := labelled_codeOfBlock
      (fun statement among _ _ _ h => ih statement among h) innerCode
    have test := (Expression.straight_code testCode).unbranched
    refine ⟨by rw [labelCount, Nat.add_assoc], .loop inside ?_ ?_⟩
    · simp [test, Instruction.label?]
    · simp [test, Instruction.target?]
  | perform call =>
    obtain ⟨same, straight, -⟩ := unlabelled_perform call next code free emitted
    exact ⟨same, .of_unbranched straight.unbranched⟩
  | leave value =>
    obtain ⟨same, ⟨front, straight, rfl⟩, -⟩ := unlabelled_leave value next code free emitted
    refine ⟨same, .of_unbranched ?_⟩
    rw [labels_append, targets_append, straight.unbranched.1, straight.unbranched.2]
    exact ⟨rfl, rfl⟩
  | flaw error => exact absurd emitted code_flaw

end Statement

/-! ## Subroutines -/

/-- How many labels a part of a body needs. -/
def BodyPart.labelCount : BodyPart → Nat
  | statements block => Statement.labelCountOfBlock block
  | declare _ | flaw _ => 0

/-- Only the block of a body needs labels. -/
theorem BodyPart.sum_labelCount (declarations : List Declaration) (block : List Statement) :
    ((declarations.map declare ++ [statements block]).map labelCount).sum =
      Statement.labelCountOfBlock block := by
  induction declarations with
  | nil => exact Nat.add_zero _
  | cons declaration later ih =>
    rw [List.map_cons, List.cons_append, List.map_cons, List.sum_cons, ih, labelCount, Nat.zero_add]

/-- The parts of a body share the numbers of their labels, though the scope grows between them. -/
theorem BodyPart.labelled_codeOfList {parts : List BodyPart} {frame : Frame} {next : Nat}
    {code : List Instruction} {inner : Scope}
    (emitted : (codeOfList frame next parts).result = .ok (code, inner)) :
    Labelled frame.scope.label next (parts.map labelCount).sum code := by
  induction parts generalizing frame next code with
  | nil =>
    obtain ⟨rfl, -⟩ := codeOfList_nil.mp emitted
    exact .of_unbranched ⟨rfl, rfl⟩
  | cons part later ih =>
    rw [List.map_cons, List.sum_cons]
    cases part with
    | declare declaration =>
      obtain ⟨scope, declared, laterCode⟩ := codeOfList_declare.mp emitted
      rw [Scope.declareAll_eq] at declared
      obtain rfl := Scope.eq_addAll_of_declareEach declared
      have rest := ih laterCode
      have same : (frame.scope.addAll (declaration.bindings .localVar)).label =
          frame.scope.label := funext fun number => Scope.label_addAll _ number
      rw [same] at rest
      rw [labelCount, Nat.zero_add]
      exact rest
    | statements block =>
      obtain ⟨first, free, blockCode, more, moreCode, rfl⟩ := codeOfList_statements.mp emitted
      obtain ⟨rfl, one⟩ := Statement.labelled_codeOfBlock
        (fun statement _ _ _ _ h => Statement.labelled_code h) blockCode
      exact one.append (ih moreCode)
    | flaw error => exact absurd emitted codeOfList_flaw

theorem Subroutine.straight_prologue (fields : Nat) (kind : SubroutineKind) :
    Straight (prologue fields kind) := by
  cases kind with
  | constructor => exact .cons rfl (.cons rfl (.cons rfl .nil))
  | function => exact .nil
  | method => exact .cons rfl (.cons rfl .nil)

theorem label_subroutineScope (className : String) (fields : List Binding) (name : String)
    (arguments : List Binding) (number : Nat) :
    (subroutineScope className fields name arguments).label number =
      s!"{className}_{name}_{number}" := by
  have inner : (classScope className fields).inner.name = className :=
    (Level.addAll_name_nextLabel fields).1
  rw [subroutineScope, Scope.label_addAll]
  show s!"{(classScope className fields).inner.name}_{name}_{number}" = _
  rw [inner]

/-- The labels of a block carry the names of the class and of the subroutine and count from zero. -/
theorem Emitted.labelled {className : String} {fields : List Binding} {tree : Tree} {block : Block}
    {subroutine : Subroutine} {arguments : List Binding} {body : List Instruction}
    (emitted : Emitted className fields tree block subroutine arguments body) :
    Labelled (fun number => s!"{className}_{tree.textAt 2}_{number}") 0
      (subroutine.body.map BodyPart.labelCount).sum block.body := by
  have inside := BodyPart.labelled_codeOfList emitted.emitted
  have same := funext (label_subroutineScope className fields (tree.textAt 2) arguments)
  have front : Labelled (subroutineScope className fields (tree.textAt 2) arguments).label 0 0
      (Subroutine.prologue ((classScope className fields).count .field) subroutine.kind) :=
    .of_unbranched (Subroutine.straight_prologue _ _).unbranched
  have whole := front.append inside
  rw [Nat.zero_add, same] at whole
  rw [emitted.block_eq]
  exact whole

/-- In the block of a subroutine that the parser read, there are as many labels as its statements
need. -/
theorem Emitted.labelCount_eq {className : String} {fields : List Binding} {tree : Tree}
    {block : Block} {subroutine : Subroutine} {arguments : List Binding} {body : List Instruction}
    (emitted : Emitted className fields tree block subroutine arguments body)
    (derives : tree.Derivation) (isRule : tree.rule? = some .subroutineDec) :
    (subroutine.body.map BodyPart.labelCount).sum = tree.labelCount := by
  obtain ⟨declarations, statements, eq, -, count⟩ := (derives.regular isRule emitted.read).body
  rw [eq, BodyPart.sum_labelCount, count]

/-! ## Classes -/

theorem Labelled.exists_number {label : Nat → String} {next count : Nat}
    {code : List Instruction} {name : String} (labelled : Labelled label next count code)
    (among : name ∈ labels code) : ∃ number, name = label number := by
  obtain ⟨number, -, rfl⟩ := List.mem_map.mp (labelled.defined.mem_iff.mp among)
  exact ⟨number, rfl⟩

theorem Labelled.nodup {label : Nat → String} {next count : Nat} {code : List Instruction}
    (labelled : Labelled label next count code)
    (inj : ∀ m n, label m = label n → m = n) : (labels code).Nodup := by
  rw [labelled.defined.nodup_iff]
  exact (List.nodup_range' 1).map inj

/-- The labels of blocks for subroutines of different names are all different. -/
theorem nodup_labels_blocks {className : String} {trees : List Tree} {list : List Block}
    (distinct : (trees.map (·.textAt 2)).Nodup)
    (each : List.Forall₂ (fun tree block => ∃ count,
      Labelled (fun number => s!"{className}_{tree.textAt 2}_{number}") 0 count block.body)
      trees list) :
    (labels (list.flatMap Block.code)).Nodup ∧
      ∀ name ∈ labels (list.flatMap Block.code), ∃ tree ∈ trees, ∃ number : Nat,
        name = s!"{className}_{tree.textAt 2}_{number}" := by
  induction each with
  | nil => exact ⟨List.nodup_nil, by simp⟩
  | @cons tree block trees list labelled _ ih =>
    obtain ⟨count, labelled⟩ := labelled
    rw [List.map_cons, List.nodup_cons] at distinct
    obtain ⟨nodup, named⟩ := ih distinct.2
    have split : labels ((block :: list).flatMap Block.code) =
        labels block.body ++ labels (list.flatMap Block.code) := by
      rw [List.flatMap_cons, labels_append]
      rfl
    rw [split]
    constructor
    · have own := labelled.nodup fun m n same => (subroutineLabel_inj same).2
      refine own.append nodup ?_
      intro name here there
      obtain ⟨m, rfl⟩ := labelled.exists_number here
      obtain ⟨other, among, n, same⟩ := named _ there
      have sameName := (subroutineLabel_inj same).1
      exact distinct.1 (List.mem_map.mpr ⟨other, among, sameName.symm⟩)
    · intro name among
      rcases List.mem_append.mp among with here | there
      · obtain ⟨m, rfl⟩ := labelled.exists_number here
        exact ⟨tree, List.mem_cons_self, m, rfl⟩
      · obtain ⟨other, among, n, eq⟩ := named name there
        exact ⟨other, List.mem_cons_of_mem _ among, n, eq⟩

theorem mem_labels_blocks {list : List Block} {block : Block} {name : String}
    (among : block ∈ list) (inside : name ∈ labels block.body) :
    name ∈ labels (list.flatMap Block.code) := by
  obtain ⟨instruction, isCode, isLabel⟩ := List.mem_filterMap.mp inside
  refine List.mem_filterMap.mpr ⟨instruction, List.mem_flatMap.mpr ⟨block, among, ?_⟩, isLabel⟩
  exact List.mem_cons_of_mem _ isCode

/-- Whatever tree code is generated from, no label is defined twice, and every jump stays inside its
block and goes to a label that is defined exactly once. From a tree that the parser returned, the
labels of a subroutine count from zero up to the number that its statements need, and each of them
is jumped to. -/
theorem generate_labels_closed (tree : Tree) (code : List Instruction)
    (emitted : (generate tree).result = .ok code) :
    (labels code).Nodup ∧ code = (blocks code).flatMap Block.code ∧
      (∀ block ∈ blocks code, ∀ target ∈ targets block.body,
        target ∈ labels block.body ∧ (labels code).count target = 1) ∧
      ∀ tokens, (parseTokens tokens).result = .ok tree →
        List.Forall₂ (fun subroutine block =>
          block.name = s!"{tree.textAt 1}.{subroutine.textAt 2}" ∧
          (labels block.body).Perm ((List.range subroutine.labelCount).map fun number =>
            s!"{tree.textAt 1}_{subroutine.textAt 2}_{number}") ∧
          ∀ label ∈ labels block.body, label ∈ targets block.body)
          (tree.groups .subroutineDec) (blocks code) := by
  obtain ⟨whole, different, fields, -, each⟩ := exists_blocks_of_generate emitted
  have labelled : List.Forall₂ (fun subroutine block => ∃ count,
      Labelled (fun number => s!"{tree.textAt 1}_{subroutine.textAt 2}_{number}") 0 count
        block.body) (tree.groups .subroutineDec) (blocks code) := by
    refine each.imp ?_
    rintro subroutine block ⟨read, arguments, body, own⟩
    exact ⟨_, own.labelled⟩
  have nodup := (nodup_labels_blocks different labelled).1
  rw [← whole] at nodup
  refine ⟨nodup, whole, ?_, ?_⟩
  · intro block among target jumped
    obtain ⟨subroutine, -, count, own⟩ := exists_of_mem_right labelled among
    have inside := (own.closed target).mp jumped
    have defined : target ∈ labels code := by
      rw [whole]
      exact mem_labels_blocks among inside
    exact ⟨inside, List.count_eq_one_of_mem nodup defined⟩
  · intro tokens parsed
    obtain ⟨isRule, derives, -⟩ := derivation_of_parseTokens parsed
    have members : ∀ subroutine ∈ tree.groups .subroutineDec,
        subroutine.rule? = some .subroutineDec ∧ subroutine.Derivation :=
      fun subroutine among => derives.of_mem_groups isRule among
    refine ((List.forall₂_and_left _ _).mpr ⟨members, each⟩).imp ?_
    rintro subroutine block ⟨⟨isSubroutine, derives⟩, read, arguments, body, own⟩
    have defined := own.labelled.defined
    rw [own.labelCount_eq derives isSubroutine, ← List.range_eq_range'] at defined
    exact ⟨congrArg Block.name own.block_eq, defined, fun label among =>
      (own.labelled.closed label).mpr among⟩

/-! ## Names that end in numbers -/

/-- A class whose name and the name of one of whose subroutines end in numbers, as labels do. -/
def numberedSource : String :=
  "class A_1 \x7b static int x;\n" ++
    "function void f() \x7b if (x) \x7b if (x) \x7b \x7d else \x7b \x7d \x7d return; \x7d\n" ++
    "function void f_0() \x7b while (x) \x7b \x7d return; \x7d \x7d\n"

def numberedCode : List Instruction :=
  [.function "A_1.f" 0, .push .static 0, .operate .not, .ifGoto "A_1_f_0", .push .static 0,
    .ifGoto "A_1_f_1", .goto "A_1_f_2", .label "A_1_f_1", .goto "A_1_f_3", .label "A_1_f_2",
    .goto "A_1_f_3", .label "A_1_f_3", .label "A_1_f_0", .push .constant 0, .ret,
    .function "A_1.f_0" 0, .label "A_1_f_0_0", .push .static 0, .operate .not,
    .ifGoto "A_1_f_0_1", .goto "A_1_f_0_0", .label "A_1_f_0_1", .push .constant 0, .ret]

/-- The label `A_1_f_0` of `f` is none of those of `f_0`. -/
theorem generate_labels_closed_numberedSource :
    ∃ tree tokens, (generate tree).result = .ok numberedCode ∧
      (parseTokens tokens).result = .ok tree ∧ (labels numberedCode).Nodup ∧
        List.Forall₂ (fun subroutine block =>
          block.name = s!"{tree.textAt 1}.{subroutine.textAt 2}" ∧
          (labels block.body).Perm ((List.range subroutine.labelCount).map fun number =>
            s!"{tree.textAt 1}_{subroutine.textAt 2}_{number}") ∧
          ∀ label ∈ labels block.body, label ∈ targets block.body)
          (tree.groups .subroutineDec) (blocks numberedCode) := by
  have compiled : ((parse numberedSource).result >>= fun tree => (generate tree).result) =
      .ok numberedCode := by decide +kernel
  obtain ⟨tree, parsed, emitted⟩ := except_bind_eq_ok.mp compiled
  obtain ⟨tokens, -, parsed⟩ := exists_tokens_of_parse parsed
  obtain ⟨nodup, -, -, each⟩ := generate_labels_closed tree numberedCode emitted
  exact ⟨tree, tokens, emitted, parsed, nodup, each tokens parsed⟩

end JackCompiler
