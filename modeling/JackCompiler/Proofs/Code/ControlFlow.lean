import JackCompiler.Proofs.Code.Layout
import JackCompiler.Proofs.Code.Straight
import JackCompiler.Proofs.Program.Shape

/-!
# Jumps reproduce structured control

The code of a block can be cut into pieces that lie as its statements do. The conditions,
assignments, calls and returns among them are what the code of these parts alone is, without any
label or jump, and the instructions in between only steer. Flat execution of the pieces then
executes the same conditions and statements as structured execution of the block, whatever the
outcomes of the conditions, and ends behind the last piece when the block is done.
-/

set_option autoImplicit false

namespace JackCompiler

/-- Whether an instruction steers: it complements the word of a condition, sets a label or jumps. -/
def Instruction.Steers : Instruction → Prop
  | .operate operator => operator = .not
  | .label _ | .goto _ | .ifGoto _ => True
  | _ => False

theorem Straight.labels_eq_nil {code : List Instruction} (straight : Straight code) :
    code.filterMap Instruction.label? = [] := by
  rw [List.filterMap_eq_nil_iff]
  intro instruction among
  have isStraight := straight instruction among
  cases instruction with
  | label name => cases isStraight
  | _ => rfl

/-- Whether a piece is what it should be in the code of statements with a frame. The code of a
condition or a statement is the one generated for it alone. It has neither labels nor jumps, and
only that of a return leaves the subroutine, at its end. -/
def Piece.Stands (frame : Frame) : Piece → Prop
  | test condition code =>
    condition.rule? = some .expression ∧ Straight code ∧
      ((Expression.ofTree condition).code frame).result = .ok code
  | act statement code =>
    (statement.rule? = some .letStatement ∨ statement.rule? = some .doStatement) ∧ Straight code ∧
      ∀ next, ((Statement.ofTree statement).code frame next).result = .ok (code, next)
  | leave statement code =>
    statement.rule? = some .returnStatement ∧ (∃ front, Straight front ∧ code = front ++ [.ret]) ∧
      ∀ next, ((Statement.ofTree statement).code frame next).result = .ok (code, next)
  | steer instruction => instruction.Steers

/-- Whether pieces make up code, each of them standing as it should. -/
structure MakeUp (frame : Frame) (pieces : List Piece) (code : List Instruction) : Prop where
  code_eq : pieces.flatMap Piece.code = code
  stand : ∀ piece ∈ pieces, piece.Stands frame

namespace MakeUp

variable {frame : Frame} {first second : List Piece} {code more : List Instruction}

theorem nil : MakeUp frame [] [] where
  code_eq := rfl
  stand := by
    intro piece among
    cases among

theorem append (one : MakeUp frame first code) (two : MakeUp frame second more) :
    MakeUp frame (first ++ second) (code ++ more) where
  code_eq := by rw [List.flatMap_append, one.code_eq, two.code_eq]
  stand := by
    intro piece among
    rcases List.mem_append.mp among with among | among
    · exact one.stand piece among
    · exact two.stand piece among

theorem single {piece : Piece} (stands : piece.Stands frame) : MakeUp frame [piece] piece.code where
  code_eq := List.flatMap_singleton _ _
  stand := by
    intro other among
    rw [List.mem_singleton.mp among]
    exact stands

theorem steers {instructions : List Instruction}
    (steer : ∀ instruction ∈ instructions, instruction.Steers) :
    MakeUp frame (instructions.map .steer) instructions where
  code_eq := by
    rw [List.flatMap_map]
    exact List.flatMap_singleton' _
  stand := by
    intro piece among
    obtain ⟨instruction, inside, rfl⟩ := List.mem_map.mp among
    exact steer instruction inside

theorem labels_piece {piece : Piece} (stands : piece.Stands frame) :
    piece.code.filterMap Instruction.label? = piece.label?.toList := by
  cases piece with
  | test condition code => exact stands.2.1.labels_eq_nil
  | act statement code => exact stands.2.1.labels_eq_nil
  | leave statement code =>
    obtain ⟨-, ⟨front, straight, rfl⟩, -⟩ := stands
    show (front ++ [Instruction.ret]).filterMap _ = []
    rw [List.filterMap_append, straight.labels_eq_nil]
    rfl
  | steer instruction => cases instruction <;> rfl

/-- The labels of pieces are those of their code. -/
theorem labels_eq (makeUp : MakeUp frame first code) :
    Piece.labels first = code.filterMap Instruction.label? := by
  obtain ⟨rfl, stand⟩ := makeUp
  induction first with
  | nil => rfl
  | cons piece later ih =>
    rw [List.forall_mem_cons] at stand
    rw [List.flatMap_cons, List.filterMap_append, labels_piece stand.1, ← ih stand.2, Piece.labels,
      List.filterMap_cons]
    cases piece.label? <;> rfl

end MakeUp

/-! ## Cutting code -/

/-- Whether the code of a block can be cut into pieces that lie as its statements do. -/
def CutsBlock (frame : Frame) (block : List Tree) : Prop :=
  ∀ next code free,
    (Statement.codeOfBlock frame next (block.map Statement.ofTree)).result = .ok (code, free) →
    ∃ pieces, MakeUp frame pieces code ∧ Layout frame.scope next block pieces free

/-- Whether the code of a statement can be cut into pieces that lie in front of those of any
statements behind it. -/
def Cuts (frame : Frame) (statement : Tree) : Prop :=
  ∀ next code free, ((Statement.ofTree statement).code frame next).result = .ok (code, free) →
    ∃ front, MakeUp frame front code ∧
      ∀ later more last, Layout frame.scope free later more last →
        Layout frame.scope next (statement :: later) (front ++ more) last

section Cut

variable {frame : Frame} {statement condition : Tree} {yes no block : List Tree}

/-- A block is cut by cutting its statements. -/
theorem cutsBlock (each : ∀ statement ∈ block, Cuts frame statement) : CutsBlock frame block := by
  induction block with
  | nil =>
    intro next code free emitted
    obtain ⟨rfl, rfl⟩ := Statement.codeOfBlock_nil.mp emitted
    exact ⟨[], .nil, .nil _⟩
  | cons statement later ih =>
    intro next code free emitted
    rw [List.forall_mem_cons] at each
    obtain ⟨first, middle, firstCode, more, moreCode, rfl⟩ := Statement.codeOfBlock_cons.mp emitted
    obtain ⟨front, makeFirst, lay⟩ := each.1 next first middle firstCode
    obtain ⟨others, makeMore, layout⟩ := ih each.2 middle more free moreCode
    exact ⟨front ++ others, makeFirst.append makeMore, lay later others free layout⟩

theorem Cuts.act (acts : statement.control? = some .act)
    (isRule : statement.rule? = some .letStatement ∨ statement.rule? = some .doStatement)
    (unlabelled : (Statement.ofTree statement).Unlabelled frame Straight) :
    Cuts frame statement := by
  intro next code free emitted
  obtain ⟨rfl, straight, anywhere⟩ := unlabelled next code free emitted
  have stands : (Piece.act statement code).Stands frame := ⟨isRule, straight, anywhere⟩
  refine ⟨[.act statement code], .single stands, ?_⟩
  intro later more last rest
  exact .act code acts rest

theorem Cuts.leave (leaves : statement.control? = some .leave)
    (isRule : statement.rule? = some .returnStatement) {value : Option Expression}
    (eq : Statement.ofTree statement = .leave value) : Cuts frame statement := by
  intro next code free emitted
  obtain ⟨rfl, ends, anywhere⟩ := Statement.unlabelled_leave value next code free (eq ▸ emitted)
  have stands : (Piece.leave statement code).Stands frame := ⟨isRule, ends, eq ▸ anywhere⟩
  refine ⟨[.leave statement code], .single stands, ?_⟩
  intro later more last rest
  exact .leave code leaves rest

theorem MakeUp.test {test : List Instruction} (isExpression : condition.rule? = some .expression)
    (emitted : ((Expression.ofTree condition).code frame).result = .ok test) :
    MakeUp frame [.test condition test] test :=
  .single ⟨isExpression, Expression.straight_code emitted, emitted⟩

theorem Cuts.when (chooses : statement.control? = some (.choose condition yes []))
    (isExpression : condition.rule? = some .expression)
    (eq : Statement.ofTree statement =
      .when (.ofTree condition) (yes.map Statement.ofTree))
    (cutsYes : CutsBlock frame yes) : Cuts frame statement := by
  intro next code free emitted
  rw [eq] at emitted
  obtain ⟨test, testCode, inner, innerCode, rfl⟩ := Statement.code_when.mp emitted
  obtain ⟨pieces, makeInner, layout⟩ := cutsYes (next + 1) inner free innerCode
  have jump : MakeUp frame _ [.operate .not, .ifGoto (frame.scope.label next)] :=
    .steers (by simp [Instruction.Steers])
  have behind : MakeUp frame _ [.label (frame.scope.label next)] :=
    .steers (by simp [Instruction.Steers])
  refine ⟨_, (((MakeUp.test isExpression testCode).append jump).append makeInner).append behind, ?_⟩
  intro later more last rest
  have whole := Layout.when test chooses layout rest
  simpa only [List.append_assoc, List.cons_append, List.nil_append, List.map_cons, List.map_nil]
    using whole

theorem Cuts.choose (chooses : statement.control? = some (.choose condition yes no))
    (isExpression : condition.rule? = some .expression)
    (eq : Statement.ofTree statement =
      .choose (.ofTree condition) (yes.map Statement.ofTree) (no.map Statement.ofTree))
    (cutsYes : CutsBlock frame yes) (cutsNo : CutsBlock frame no) : Cuts frame statement := by
  intro next code free emitted
  rw [eq] at emitted
  obtain ⟨test, testCode, first, middle, firstCode, second, secondCode, rfl⟩ :=
    Statement.code_choose.mp emitted
  obtain ⟨piecesYes, makeYes, layoutYes⟩ := cutsYes (next + 3) first middle firstCode
  obtain ⟨piecesNo, makeNo, layoutNo⟩ := cutsNo middle second free secondCode
  have jump : MakeUp frame _ [.ifGoto (frame.scope.label next),
      .goto (frame.scope.label (next + 1)), .label (frame.scope.label next)] :=
    .steers (by simp [Instruction.Steers])
  have between : MakeUp frame _ [.goto (frame.scope.label (next + 2)),
      .label (frame.scope.label (next + 1))] := .steers (by simp [Instruction.Steers])
  have behind : MakeUp frame _ [.goto (frame.scope.label (next + 2)),
      .label (frame.scope.label (next + 2))] := .steers (by simp [Instruction.Steers])
  have onYes := ((MakeUp.test isExpression testCode).append jump).append makeYes
  refine ⟨_, ((onYes.append between).append makeNo).append behind, ?_⟩
  intro later more last rest
  have whole := Layout.choose test chooses layoutYes layoutNo rest
  simpa only [List.append_assoc, List.cons_append, List.nil_append, List.map_cons, List.map_nil]
    using whole

theorem Cuts.loop (loops : statement.control? = some (.loop condition block))
    (isExpression : condition.rule? = some .expression)
    (eq : Statement.ofTree statement = .loop (.ofTree condition) (block.map Statement.ofTree))
    (cuts : CutsBlock frame block) : Cuts frame statement := by
  intro next code free emitted
  rw [eq] at emitted
  obtain ⟨test, testCode, inner, innerCode, rfl⟩ := Statement.code_loop.mp emitted
  obtain ⟨pieces, makeInner, layout⟩ := cuts (next + 2) inner free innerCode
  have again : MakeUp frame _ [.label (frame.scope.label next)] :=
    .steers (by simp [Instruction.Steers])
  have jump : MakeUp frame _ [.operate .not, .ifGoto (frame.scope.label (next + 1))] :=
    .steers (by simp [Instruction.Steers])
  have behind : MakeUp frame _ [.goto (frame.scope.label next),
      .label (frame.scope.label (next + 1))] := .steers (by simp [Instruction.Steers])
  have front := again.append ((MakeUp.test isExpression testCode).append jump)
  refine ⟨_, (front.append makeInner).append behind, ?_⟩
  intro later more last rest
  have whole := Layout.loop test loops layout rest
  simpa only [List.append_assoc, List.cons_append, List.nil_append, List.map_cons, List.map_nil]
    using whole

/-- Every statement of a derivation tree can be cut, and every block. -/
theorem Tree.Derivation.cuts {tree : Tree} (derives : tree.Derivation) :
    (tree.IsStatement → Cuts frame tree) ∧
      ∀ block, tree = .node .statements block → CutsBlock frame block := by
  induction derives with
  | statements areStatements _ ih =>
    constructor
    · intro isStatement
      simp [IsStatement, rule?] at isStatement
    · intro block eq
      cases eq
      exact cutsBlock fun statement among => (ih statement among).1 (areStatements statement among)
  | letVariable =>
    refine ⟨fun _ => .act rfl (.inl rfl) ?_, by simp⟩
    rw [Statement.ofTree_letVariable]
    exact Statement.unlabelled_assign _ _
  | letElement =>
    refine ⟨fun _ => .act rfl (.inl rfl) ?_, by simp⟩
    rw [Statement.ofTree_letElement]
    exact Statement.unlabelled_assignElement _ _ _
  | doStatement =>
    refine ⟨fun _ => .act rfl (.inr rfl) ?_, by simp⟩
    rw [Statement.ofTree_doStatement]
    exact Statement.unlabelled_perform _
  | ifThen _ _ _ _ _ _ _ _ ihYes =>
    refine ⟨fun _ => .when rfl rfl ?_ (ihYes.2 _ rfl), by simp⟩
    rw [Statement.ofTree_ifThen, Statement.blockOfTree_statements]
  | ifElse _ _ _ _ _ _ _ _ _ _ _ _ ihYes ihNo =>
    refine ⟨fun _ => .choose rfl rfl ?_ (ihYes.2 _ rfl) (ihNo.2 _ rfl), by simp⟩
    rw [Statement.ofTree_ifElse, Statement.blockOfTree_statements,
      Statement.blockOfTree_statements]
  | whileStatement _ _ _ _ _ _ _ _ ihBlock =>
    refine ⟨fun _ => .loop rfl rfl ?_ (ihBlock.2 _ rfl), by simp⟩
    rw [Statement.ofTree_whileStatement, Statement.blockOfTree_statements]
  | returnNothing => exact ⟨fun _ => .leave rfl rfl (Statement.ofTree_returnNothing _ _), by simp⟩
  | returnValue => exact ⟨fun _ => .leave rfl rfl (Statement.ofTree_returnValue _ _), by simp⟩
  | _ => simp [IsStatement, rule?]

end Cut

/-- The flat execution of pieces agrees with the structured execution of a block: both have the same
traces, and one is done with the same trace and the same conditions as the other, or left with the
same trace. -/
structure Agrees (pieces : List Piece) (block : List Tree) (oracle : Nat → Bool) : Prop where
  trace (trace : List Tree) :
    (∃ here, (flat pieces oracle).Run (.running 0 [] 0) trace here) ↔
      ∃ state, (structured oracle).Run (.running block 0) trace state
  done (trace : List Tree) (asked : Nat) :
    (flat pieces oracle).Run (.running 0 [] 0) trace (.running pieces.length [] asked) ↔
      (structured oracle).Run (.running block 0) trace (.running [] asked)
  left (trace : List Tree) :
    (flat pieces oracle).Run (.running 0 [] 0) trace .left ↔
      (structured oracle).Run (.running block 0) trace .left

theorem Layout.agrees {scope : Scope} {next free : Nat} {block : List Tree} {pieces : List Piece}
    (layout : Layout scope next block pieces free) (oracle : Nat → Bool) :
    Agrees pieces block oracle := by
  have simulates := layout.simulates oracle
  have related : Related scope pieces (.running block 0) (.running 0 [] 0) := .running layout.ahead
  constructor
  · intro trace
    exact simulates.trace_iff related
  · intro trace asked
    constructor
    · intro run
      obtain ⟨state, run', -, final⟩ := simulates.exists_stop_of_stop related run Flat.step_end
      cases final
      exact run'
    · intro run
      obtain ⟨here, run', -, final⟩ := simulates.exists_stop related run rfl
      cases final
      exact run'
  · intro trace
    constructor
    · intro run
      obtain ⟨state, run', -, final⟩ := simulates.exists_stop_of_stop related run rfl
      cases final
      exact run'
    · intro run
      obtain ⟨here, run', -, final⟩ := simulates.exists_stop related run rfl
      cases final
      exact run'

/-- The code generated for a block is made up of pieces whose labels are all different, and the
pieces agree with the block whatever the outcomes of the conditions. -/
theorem exists_pieces_agree {frame : Frame} {block : List Tree} {next free : Nat}
    {code : List Instruction} (derives : (Tree.node .statements block).Derivation)
    (emitted : (Statement.codeOfBlock frame next
      (Statement.blockOfTree (.node .statements block))).result = .ok (code, free)) :
    ∃ pieces, MakeUp frame pieces code ∧ Piece.labels pieces = code.filterMap Instruction.label? ∧
      (Piece.labels pieces).Nodup ∧ ∀ oracle, Agrees pieces block oracle := by
  rw [Statement.blockOfTree_statements] at emitted
  obtain ⟨pieces, makeUp, layout⟩ := derives.cuts.2 block rfl next code free emitted
  exact ⟨pieces, makeUp, makeUp.labels_eq, layout.numbered.2.nodup, layout.agrees⟩

/-! ## A loop that is left by a return -/

/-- The expression that is the variable of a name. -/
def variableExpression (name : String) : Tree :=
  .node .expression [.node .term [.identifier name 1]]

/-- The statement `let a = b;`. -/
def copyingStatement : Tree :=
  .node .letStatement [.keyword "let" 1, .identifier "a" 1, .symbol "=" 1, variableExpression "b",
    .symbol ";" 1]

/-- The statement `return;`. -/
def leavingStatement : Tree := .node .returnStatement [.keyword "return" 1, .symbol ";" 1]

/-- The statement `if (b) { let a = b; } else { return; }`. -/
def choosingStatement : Tree :=
  .node .ifStatement [.keyword "if" 1, .symbol "(" 1, variableExpression "b", .symbol ")" 1,
    .symbol "\x7b" 1, .node .statements [copyingStatement], .symbol "\x7d" 1, .keyword "else" 1,
    .symbol "\x7b" 1, .node .statements [leavingStatement], .symbol "\x7d" 1]

/-- The statement `while (a) { if (b) { let a = b; } else { return; } }`. -/
def loopingStatement : Tree :=
  .node .whileStatement [.keyword "while" 1, .symbol "(" 1, variableExpression "a", .symbol ")" 1,
    .symbol "\x7b" 1, .node .statements [choosingStatement], .symbol "\x7d" 1]

/-- The statements are ones that the parser can build. -/
theorem loopingStatement_derivation :
    (Tree.node .statements [loopingStatement, leavingStatement]).Derivation := by
  have name (text : String) : (variableExpression text).Derivation :=
    @Tree.Derivation.expression _ [] rfl (.variable text 1) (by simp) (by simp) (by simp)
  have leave : leavingStatement.Derivation := .returnNothing 1 1
  have copy : copyingStatement.Derivation := .letVariable "a" 1 1 1 1 (name "b")
  have choose : choosingStatement.Derivation := by
    refine .ifElse 1 1 1 1 1 1 1 1 (name "b") (.statements ?_ ?_) (.statements ?_ ?_)
    · simp [copyingStatement, Tree.IsStatement, Tree.rule?]
    · simp [copy]
    · simp [leavingStatement, Tree.IsStatement, Tree.rule?]
    · simp [leave]
  have loop : loopingStatement.Derivation := by
    refine .whileStatement 1 1 1 1 1 (name "a") (.statements ?_ ?_)
    · simp [choosingStatement, Tree.IsStatement, Tree.rule?]
    · simp [choose]
  refine .statements ?_ ?_
  · simp [loopingStatement, leavingStatement, Tree.IsStatement, Tree.rule?]
  · simp [loop, leave]

/-- The surroundings of a function with the parameters `a` and `b`. -/
def choosingFrame : Frame where
  className := "A"
  kind := .function
  scope := ⟨⟨"f", [("b", ⟨"int", .argument, 1⟩), ("a", ⟨"int", .argument, 0⟩)], 0⟩, [.empty "A"]⟩

def loopingCode : List Instruction :=
  [.label "A_f_0", .push .argument 0, .operate .not, .ifGoto "A_f_1", .push .argument 1,
    .ifGoto "A_f_2", .goto "A_f_3", .label "A_f_2", .push .argument 1, .pop .argument 0,
    .goto "A_f_4", .label "A_f_3", .push .constant 0, .ret, .goto "A_f_4", .label "A_f_4",
    .goto "A_f_0", .label "A_f_1", .push .constant 0, .ret]

/-- Here only the second test of `b` fails. The first round copies, and the second one returns. -/
theorem exists_pieces_agree_loopingStatement :
    (Tree.node .statements [loopingStatement, leavingStatement]).Derivation ∧
      (Statement.codeOfBlock choosingFrame 0 (Statement.blockOfTree
        (.node .statements [loopingStatement, leavingStatement]))).result = .ok (loopingCode, 5) ∧
      ∃ pieces, MakeUp choosingFrame pieces loopingCode ∧
        (flat pieces fun asked => asked ≠ 3).Run (.running 0 [] 0)
          [variableExpression "a", variableExpression "b", copyingStatement,
            variableExpression "a", variableExpression "b", leavingStatement] .left := by
  have derives := loopingStatement_derivation
  have emitted : (Statement.codeOfBlock choosingFrame 0 (Statement.blockOfTree
      (.node .statements [loopingStatement, leavingStatement]))).result =
      .ok (loopingCode, 5) := by rfl
  obtain ⟨pieces, makeUp, -, -, agrees⟩ := exists_pieces_agree derives emitted
  refine ⟨derives, emitted, pieces, makeUp, ?_⟩
  apply ((agrees fun asked => asked ≠ 3).left _).mpr
  exact .event rfl (.event rfl (.event rfl (.event rfl (.event rfl (.event rfl (.nil _))))))

end JackCompiler
