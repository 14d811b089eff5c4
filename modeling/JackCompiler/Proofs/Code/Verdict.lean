import JackCompiler.Proofs.Code.Emission
import JackCompiler.Proofs.Program.Mention
import JackCompiler.Proofs.Scope.Declaration

/-!
# What decides whether code is emitted

Code generation fails at the first mention that it cannot handle, and at nothing else. Its verdict
about a piece of program, which forgets the code, is therefore the one that the mentions of the
piece give one after the other (`Expression.verdict_code`, `Statement.verdict_codeOfBlock`). For a
body the declarations come first (`BodyPart.verdict_codeOfList`).
-/

set_option autoImplicit false

namespace JackCompiler

/-! ## Verdicts -/

namespace Logged

variable {ε α β : Type}

/-- How a computation ends, without its value. -/
def verdict (x : Logged ε α) : Except ε Unit := x.result.map fun _ => ()

theorem verdict_eq_ok_iff {x : Logged ε α} : x.verdict = .ok () ↔ ∃ a, x.result = .ok a := by
  unfold verdict
  cases x.result with
  | error error => simp [Except.map]
  | ok a => simp [Except.map]

theorem verdict_eq_error_iff {x : Logged ε α} {error : ε} :
    x.verdict = .error error ↔ x.result = .error error := by
  unfold verdict
  cases x.result with
  | error error => simp [Except.map]
  | ok a => simp [Except.map]

theorem verdict_bind (x : Logged ε α) (f : α → Logged ε β) :
    (x >>= f).verdict = x.result >>= fun a => (f a).verdict := by
  unfold verdict
  rw [result_bind]
  cases x.result <;> rfl

/-- If the verdict on the second step does not depend on the value of the first one, the verdicts
follow each other. -/
theorem verdict_bind_of_forall {x : Logged ε α} {f : α → Logged ε β} {verdict : Except ε Unit}
    (same : ∀ a, (f a).verdict = verdict) : (x >>= f).verdict = x.verdict >>= fun _ => verdict := by
  rw [verdict_bind]
  simp only [same]
  unfold Logged.verdict
  cases x.result <;> rfl

/-- A last step that cannot fail leaves the verdict as it is. -/
theorem verdict_bind_of_ok {x : Logged ε α} {f : α → Logged ε β}
    (ends : ∀ a, (f a).verdict = .ok ()) : (x >>= f).verdict = x.verdict := by
  rw [verdict_bind_of_forall ends]
  cases x.verdict <;> rfl

theorem verdict_bind_pure (x : Logged ε α) (f : α → β) :
    (x >>= fun a => pure (f a)).verdict = x.verdict :=
  verdict_bind_of_ok fun _ => rfl

theorem verdict_liftM (x : Except ε α) : (liftM x : Logged ε α).verdict = x.map fun _ => () := rfl

end Logged

/-! ## Verdicts on mentions -/

namespace Mention

/-- What a scope says about a mention: a variable must be declared, and the machine must be able to
hold a string. -/
def check (scope : Scope) : Mention → Except CompileError Unit
  | .variable name => (scope.require name).map fun _ => ()
  | .context _ => .ok ()
  | .text value => (stringCode value).map fun _ => ()
  | .flaw error => .error error

/-- What a scope says about mentions one after the other. -/
def checkEach (scope : Scope) : List Mention → Except CompileError Unit
  | [] => .ok ()
  | mention :: later => do
    mention.check scope
    checkEach scope later

variable {scope : Scope}

theorem checkEach_append (first second : List Mention) :
    checkEach scope (first ++ second) =
      checkEach scope first >>= fun _ => checkEach scope second := by
  induction first with
  | nil => rfl
  | cons mention later ih =>
    rw [List.cons_append, checkEach, checkEach, ih, bind_assoc]

theorem checkEach_singleton (mention : Mention) :
    checkEach scope [mention] = mention.check scope := by
  rw [checkEach, checkEach]
  cases mention.check scope <;> rfl

theorem checkEach_eq_ok_iff {mentions : List Mention} :
    checkEach scope mentions = .ok () ↔ ∀ mention ∈ mentions, mention.check scope = .ok () := by
  induction mentions with
  | nil => simp [checkEach]
  | cons mention later ih =>
    rw [checkEach, except_bind_eq_ok, List.forall_mem_cons, ih]
    constructor
    · rintro ⟨_, here, there⟩
      exact ⟨here, there⟩
    · rintro ⟨here, there⟩
      exact ⟨(), here, there⟩

theorem exists_of_checkEach_eq_error {mentions : List Mention} {error : CompileError}
    (failed : checkEach scope mentions = .error error) :
    ∃ mention ∈ mentions, mention.check scope = .error error := by
  induction mentions with
  | nil => cases failed
  | cons mention later ih =>
    rw [checkEach, except_bind_eq_error] at failed
    rcases failed with here | ⟨-, -, there⟩
    · exact ⟨mention, List.mem_cons_self, here⟩
    · obtain ⟨other, among, failed⟩ := ih there
      exact ⟨other, List.mem_cons_of_mem mention among, failed⟩

/-- A part that can be read passes, and any other fails as it did. -/
theorem checkEach_ofPart {α : Type} (part : Except CompileError α) :
    checkEach scope (ofPart part) = part.map fun _ => () := by
  cases part <;> rfl

theorem check_variable_eq_ok_iff {name : String} :
    (Mention.variable name).check scope = .ok () ↔
      ∃ declared, scope.resolve? name = some declared := by
  rw [check, Scope.require]
  cases scope.resolve? name with
  | none => simp [Except.map]
  | some declared => simp [Except.map]

theorem check_text_eq_ok_iff {value : String} :
    (Mention.text value).check scope = .ok () ↔
      value.length ≤ maxWord ∧ ∀ c ∈ value.toList, c.toNat ≤ maxWord := by
  show ((Expression.string value).code ⟨"", .function, scope⟩).verdict = .ok () ↔ _
  rw [Logged.verdict_eq_ok_iff]
  simp only [Expression.code_string]
  constructor
  · rintro ⟨-, short, all, -⟩
    exact ⟨short, all⟩
  · rintro ⟨short, all⟩
    exact ⟨_, short, all, rfl⟩

/-- Why a scope refuses a mention. -/
inductive Refused (scope : Scope) : Mention → CompileError → Prop
  | undeclared {name : String} (absent : scope.resolve? name = none) :
      Refused scope (.variable name) (.undeclaredVariable scope.qualifiedName name)
  | longString {value : String} (long : maxWord < value.length) :
      Refused scope (.text value) (.malformed (.rule .term) .stringTooLong)
  | wideCharacter {value : String} {c : Char} (among : c ∈ value.toList)
      (wide : maxWord < c.toNat) :
      Refused scope (.text value) (.malformed (.rule .term) (.unsupportedCharacter c))
  | flaw (error : CompileError) : Refused scope (.flaw error) error

theorem exists_of_appendCode_eq_error {characters : List Char} {error : CompileError}
    (failed : appendCode characters = .error error) :
    ∃ c ∈ characters, maxWord < c.toNat ∧
      error = .malformed (.rule .term) (.unsupportedCharacter c) := by
  induction characters with
  | nil => cases failed
  | cons c later ih =>
    rw [appendCode] at failed
    by_cases small : c.toNat ≤ maxWord
    · rw [if_pos small, except_bind_eq_error] at failed
      rcases failed with there | ⟨code, -, done⟩
      · obtain ⟨wide, among, isWide⟩ := ih there
        exact ⟨wide, List.mem_cons_of_mem c among, isWide⟩
      · cases done
    · rw [if_neg small] at failed
      cases failed
      exact ⟨c, List.mem_cons_self, Nat.lt_of_not_le small, rfl⟩

theorem refused_of_check_eq_error {mention : Mention} {error : CompileError}
    (failed : mention.check scope = .error error) : Refused scope mention error := by
  cases mention with
  | «variable» name =>
    rw [check, Scope.require] at failed
    cases found : scope.resolve? name with
    | some declared =>
      rw [found] at failed
      cases failed
    | none =>
      rw [found] at failed
      cases failed
      exact .undeclared found
  | context name => cases failed
  | text value =>
    rw [check, stringCode] at failed
    by_cases short : value.length ≤ maxWord
    · rw [if_pos short] at failed
      cases appended : appendCode value.toList with
      | ok code =>
        rw [appended] at failed
        cases failed
      | error own =>
        rw [appended] at failed
        cases failed
        obtain ⟨c, among, wide, rfl⟩ := exists_of_appendCode_eq_error appended
        exact .wideCharacter among wide
    · rw [if_neg short] at failed
      cases failed
      exact .longString (Nat.lt_of_not_le short)
  | flaw own =>
    cases failed
    exact .flaw error

end Mention

/-- The verdict on a variable in front of further code. -/
theorem Frame.verdict_slot_bind {frame : Frame} {name : String} {α : Type}
    {f : Segment × Nat → Generated α} {mentions : List Mention}
    (same : ∀ slot, (f slot).verdict = Mention.checkEach frame.scope mentions) :
    ((liftM (frame.slot name) : Generated (Segment × Nat)) >>= f).verdict =
      Mention.checkEach frame.scope (.variable name :: mentions) := by
  rw [Logged.verdict_bind_of_forall same, Logged.verdict_liftM, Mention.checkEach, Mention.check]
  unfold slot
  cases frame.scope.require name <;> rfl

/-! ## Expressions -/

namespace Expression

variable {frame : Frame}

open Mention Logged

theorem verdict_codeOfList {list : List Expression}
    (each : ∀ expression ∈ list,
      (expression.code frame).verdict = checkEach frame.scope expression.mentions) :
    (codeOfList frame list).verdict = checkEach frame.scope (mentionsOfList list) := by
  induction list with
  | nil => rfl
  | cons expression later ih =>
    rw [List.forall_mem_cons] at each
    rw [codeOfList, mentionsOfList, checkEach_append, ← each.1, ← ih each.2]
    exact verdict_bind_of_forall fun first => verdict_bind_pure _ _

/-- Whether an expression has code is decided by what it mentions. -/
theorem verdict_code (expression : Expression) :
    (expression.code frame).verdict = checkEach frame.scope expression.mentions := by
  induction expression with
  | integer value => rfl
  | string value =>
    rw [mentions, checkEach_singleton]
    rfl
  | truth => rfl
  | zero => rfl
  | receiver => rfl
  | named name => exact Frame.verdict_slot_bind fun slot => rfl
  | element array index ih =>
    rw [Expression.code, mentions]
    apply Frame.verdict_slot_bind
    intro slot
    rw [verdict_bind_pure, ih]
  | unary operator operand ih =>
    rw [Expression.code, mentions, checkEach_append, ← ih, checkEach_ofPart]
    apply verdict_bind_of_forall
    intro value
    exact verdict_bind_pure _ _
  | binary left operator right ihLeft ihRight =>
    rw [Expression.code, mentions, checkEach_append, checkEach_append, ← ihLeft, ← ihRight,
      checkEach_ofPart, bind_assoc]
    apply verdict_bind_of_forall
    intro first
    apply verdict_bind_of_forall
    intro second
    exact verdict_bind_pure _ _
  | call callee arguments ih =>
    have listed (f : List Instruction → List Instruction) :
        (codeOfList frame arguments >>= fun values => pure (f values)).verdict =
          checkEach frame.scope (mentionsOfList arguments) := by
      rw [verdict_bind_pure, verdict_codeOfList ih]
    cases callee with
    | own name =>
      rw [Expression.code]
      split
      · exact listed _
      · exact listed _
    | qualified context name =>
      rw [Expression.code]
      cases frame.scope.resolve? context with
      | some object => exact listed _
      | none => exact listed _
  | flaw error => rfl

end Expression

/-! ## Statements -/

namespace Statement

variable {frame : Frame}

open Mention Logged

theorem verdict_codeOfBlock_of_forall {block : List Statement} {next : Nat}
    (each : ∀ statement ∈ block, ∀ next,
      (statement.code frame next).verdict = checkEach frame.scope statement.mentions) :
    (codeOfBlock frame next block).verdict = checkEach frame.scope (mentionsOfBlock block) := by
  induction block generalizing next with
  | nil => rfl
  | cons statement later ih =>
    rw [List.forall_mem_cons] at each
    rw [codeOfBlock, mentionsOfBlock, checkEach_append, ← each.1 next]
    apply verdict_bind_of_forall
    intro first
    rw [verdict_bind_pure, ih each.2]

/-- Whether a statement has code is decided by what it mentions. -/
theorem verdict_code (statement : Statement) (next : Nat) :
    (statement.code frame next).verdict = checkEach frame.scope statement.mentions := by
  induction statement generalizing next with
  | assign name value =>
    rw [Statement.code, mentions, checkEach_append, ← Expression.verdict_code]
    apply verdict_bind_of_forall
    intro first
    exact Frame.verdict_slot_bind fun slot => rfl
  | assignElement array index value =>
    rw [Statement.code, mentions]
    apply Frame.verdict_slot_bind
    intro slot
    rw [checkEach_append, ← Expression.verdict_code, ← Expression.verdict_code]
    apply verdict_bind_of_forall
    intro position
    exact verdict_bind_pure _ _
  | when condition block ih =>
    rw [Statement.code, mentions, checkEach_append, ← Expression.verdict_code]
    apply verdict_bind_of_forall
    intro test
    rw [verdict_bind_pure, verdict_codeOfBlock_of_forall ih]
  | choose condition yes no ihYes ihNo =>
    rw [Statement.code, mentions, checkEach_append, checkEach_append, bind_assoc,
      ← Expression.verdict_code]
    apply verdict_bind_of_forall
    intro test
    rw [← @verdict_codeOfBlock_of_forall frame yes (next + 3) ihYes]
    apply verdict_bind_of_forall
    intro first
    rw [verdict_bind_pure, verdict_codeOfBlock_of_forall ihNo]
  | loop condition block ih =>
    rw [Statement.code, mentions, checkEach_append, ← Expression.verdict_code]
    apply verdict_bind_of_forall
    intro test
    rw [verdict_bind_pure, verdict_codeOfBlock_of_forall ih]
  | perform call =>
    rw [Statement.code, mentions, ← Expression.verdict_code]
    exact verdict_bind_pure _ _
  | leave value =>
    cases value with
    | none => rfl
    | some value =>
      rw [Statement.code, mentions, ← Expression.verdict_code]
      exact verdict_bind_pure _ _
  | flaw error => rfl

theorem verdict_codeOfBlock (block : List Statement) (next : Nat) :
    (codeOfBlock frame next block).verdict = checkEach frame.scope (mentionsOfBlock block) :=
  verdict_codeOfBlock_of_forall fun statement _ next => verdict_code statement next

end Statement

/-! ## Bodies -/

/-- Whether the body of a subroutine has code is decided by its declarations and then by what its
block mentions. -/
theorem BodyPart.verdict_codeOfList (declarations : List Declaration) (block : List Statement)
    (frame : Frame) (next : Nat) :
    (codeOfList frame next (declarations.map .declare ++ [.statements block])).verdict =
      frame.scope.declareEach (declarations.flatMap (·.bindings .localVar)) >>= fun scope =>
        Mention.checkEach scope (Statement.mentionsOfBlock block) := by
  induction declarations generalizing frame with
  | nil =>
    show (codeOfList frame next [.statements block]).verdict =
      Mention.checkEach frame.scope (Statement.mentionsOfBlock block)
    rw [codeOfList, ← Statement.verdict_codeOfBlock block next]
    exact Logged.verdict_bind_pure _ _
  | cons declaration later ih =>
    rw [List.map_cons, List.cons_append, codeOfList, List.flatMap_cons, Scope.declareEach_append,
      bind_assoc, ← Scope.declareAll_eq, Logged.verdict_bind, Logged.result_liftM]
    simp only [ih]

end JackCompiler
