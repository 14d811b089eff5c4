import JackCompiler.Syntax.Grammar
import JackCompiler.Proofs.Outcome

/-!
# Outcomes of combinators

What a combinator gives back, read off the outcomes of its parts, and the tokens that lie between
two cursors. Everything said later about the grammar's parser goes through the equations here and
never opens a combinator again.
-/

set_option autoImplicit false

namespace JackCompiler

namespace Tree

@[simp] theorem tokensOfList_append (first second : List Tree) :
    tokensOfList (first ++ second) = tokensOfList first ++ tokensOfList second := by
  induction first with
  | nil => rfl
  | cons tree later ih => simp [tokensOfList, ih]

@[simp] theorem tokensOfList_nil : tokensOfList [] = [] := rfl

@[simp] theorem tokensOfList_cons (tree : Tree) (later : List Tree) :
    tokensOfList (tree :: later) = tree.tokens ++ tokensOfList later := rfl

@[simp] theorem tokens_leaf (token : Token) : (leaf token).tokens = [token] := rfl

@[simp] theorem tokens_node (rule : Rule) (children : List Tree) :
    (node rule children).tokens = tokensOfList children := rfl

end Tree

namespace Parser

/-- The outcome of a sequence is that of its first part, followed by that of the others. -/
theorem result_sequence_cons (parser : Parser) (later : List Parser) (cursor : Cursor) :
    (sequence (parser :: later) cursor).result =
      (parser cursor).result >>= fun first =>
        (sequence later first.2).result.map (Prod.map (first.1 ++ ·) id) := by
  simp [sequence]

/-- The outcome of alternatives is that of the first candidate, if it succeeds. -/
theorem result_firstOf_cons (first : Nat) (failure : CompileError) (parser : Parser)
    (later : List Parser) (cursor : Cursor) :
    (firstOf first failure (parser :: later) cursor).result =
      match (parser cursor).result with
      | .ok parsed => .ok parsed
      | .error error => (firstOf (first + 1) error later cursor).result := by
  cases h : (parser cursor).result <;> simp [firstOf, h, bind]

/-- Where candidates count from and which failure is reported last do not matter to a success. -/
theorem result_firstOf_of_ok (first first' : Nat) (failure failure' : CompileError)
    (candidates : List Parser) (cursor : Cursor) (parsed : Parsed)
    (h : (firstOf first failure candidates cursor).result = .ok parsed) :
    (firstOf first' failure' candidates cursor).result = .ok parsed := by
  induction candidates generalizing first first' failure failure' with
  | nil => simp [firstOf] at h
  | cons parser later ih =>
    rw [result_firstOf_cons] at h ⊢
    cases hp : (parser cursor).result with
    | ok found => simpa [hp] using h
    | error error =>
      simp only [hp] at h ⊢
      exact ih _ _ _ _ h

/-- Alternatives that succeed give back what one of the candidates gives back. -/
theorem exists_of_result_firstOf (first : Nat) (failure : CompileError)
    (candidates : List Parser) (cursor : Cursor) (parsed : Parsed)
    (h : (firstOf first failure candidates cursor).result = .ok parsed) :
    ∃ parser ∈ candidates, (parser cursor).result = .ok parsed := by
  induction candidates generalizing first failure with
  | nil => simp [firstOf] at h
  | cons parser later ih =>
    rw [result_firstOf_cons] at h
    cases hp : (parser cursor).result with
    | ok found =>
      simp only [hp] at h
      exact ⟨parser, List.mem_cons_self, hp.trans h⟩
    | error error =>
      simp only [hp] at h
      obtain ⟨chosen, among, hc⟩ := ih _ _ h
      exact ⟨chosen, List.mem_cons_of_mem _ among, hc⟩

theorem result_many (parser : Parser) (cursor : Cursor) :
    (many parser cursor).result =
      match (parser cursor).result with
      | .error _ => .ok ([], cursor)
      | .ok (trees, next) =>
        if next.ahead.length < cursor.ahead.length then
          (many parser next).result.map (Prod.map (trees ++ ·) id)
        else .ok ([], cursor) := by
  rw [many]
  cases h : (parser cursor).result with
  | error error => simp [h, bind]
  | ok parsed =>
    obtain ⟨trees, next⟩ := parsed
    simp only [bind, Logged.result_attempt, h]
    split <;> simp

theorem result_maybe (parser : Parser) (cursor : Cursor) :
    (maybe parser cursor).result =
      match (parser cursor).result with
      | .ok parsed => .ok parsed
      | .error _ => .ok ([], cursor) := by
  cases h : (parser cursor).result <;> simp [maybe, h, bind]

end Parser

/-- The tokens between two cursors are those of some trees. -/
structure Cursor.Consumed (cursor : Cursor) (trees : List Tree) (next : Cursor) : Prop where
  ahead : cursor.ahead = Tree.tokensOfList trees ++ next.ahead
  position : next.position = cursor.position + (Tree.tokensOfList trees).length

namespace Cursor.Consumed

variable {cursor middle next : Cursor} {first second : List Tree}

theorem refl (cursor : Cursor) : cursor.Consumed [] cursor :=
  ⟨by simp, by simp⟩

/-- What is consumed in two steps is what is consumed in the first and then in the second. -/
theorem trans (one : cursor.Consumed first middle) (two : middle.Consumed second next) :
    cursor.Consumed (first ++ second) next := by
  constructor
  · rw [one.ahead, two.ahead, Tree.tokensOfList_append, List.append_assoc]
  · rw [two.position, one.position, Tree.tokensOfList_append, List.length_append, Nat.add_assoc]

/-- A cursor never goes back. -/
theorem length_le (h : cursor.Consumed first next) :
    next.ahead.length ≤ cursor.ahead.length := by
  rw [h.ahead, List.length_append]
  omega

/-- Tokens are used up, or the cursor is where it was. -/
theorem progress (h : cursor.Consumed first next) :
    next.ahead.length < cursor.ahead.length ∨
      next = cursor ∧ Tree.tokensOfList first = [] := by
  obtain ⟨ahead, position⟩ := h
  cases read : Tree.tokensOfList first with
  | nil =>
    rw [read] at ahead position
    rw [Cursor.mk.injEq]
    exact .inr ⟨⟨position, ahead.symm⟩, rfl⟩
  | cons token later =>
    left
    rw [ahead, read, List.length_append, List.length_cons]
    omega

end Cursor.Consumed

namespace Grammar

variable {ν : Type}

/-- Induction on a grammar: what holds of a grammar whenever it holds of its parts. -/
@[induction_eliminator]
theorem induct {motive : Grammar ν → Prop}
    (terminal : ∀ kind texts, motive (.terminal kind texts))
    (sequence : ∀ parts, (∀ part ∈ parts, motive part) → motive (.sequence parts))
    (alternatives : ∀ candidates, (∀ part ∈ candidates, motive part) →
      motive (.alternatives candidates))
    (many : ∀ part, motive part → motive (.many part))
    (maybe : ∀ part, motive part → motive (.maybe part))
    (rule : ∀ name, motive (.rule name)) (grammar : Grammar ν) : motive grammar :=
  @Grammar.rec ν motive (fun parts => ∀ part ∈ parts, motive part)
    terminal sequence alternatives many maybe rule (by simp)
    (fun _ _ head tail => List.forall_mem_cons.mpr ⟨head, tail⟩) grammar

end Grammar

end JackCompiler
