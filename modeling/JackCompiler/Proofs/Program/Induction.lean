import JackCompiler.Program.Statement

/-!
# Induction on trees, expressions and statements

A syntax tree contains a list of trees, an expression lists of expressions and a statement lists of
statements. What is to be shown of one may be assumed of every member of the lists inside it.
Whether two trees are equal is decided part by part.
-/

set_option autoImplicit false

namespace JackCompiler

/-- Induction on a syntax tree. -/
@[induction_eliminator]
theorem Tree.induct {motive : Tree → Prop}
    (leaf : ∀ token, motive (.leaf token))
    (node : ∀ rule children, (∀ part ∈ children, motive part) → motive (.node rule children))
    (tree : Tree) : motive tree :=
  @Tree.rec motive (fun list => ∀ part ∈ list, motive part) leaf node (by simp)
    (fun _ _ head tail => List.forall_mem_cons.mpr ⟨head, tail⟩) tree

namespace Tree

mutual

/-- Whether two trees are equal. -/
def decideEq : (tree other : Tree) → Decidable (tree = other)
  | leaf token, leaf token' => decidable_of_iff (token = token') (by rw [leaf.injEq])
  | node rule children, node rule' children' =>
    have := decideEqOfList children children'
    decidable_of_iff (rule = rule' ∧ children = children') (by rw [node.injEq])
  | leaf _, node _ _ => isFalse (by simp)
  | node _ _, leaf _ => isFalse (by simp)

/-- Whether the trees of two lists are equal. -/
def decideEqOfList : (trees others : List Tree) → Decidable (trees = others)
  | [], [] => isTrue rfl
  | tree :: trees, other :: others =>
    have := decideEq tree other
    have := decideEqOfList trees others
    decidable_of_iff (tree = other ∧ trees = others) (by rw [List.cons.injEq])
  | [], _ :: _ => isFalse (by simp)
  | _ :: _, [] => isFalse (by simp)

end

instance : DecidableEq Tree := decideEq

end Tree

/-- Induction on an expression. -/
@[induction_eliminator]
theorem Expression.induct {motive : Expression → Prop}
    (integer : ∀ value, motive (.integer value))
    (string : ∀ value, motive (.string value))
    (truth : motive .truth)
    (zero : motive .zero)
    (receiver : motive .receiver)
    (named : ∀ name, motive (.named name))
    (element : ∀ array index, motive index → motive (.element array index))
    (unary : ∀ operator operand, motive operand → motive (.unary operator operand))
    (binary : ∀ left operator right, motive left → motive right →
      motive (.binary left operator right))
    (call : ∀ callee arguments, (∀ argument ∈ arguments, motive argument) →
      motive (.call callee arguments))
    (flaw : ∀ error, motive (.flaw error)) (expression : Expression) : motive expression :=
  @Expression.rec motive (fun list => ∀ part ∈ list, motive part)
    integer string truth zero receiver named element unary binary call flaw (by simp)
    (fun _ _ head tail => List.forall_mem_cons.mpr ⟨head, tail⟩) expression

/-- Induction on a statement. -/
@[induction_eliminator]
theorem Statement.induct {motive : Statement → Prop}
    (assign : ∀ name value, motive (.assign name value))
    (assignElement : ∀ array index value, motive (.assignElement array index value))
    (when : ∀ condition block, (∀ statement ∈ block, motive statement) →
      motive (.when condition block))
    (choose : ∀ condition yes no, (∀ statement ∈ yes, motive statement) →
      (∀ statement ∈ no, motive statement) → motive (.choose condition yes no))
    (loop : ∀ condition block, (∀ statement ∈ block, motive statement) →
      motive (.loop condition block))
    (perform : ∀ call, motive (.perform call))
    (leave : ∀ value, motive (.leave value))
    (flaw : ∀ error, motive (.flaw error)) (statement : Statement) : motive statement :=
  @Statement.rec motive (fun list => ∀ part ∈ list, motive part)
    assign assignElement when choose loop perform leave flaw (by simp)
    (fun _ _ head tail => List.forall_mem_cons.mpr ⟨head, tail⟩) statement

end JackCompiler
