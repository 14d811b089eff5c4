import JackCompiler.Proofs.Code.Emission
import JackCompiler.Proofs.Code.Evaluation
import JackCompiler.Proofs.Program.Shape

/-!
# Code computes what the source says

The code of an expression pushes the value of the expression and nothing else, and the code of an
assignment performs the assignment. Only the second pointer and the temporary memory are not
accounted for: code is free to use them.

`StackMachine.Pushes` says that code pushes some words. It is built up along the code, one lemma for
each way in which the generator puts code together, and `computed_of_derivation` goes through
the derivation tree with these lemmas. The main result is `run_code_eq_evaluate`.
-/

set_option autoImplicit false

namespace JackCompiler

namespace StackMachine

variable {Word : Type} [DecidableEq Word]

/-- Whether code pushes some words, the last of them on top, and turns one memory into another. -/
def Pushes (machine : StackMachine Word) (activation : Activation Word) (code : List Instruction)
    (store : Store Word) (values : List Word) (after : Store Word) : Prop :=
  ∀ that temp stack, ∃ that' temp', machine.run code ⟨store, activation, that, temp, stack⟩ =
    some ⟨after, activation, that', temp', values.reverse ++ stack⟩

namespace Pushes

variable {machine : StackMachine Word} {activation : Activation Word}
  {code first second : List Instruction} {store middle after : Store Word}
  {values further : List Word} {value left right : Word}

theorem nil : Pushes machine activation [] store [] store := by
  intro that temp stack
  exact ⟨that, temp, rfl⟩

theorem append (one : Pushes machine activation first store values middle)
    (two : Pushes machine activation second middle further after) :
    Pushes machine activation (first ++ second) store (values ++ further) after := by
  intro that temp stack
  obtain ⟨that₁, temp₁, run₁⟩ := one that temp stack
  obtain ⟨that₂, temp₂, run₂⟩ := two that₁ temp₁ (values.reverse ++ stack)
  refine ⟨that₂, temp₂, ?_⟩
  rw [run_append, run₁, Option.bind_some, run₂, List.reverse_append, List.append_assoc]

theorem constant (number : Nat) :
    Pushes machine activation [.push .constant number] store [machine.constant number] store := by
  intro that temp stack
  exact ⟨that, temp, rfl⟩

theorem this :
    Pushes machine activation [.push .pointer 0] store [activation.this] store := by
  intro that temp stack
  exact ⟨that, temp, rfl⟩

/-- A variable is read from where variables of its kind live. -/
theorem «variable» (declared : Variable) :
    Pushes machine activation [.push declared.kind.segment declared.index] store
      [machine.variableValue activation store declared] store := by
  intro that temp stack
  refine ⟨that, temp, ?_⟩
  rw [run_cons, execute]
  unfold variableValue
  cases declared.kind <;> rfl

theorem unary {operator : UnaryOperator} {symbol : String}
    (denotes : UnaryOperator.ofSymbol symbol = .ok operator)
    (pushes : Pushes machine activation code store [value] after) :
    ∃ result, machine.unaryValue symbol value = some result ∧
      Pushes machine activation (code ++ [operator.instruction]) store [result] after := by
  unfold UnaryOperator.ofSymbol at denotes
  split at denotes
  case h_3 => cases denotes
  all_goals
    cases denotes
    refine ⟨_, rfl, ?_⟩
    intro that temp stack
    obtain ⟨that', temp', run⟩ := pushes that temp stack
    refine ⟨that', temp', ?_⟩
    rw [run_append, run]
    rfl

theorem call (name : String) {count : Nat}
    (pushes : Pushes machine activation code store values after)
    (counted : values.length = count) :
    Pushes machine activation (code ++ [.call name count]) store
      [(machine.result name values after).1] (machine.result name values after).2 := by
  subst counted
  intro that temp stack
  obtain ⟨that', temp', run⟩ := pushes that temp stack
  refine ⟨that', (machine.call name values after).temp temp', ?_⟩
  have enough : values.length ≤ (values.reverse ++ stack).length := by
    rw [List.length_append, List.length_reverse]
    omega
  have popped : ((values.reverse ++ stack).take values.length).reverse = values := by
    rw [List.take_left' List.length_reverse, List.reverse_reverse]
  have left : (values.reverse ++ stack).drop values.length = stack :=
    List.drop_left' List.length_reverse
  rw [run_append, run, Option.bind_some, run_cons, execute, if_pos enough]
  simp only [popped, left, Option.bind_some, run_nil]
  rfl

/-- A call with a receiver takes it as the first of its arguments. -/
theorem callOn (name : String) {count : Nat} {receiver : Word}
    (one : Pushes machine activation first store [receiver] middle)
    (two : Pushes machine activation second middle values after)
    (counted : values.length = count) :
    Pushes machine activation (first ++ second ++ [.call name (count + 1)]) store
      [(machine.result name (receiver :: values) after).1]
      (machine.result name (receiver :: values) after).2 := by
  apply (one.append two).call name
  rw [List.length_append, counted, Nat.add_comm]
  rfl

/-- An operation or a call combines the two words on top. -/
theorem binary {operator : BinaryOperator} {symbol : String}
    (denotes : BinaryOperator.ofSymbol symbol = .ok operator)
    (pushes : Pushes machine activation code store [left, right] after) :
    ∃ result, machine.binaryValue symbol left right after = some result ∧
      Pushes machine activation (code ++ [operator.instruction]) store [result.1] result.2 := by
  unfold BinaryOperator.ofSymbol at denotes
  split at denotes
  case h_10 => cases denotes
  case h_3 =>
    cases denotes
    exact ⟨_, rfl, pushes.call "Math.multiply" rfl⟩
  case h_4 =>
    cases denotes
    exact ⟨_, rfl, pushes.call "Math.divide" rfl⟩
  all_goals
    cases denotes
    refine ⟨_, rfl, ?_⟩
    intro that temp stack
    obtain ⟨that', temp', run⟩ := pushes that temp stack
    refine ⟨that', temp', ?_⟩
    rw [run_append, run]
    rfl

/-- The sum of two words is taken as an address, and the word there is pushed. -/
theorem element (pushes : Pushes machine activation code store [left, right] after) :
    Pushes machine activation (code ++ [.operate .add, .pop .pointer 1, .push .that 0]) store
      [after.heap (machine.add left right)] after := by
  intro that temp stack
  obtain ⟨that', temp', run⟩ := pushes that temp stack
  refine ⟨machine.add left right, temp', ?_⟩
  have address := machine.offset_zero (machine.add left right)
  rw [run_append, run]
  show some (MachineState.mk after activation (machine.add left right) temp'
    (after.heap (machine.offset (machine.add left right) 0) :: stack)) = _
  rw [address]
  rfl

/-- Characters are appended to the string on top, one after the other. -/
theorem appendChars (characters : List Char) (made : Word × Store Word)
    (pushes : Pushes machine activation code store [made.1] made.2) :
    let whole := characters.foldl (fun made c =>
      machine.result "String.appendChar" [made.1, machine.constant c.toNat] made.2) made
    Pushes machine activation (code ++ characters.flatMap appendCharCode) store [whole.1]
      whole.2 := by
  induction characters generalizing code made with
  | nil => simpa using pushes
  | cons c rest ih =>
    have appended := (pushes.append (constant c.toNat)).call "String.appendChar" rfl
    have whole := ih (machine.result "String.appendChar" [made.1, machine.constant c.toNat] made.2)
      appended
    simpa [appendCharCode, List.append_assoc] using whole

theorem string (text : String) :
    Pushes machine activation (.push .constant text.length :: .call "String.new" 1 ::
        text.toList.flatMap appendCharCode) store
      [(machine.stringValue text store).1] (machine.stringValue text store).2 := by
  have length : Pushes machine activation [.push .constant text.length] store
      [machine.constant text.length] store := constant text.length
  exact appendChars text.toList _ (length.call "String.new" rfl)

end Pushes

open JackCompiler.Tree

variable (machine : StackMachine Word) (frame : Frame) (activation : Activation Word)

/-- Whether a tree that stands for an expression has a value as soon as it has code, and the code
pushes that value. -/
def Valued (tree : Tree) : Prop :=
  ∀ code store, ((Expression.ofTree tree).code frame).result = .ok code →
    ∃ value, machine.evaluate frame activation tree store = some value ∧
      Pushes machine activation code store [value.1] value.2

/-- Whether the expressions of a list have values as soon as they have code, and the code pushes
these values. -/
def Listed (tree : Tree) : Prop :=
  ∀ code store, (Expression.codeOfList frame (Expression.read tree).arguments).result = .ok code →
    ∃ values, machine.evaluateEach frame activation tree.children store = some values ∧
      values.1.length = (Expression.read tree).arguments.length ∧
      Pushes machine activation code store values.1 values.2

/-- What is known of a tree, according to its rule. -/
def Computed (tree : Tree) : Prop :=
  match tree.rule? with
  | some .expression | some .term | some .subroutineCall => Valued machine frame activation tree
  | some .expressionList => Listed machine frame activation tree
  | _ => True

variable {machine frame activation}

theorem Computed.valued_term {tree : Tree} (computed : Computed machine frame activation tree)
    (isTerm : tree.rule? = some .term) : Valued machine frame activation tree := by
  simpa [Computed, isTerm] using computed

theorem Computed.valued_expression {tree : Tree}
    (computed : Computed machine frame activation tree)
    (isExpression : tree.rule? = some .expression) : Valued machine frame activation tree := by
  simpa [Computed, isExpression] using computed

/-- Terms behind a value are combined with it from left to right, by the code as by the evaluation.
The induction moves the first term into what stands on the left. -/
theorem valued_later (later : List (String × Nat × Tree))
    (terms : ∀ part ∈ later, Valued machine frame activation part.2.2) (left : Expression)
    (code : List Instruction)
    (h : ((later.foldl (fun left part => Expression.binary left (BinaryOperator.ofSymbol part.1)
      (Expression.ofTree part.2.2)) left).code frame).result = .ok code) :
    ∃ first, (left.code frame).result = .ok first ∧ ∀ store value middle,
      Pushes machine activation first store [value] middle →
        ∃ result, machine.evaluateLater frame activation value
            (later.flatMap fun part => [Tree.symbol part.1 part.2.1, part.2.2]) middle =
              some result ∧ Pushes machine activation code store [result.1] result.2 := by
  induction later generalizing left with
  | nil => exact ⟨code, h, fun store value middle pushes => ⟨(value, middle), rfl, pushes⟩⟩
  | cons part later ih =>
    rw [List.forall_mem_cons] at terms
    obtain ⟨joined, joinedCode, further⟩ := ih terms.2 _ h
    obtain ⟨first, firstCode, second, secondCode, operator, denotes, rfl⟩ :=
      Expression.code_binary.mp joinedCode
    refine ⟨first, firstCode, ?_⟩
    intro store value middle pushes
    obtain ⟨right, rightValue, rightPushes⟩ := terms.1 second middle secondCode
    obtain ⟨combined, combinedValue, combinedPushes⟩ :=
      (pushes.append rightPushes).binary denotes
    obtain ⟨result, resultValue, resultPushes⟩ := further store combined.1 combined.2 combinedPushes
    refine ⟨result, ?_, resultPushes⟩
    rw [List.flatMap_cons]
    show (machine.evaluate frame activation part.2.2 middle).bind (fun right =>
      (machine.binaryValue part.1 value right.1 right.2).bind fun combined => _) = _
    rw [rightValue, Option.bind_some, combinedValue]
    exact resultValue

/-- Expressions behind the first one of a list push their values in order. -/
theorem listed_later (later : List (String × Nat × Tree))
    (areExpressions : ∀ part ∈ later, part.2.2.rule? = some .expression)
    (expressions : ∀ part ∈ later, Valued machine frame activation part.2.2)
    (code : List Instruction) (store : Store Word)
    (h : (Expression.codeOfList frame
      (later.map fun part => Expression.ofTree part.2.2)).result = .ok code) :
    ∃ values, machine.evaluateEach frame activation
        (later.flatMap fun part => [Tree.symbol part.1 part.2.1, part.2.2]) store = some values ∧
      values.1.length = (later.map fun part => Expression.ofTree part.2.2).length ∧
      Pushes machine activation code store values.1 values.2 := by
  induction later generalizing code store with
  | nil =>
    obtain rfl := Expression.codeOfList_nil.mp h
    exact ⟨([], store), rfl, rfl, .nil⟩
  | cons part later ih =>
    rw [List.forall_mem_cons] at areExpressions expressions
    obtain ⟨first, emitted, more, moreEmitted, rfl⟩ := Expression.codeOfList_cons.mp h
    obtain ⟨value, partValue, pushes⟩ := expressions.1 first store emitted
    obtain ⟨values, laterValues, count, laterPushes⟩ :=
      ih areExpressions.2 expressions.2 more value.2 moreEmitted
    refine ⟨(value.1 :: values.1, values.2), ?_, ?_, pushes.append laterPushes⟩
    · rw [List.flatMap_cons]
      show machine.evaluateEach frame activation (part.2.2 :: _) store = _
      rw [evaluateEach_cons_of_rule areExpressions.1, partValue, Option.bind_some]
      show (machine.evaluateEach frame activation (later.flatMap _) value.2).bind _ = _
      rw [laterValues]
      rfl
    · rw [List.length_cons, List.map_cons, List.length_cons, count]

theorem valued_integer (text : String) (l : Nat) :
    Valued machine frame activation (.node .term [.leaf ⟨.integerConstant, text, l⟩]) := by
  intro code store h
  rw [Expression.ofTree_integer, Expression.ofInteger] at h
  cases number : wordValue? text.toList with
  | none =>
    rw [number] at h
    exact absurd h Expression.code_flaw
  | some value =>
    rw [number] at h
    obtain rfl := Expression.code_integer.mp h
    refine ⟨(machine.constant value, store), ?_, .constant value⟩
    show (wordValue? text.toList).bind _ = _
    rw [number]
    rfl

theorem valued_constant (text : String) (l : Nat) (isConstant : text ∈ constantKeywords) :
    Valued machine frame activation (.node .term [.keyword text l]) := by
  intro code store h
  rw [Expression.ofTree_constant] at h
  simp only [constantKeywords, List.mem_cons, List.not_mem_nil, or_false] at isConstant
  rcases isConstant with rfl | rfl | rfl | rfl
  · obtain rfl := Expression.code_truth.mp h
    have zero : Pushes machine activation [.push .constant 0] store [machine.constant 0] store :=
      .constant 0
    have denotes : UnaryOperator.ofSymbol "~" = .ok .complement := rfl
    obtain ⟨value, eq, pushes⟩ := zero.unary denotes
    cases eq
    exact ⟨_, rfl, pushes⟩
  · obtain rfl := Expression.code_zero.mp h
    exact ⟨_, rfl, .constant 0⟩
  · obtain rfl := Expression.code_zero.mp h
    exact ⟨_, rfl, .constant 0⟩
  · obtain rfl := Expression.code_receiver.mp h
    exact ⟨_, rfl, .this⟩

/-- Every derivation tree computes what its code pushes. -/
theorem computed_of_derivation {tree : Tree} (derives : tree.Derivation) :
    Computed machine frame activation tree := by
  induction derives with
  | @expression first later firstIsTerm _ _ areTerms _ firstComputed computed =>
    intro code store h
    have terms : ∀ part ∈ later, Valued machine frame activation part.2.2 :=
      fun part among => (computed part among).valued_term (areTerms part among)
    rw [Expression.ofTree_expression first later firstIsTerm areTerms] at h
    obtain ⟨firstCode, emitted, further⟩ := valued_later later terms _ code h
    obtain ⟨value, firstValue, pushes⟩ :=
      firstComputed.valued_term firstIsTerm firstCode store emitted
    obtain ⟨result, resultValue, resultPushes⟩ := further store value.1 value.2 pushes
    refine ⟨result, ?_, resultPushes⟩
    show (machine.evaluate frame activation first store).bind _ = _
    rw [firstValue]
    exact resultValue
  | integer text l => exact valued_integer text l
  | string text l =>
    intro code store h
    rw [Expression.ofTree_string] at h
    obtain ⟨-, -, rfl⟩ := Expression.code_string.mp h
    exact ⟨_, rfl, .string _⟩
  | constant text l isConstant => exact valued_constant text l isConstant
  | «variable» text l =>
    intro code store h
    rw [Expression.ofTree_variable] at h
    obtain ⟨declared, found, rfl⟩ := Expression.code_named.mp h
    refine ⟨(machine.variableValue activation store declared, store), ?_, .variable declared⟩
    show (frame.scope.resolve? text).bind _ = _
    rw [found]
    rfl
  | @element index text l₁ l₂ l₃ _ indexComputed =>
    intro code store h
    rw [Expression.ofTree_element] at h
    obtain ⟨declared, found, position, emitted, rfl⟩ := Expression.code_element.mp h
    obtain ⟨value, indexValue, pushes⟩ := indexComputed position store emitted
    refine ⟨(value.2.heap (machine.add (machine.variableValue activation store declared) value.1),
      value.2), ?_, ((Pushes.variable declared).append pushes).element⟩
    show (frame.scope.resolve? text).bind (fun declared =>
      (machine.evaluate frame activation (.node .expression index) store).bind fun value => _) = _
    rw [found, Option.bind_some, indexValue]
    rfl
  | @call call _ computed =>
    intro code store h
    rw [Expression.ofTree_call] at h
    exact computed code store h
  | @parenthesized inner l₁ l₂ _ computed =>
    intro code store h
    rw [Expression.ofTree_parenthesized] at h
    exact computed code store h
  | @unary operand text l isOperator _ computed =>
    intro code store h
    rw [Expression.ofTree_unary text operand l isOperator] at h
    obtain ⟨operandCode, emitted, operator, denotes, rfl⟩ := Expression.code_unary.mp h
    obtain ⟨value, operandValue, pushes⟩ := computed operandCode store emitted
    obtain ⟨result, resultValue, resultPushes⟩ := pushes.unary denotes
    refine ⟨(result, value.2), ?_, resultPushes⟩
    show (machine.evaluate frame activation (.node .term operand) store).bind (fun value =>
      (machine.unaryValue text value.1).bind fun result => _) = _
    rw [operandValue, Option.bind_some, resultValue]
    rfl
  | @ownCall arguments name l₁ l₂ l₃ _ computed =>
    intro code store h
    rw [Expression.ofTree_ownCall] at h
    obtain ⟨values, emitted, rfl⟩ := Expression.code_ownCall.mp h
    obtain ⟨words, listed, count, pushes⟩ := computed values store emitted
    refine ⟨_, ?_, Pushes.this.callOn s!"{frame.className}.{name}" pushes count⟩
    show (machine.evaluateEach frame activation arguments store).bind _ = _
    rw [show machine.evaluateEach frame activation arguments store = some words from listed]
    rfl
  | @qualifiedCall arguments context name l₁ l₂ l₃ l₄ l₅ _ computed =>
    intro code store h
    rw [Expression.ofTree_qualifiedCall] at h
    cases found : frame.scope.resolve? context with
    | some object =>
      obtain ⟨values, emitted, rfl⟩ := (Expression.code_methodCall found).mp h
      obtain ⟨words, listed, count, pushes⟩ := computed values store emitted
      refine ⟨_, ?_, (Pushes.variable object).callOn s!"{object.type}.{name}" pushes count⟩
      rw [evaluate_qualifiedCall, found]
      show (machine.evaluateEach frame activation arguments store).bind _ = _
      rw [show machine.evaluateEach frame activation arguments store = some words from listed]
      rfl
    | none =>
      obtain ⟨values, emitted, rfl⟩ := (Expression.code_functionCall found).mp h
      obtain ⟨words, listed, count, pushes⟩ := computed values store emitted
      refine ⟨_, ?_, pushes.call s!"{context}.{name}" count⟩
      rw [evaluate_qualifiedCall, found]
      show (machine.evaluateEach frame activation arguments store).bind _ = _
      rw [show machine.evaluateEach frame activation arguments store = some words from listed]
      rfl
  | noArguments =>
    intro code store h
    rw [Expression.arguments_read_nil] at h ⊢
    obtain rfl := Expression.codeOfList_nil.mp h
    exact ⟨([], store), rfl, rfl, .nil⟩
  | @arguments first later firstIsExpression _ _ areExpressions _ firstComputed computed =>
    intro code store h
    have expressions : ∀ part ∈ later, Valued machine frame activation part.2.2 :=
      fun part among => (computed part among).valued_expression (areExpressions part among)
    rw [Expression.arguments_read first later firstIsExpression areExpressions] at h ⊢
    obtain ⟨firstCode, emitted, moreCode, moreEmitted, rfl⟩ := Expression.codeOfList_cons.mp h
    obtain ⟨value, firstValue, pushes⟩ :=
      firstComputed.valued_expression firstIsExpression firstCode store emitted
    obtain ⟨values, laterValues, count, laterPushes⟩ :=
      listed_later later areExpressions expressions moreCode value.2 moreEmitted
    refine ⟨(value.1 :: values.1, values.2), ?_, ?_, pushes.append laterPushes⟩
    · show machine.evaluateEach frame activation (chain first later) store = _
      rw [chain, evaluateEach_cons_of_rule firstIsExpression, firstValue, Option.bind_some,
        laterValues]
      rfl
    · rw [List.length_cons, List.length_cons, count]
  | _ => trivial

/-- The word on top is taken as the new value of a variable. -/
theorem Pushes.setVariable {code : List Instruction} {store after : Store Word} {value : Word}
    (pushes : Pushes machine activation code store [value] after) (declared : Variable)
    (that : Word) (temp : Nat → Word) (stack : List Word) :
    ∃ that' temp', machine.run (code ++ [.pop declared.kind.segment declared.index])
        ⟨store, activation, that, temp, stack⟩ =
      some ⟨(machine.setVariable activation declared value after).2,
        (machine.setVariable activation declared value after).1, that', temp', stack⟩ := by
  obtain ⟨that', temp', run⟩ := pushes that temp stack
  refine ⟨that', temp', ?_⟩
  rw [run_append, run]
  unfold StackMachine.setVariable
  cases declared.kind <;> rfl

/-- The word on top is stored at the address below it. -/
theorem Pushes.setElement {code : List Instruction} {store after : Store Word}
    {address value : Word} (pushes : Pushes machine activation code store [address, value] after)
    (that : Word) (temp : Nat → Word) (stack : List Word) :
    ∃ that' temp', machine.run (code ++ [.pop .temp elementTemp, .pop .pointer 1,
        .push .temp elementTemp, .pop .that 0]) ⟨store, activation, that, temp, stack⟩ =
      some ⟨after.setHeap address value, activation, that', temp', stack⟩ := by
  obtain ⟨that', temp', run⟩ := pushes that temp stack
  refine ⟨address, Function.update temp' elementTemp value, ?_⟩
  have kept : Function.update temp' elementTemp value elementTemp = value :=
    Function.update_self elementTemp value temp'
  rw [run_append, run]
  show some (MachineState.mk (after.setHeap (machine.offset address 0)
    (Function.update temp' elementTemp value elementTemp)) activation address
    (Function.update temp' elementTemp value) stack) = _
  rw [machine.offset_zero, kept]

end StackMachine

open StackMachine in
/-- Whenever code is generated for an expression that the parser can build, running it succeeds from
every state and pushes the value that the tree says, with the memory that its evaluation leaves
behind. Whenever code is generated for an assignment, running it performs the assignment and leaves
the stack as it was. -/
theorem run_code_eq_evaluate {Word : Type} [DecidableEq Word] (machine : StackMachine Word)
    (frame : Frame) (tree : Tree) (derives : tree.Derivation) (state : MachineState Word) :
    (tree.rule? = some .expression → ∀ code,
      ((Expression.ofTree tree).code frame).result = .ok code →
        ∃ value store that temp,
          machine.evaluate frame state.activation tree state.store = some (value, store) ∧
          machine.run code state =
            some { state with store, that, temp, stack := value :: state.stack }) ∧
    (tree.rule? = some .letStatement → ∀ code next free,
      ((Statement.ofTree tree).code frame next).result = .ok (code, free) →
        ∃ activation store that temp,
          machine.evaluateLet frame state.activation tree state.store = some (activation, store) ∧
          machine.run code state = some { state with activation, store, that, temp }) := by
  obtain ⟨store, activation, that, temp, stack⟩ := state
  constructor
  · intro isExpression code emitted
    obtain ⟨value, eq, pushes⟩ :=
      (computed_of_derivation derives).valued_expression isExpression code store emitted
    obtain ⟨that', temp', run⟩ := pushes that temp stack
    exact ⟨value.1, value.2, that', temp', eq, run⟩
  · intro isLet code next free emitted
    cases derives with
    | @letVariable value text l₁ l₂ l₃ l₄ valueDerives =>
      rw [Statement.ofTree_letVariable] at emitted
      obtain ⟨first, valueCode, declared, found, rfl, -⟩ := Statement.code_assign.mp emitted
      obtain ⟨word, eq, pushes⟩ :=
        (computed_of_derivation valueDerives).valued_expression rfl first store valueCode
      obtain ⟨that', temp', run⟩ := pushes.setVariable declared that temp stack
      refine ⟨_, _, that', temp', ?_, run⟩
      show (frame.scope.resolve? text).bind (fun declared =>
        (machine.evaluate frame activation (.node .expression value) store).bind fun word => _) = _
      rw [found, Option.bind_some, eq]
      rfl
    | @letElement index value text l₁ l₂ l₃ l₄ l₅ l₆ indexDerives valueDerives =>
      rw [Statement.ofTree_letElement] at emitted
      obtain ⟨declared, found, position, indexCode, second, valueCode, rfl, -⟩ :=
        Statement.code_assignElement.mp emitted
      have indexValued : Valued machine frame activation (.node .expression index) :=
        (computed_of_derivation indexDerives).valued_expression rfl
      have valueValued : Valued machine frame activation (.node .expression value) :=
        (computed_of_derivation valueDerives).valued_expression rfl
      obtain ⟨offset, indexEq, indexPushes⟩ := indexValued position store indexCode
      obtain ⟨word, valueEq, valuePushes⟩ := valueValued second offset.2 valueCode
      have plus : BinaryOperator.ofSymbol "+" = .ok .add := rfl
      obtain ⟨address, addressEq, addressPushes⟩ :=
        ((Pushes.variable declared).append indexPushes).binary plus
      cases addressEq
      obtain ⟨that', temp', run⟩ := (addressPushes.append valuePushes).setElement that temp stack
      have assigned : machine.evaluateLet frame activation (.node .letStatement
          [.keyword "let" l₁, .identifier text l₂, .symbol "[" l₃, .node .expression index,
            .symbol "]" l₄, .symbol "=" l₅, .node .expression value, .symbol ";" l₆]) store =
          some (activation, word.2.setHeap
            (machine.add (machine.variableValue activation store declared) offset.1) word.1) := by
        show (frame.scope.resolve? text).bind (fun declared =>
          (machine.evaluate frame activation (.node .expression index) store).bind fun offset =>
          (machine.evaluate frame activation (.node .expression value) offset.2).bind fun word =>
            _) = _
        rw [found, Option.bind_some, indexEq, Option.bind_some, valueEq]
        rfl
      refine ⟨_, _, that', temp', assigned, ?_⟩
      simpa only [List.append_assoc, List.cons_append, List.nil_append,
        BinaryOperator.instruction] using run
    | _ => cases isLet

/-! ## An assignment between array elements -/

def elementTerm (index : Tree) : Tree :=
  .node .term [.identifier "a" 1, .symbol "[" 1, index, .symbol "]" 1]

/-- The assignment `let a[i] = a[a[0]] * 2;`. -/
def nestedAssignment : Tree :=
  .node .letStatement [.keyword "let" 1, .identifier "a" 1, .symbol "[" 1,
    .node .expression [.node .term [.identifier "i" 1]], .symbol "]" 1, .symbol "=" 1,
    .node .expression [elementTerm (.node .expression [elementTerm (.node .expression
      [.node .term [.leaf ⟨.integerConstant, "0", 1⟩]])]), .symbol "*" 1,
      .node .term [.leaf ⟨.integerConstant, "2", 1⟩]], .symbol ";" 1]

theorem nestedAssignment_derivation : nestedAssignment.Derivation := by
  have single {tree : Tree} (isTerm : tree.rule? = some .term) (derives : tree.Derivation) :
      (Tree.node .expression [tree]).Derivation :=
    @Tree.Derivation.expression tree [] isTerm derives (by simp) (by simp) (by simp)
  have two : (Tree.node .term [.leaf ⟨.integerConstant, "2", 1⟩]).Derivation := .integer "2" 1
  refine .letElement "a" 1 1 1 1 1 1 (single rfl (.variable "i" 1)) ?_
  refine @Tree.Derivation.expression _ [("*", 1, _)] rfl ?_ ?_ ?_ ?_
  · exact .element "a" 1 1 1 (single rfl (.element "a" 1 1 1 (single rfl (.integer "0" 1))))
  · simp [Tree.binarySymbols]
  · simp [Tree.rule?]
  · simpa using two

/-- A machine with words of sixteen bits that can multiply. -/
def wordMachine : StackMachine (BitVec 16) where
  constant number := .ofNat 16 number
  negate word := -word
  complement word := ~~~word
  add left right := left + right
  subtract left right := left - right
  equal left right := if left = right then -1 else 0
  greater left right := if right.slt left then -1 else 0
  less left right := if left.slt right then -1 else 0
  both left right := left &&& right
  either left right := left ||| right
  offset base index := base + .ofNat 16 index
  offset_zero base := by simp
  call name words store :=
    ⟨if name = "Math.multiply" then words.foldl (· * ·) 1 else 0, store, id⟩

/-- The surroundings of a function with the parameters `a` and `i`. -/
def arrayFrame : Frame where
  className := "A"
  kind := .function
  scope := ⟨⟨"f", [("i", ⟨"int", .argument, 1⟩), ("a", ⟨"Array", .argument, 0⟩)], 0⟩,
    [.empty "A"]⟩

/-- A state in which `a` is 100, `i` is 3, and each word of the heap is half its address. -/
def arrayState : MachineState (BitVec 16) where
  store := ⟨fun address => address / 2, fun _ => 0⟩
  activation := ⟨fun _ => 0, fun index => if index = 0 then 100 else 3, 0⟩
  that := 0
  temp _ := 0
  stack := [9]

/-- The assignment reads the word 50 at 100 and the word 75 at 150, and stores its double at 103. -/
theorem run_code_nestedAssignment :
    nestedAssignment.Derivation ∧ ∃ code activation store that temp,
      ((Statement.ofTree nestedAssignment).code arrayFrame 0).result = .ok (code, 0) ∧
      wordMachine.evaluateLet arrayFrame arrayState.activation nestedAssignment arrayState.store =
        some (activation, store) ∧ store.heap 103 = 150 ∧
      wordMachine.run code arrayState = some { arrayState with activation, store, that, temp } := by
  have derives : nestedAssignment.Derivation := nestedAssignment_derivation
  have stored : (wordMachine.evaluateLet arrayFrame arrayState.activation nestedAssignment
      arrayState.store).map (fun left => left.2.heap 103) = some 150 := by decide +kernel
  obtain ⟨code, emitted⟩ : ∃ code,
      ((Statement.ofTree nestedAssignment).code arrayFrame 0).result = .ok (code, 0) := ⟨_, rfl⟩
  obtain ⟨activation, store, that, temp, eq, run⟩ :=
    (run_code_eq_evaluate wordMachine arrayFrame nestedAssignment derives arrayState).2 rfl code 0 0
      emitted
  rw [eq, Option.map_some, Option.some.injEq] at stored
  exact ⟨derives, code, activation, store, that, temp, emitted, eq, stored, run⟩

end JackCompiler
