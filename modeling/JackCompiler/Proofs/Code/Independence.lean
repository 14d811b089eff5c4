import JackCompiler.Proofs.Code.Block

/-!
# Subroutines on their own

Nothing that the code of one subroutine depends on is left behind by another one: they share the
variables of the class, which are declared before, and the names that were seen. So if the names
are different, the code of a class is that of its subroutines, each of them compiled in a class
where it is alone, and the first of those classes that has an error is the one whose error the
whole class has (`generate_eq_flatten_mapM`). What order the subroutines stand in makes no
difference to the code of each.

`Member.codeAlone` is what a subroutine contributes, without the names seen before;
`Member.result_codeOfList` is the induction over the subroutines.
-/

set_option autoImplicit false

namespace JackCompiler

section Except

variable {ε α β : Type} {f : α → Except ε β} {list : List α}

/-- A sequence of computations has values exactly if each of them has one. -/
theorem mapM_eq_ok_iff_forall₂ {results : List β} :
    list.mapM f = .ok results ↔ List.Forall₂ (fun a b => f a = .ok b) list results := by
  induction list generalizing results with
  | nil =>
    rw [List.mapM_nil, List.forall₂_nil_left_iff]
    exact ⟨fun h => (Except.ok.inj h).symm, fun h => by rw [h]; rfl⟩
  | cons a later ih =>
    rw [List.mapM_cons, except_bind_eq_ok, List.forall₂_cons_left_iff]
    refine exists_congr fun b => ?_
    rw [except_bind_eq_ok]
    constructor
    · rintro ⟨here, others, there, whole⟩
      cases whole
      exact ⟨others, here, ih.mp there, rfl⟩
    · rintro ⟨others, here, there, rfl⟩
      exact ⟨here, others, ih.mpr there, rfl⟩

/-- A sequence of computations fails where the first one of them does. -/
theorem mapM_eq_error {before after : List α} {a : α} {error : ε}
    (first : ∀ other ∈ before, ∃ b, f other = .ok b) (fails : f a = .error error) :
    (before ++ a :: after).mapM f = .error error := by
  induction before with
  | nil =>
    rw [List.nil_append, List.mapM_cons, fails]
    rfl
  | cons other before ih =>
    rw [List.forall_mem_cons] at first
    obtain ⟨b, here⟩ := first.1
    rw [List.cons_append, List.mapM_cons, here, ih first.2]
    rfl

theorem except_map_eq_ok {x : Except ε α} {g : α → β} {b : β} :
    g <$> x = .ok b ↔ ∃ a, x = .ok a ∧ g a = b := by
  cases x with
  | error error => simp [Functor.map, Except.map]
  | ok a => simp [Functor.map, Except.map]

/-- Related lists of computations that agree end in the same way. -/
theorem mapM_congr_forall₂ {γ : Type} {g : γ → Except ε β} {others : List γ}
    (agree : List.Forall₂ (fun a c => f a = g c) list others) : list.mapM f = others.mapM g := by
  induction agree with
  | nil => rfl
  | cons here _ ih => rw [List.mapM_cons, List.mapM_cons, here, ih]

end Except

/-! ## Classes that differ in their subroutines -/

namespace Tree

/-- Whether two trees are the same class but for its subroutines. -/
structure SameClass (tree other : Tree) : Prop where
  name : Class.nameOfTree other = Class.nameOfTree tree
  declared : other.groups .classVarDec = tree.groups .classVarDec

/-- Whether a tree is the class of another one with one of its subroutines and no other. -/
structure Isolates (tree part alone : Tree) : Prop extends tree.SameClass alone where
  subroutines : alone.groups .subroutineDec = [part]

/-- A class whose parts are those of another one without the subroutines in front of a given part
and behind it. -/
def onlySubroutine (front : List Tree) (part : Tree) (behind : List Tree) : Tree :=
  .node .classDec (front.filter (!·.isRule .subroutineDec) ++
    part :: behind.filter (!·.isRule .subroutineDec))

theorem isRule_eq_false {tree : Tree} {rule other : Rule} (is : tree.isRule rule = true)
    (different : rule ≠ other) : tree.isRule other = false := by
  unfold isRule at *
  rw [decide_eq_true_eq] at is
  simpa [is] using different

theorem isRule_classVarDec_and (part : Tree) :
    (part.isRule .classVarDec && !part.isRule .subroutineDec) = part.isRule .classVarDec := by
  cases own : part.isRule .classVarDec with
  | false => rfl
  | true =>
    rw [isRule_eq_false own (by decide)]
    rfl

theorem groups_onlySubroutine {front behind : List Tree} {part : Tree}
    (isSubroutine : part.isRule .subroutineDec = true) :
    (onlySubroutine front part behind).groups .subroutineDec = [part] ∧
      (onlySubroutine front part behind).groups .classVarDec =
        (node .classDec (front ++ part :: behind)).groups .classVarDec := by
  have other : part.isRule .classVarDec = false := isRule_eq_false isSubroutine (by decide)
  simp [onlySubroutine, groups, children, isRule_classVarDec_and, isSubroutine, other]

/-- What is left of a class when its other subroutines, which stand behind its name, are taken
out. -/
theorem isolates_onlySubroutine {keyword : Tree} {name : Token} {front behind : List Tree}
    {part : Tree} (first : keyword.isRule .subroutineDec = false)
    (isSubroutine : part.isRule .subroutineDec = true) :
    Isolates (.node .classDec (keyword :: .leaf name :: front ++ part :: behind)) part
      (onlySubroutine (keyword :: .leaf name :: front) part behind) where
  name := by
    have second : (leaf name).isRule .subroutineDec = false := rfl
    unfold onlySubroutine
    rw [List.filter_cons_of_pos (by rw [first]; rfl), List.filter_cons_of_pos (by rw [second]; rfl)]
    rfl
  declared := (groups_onlySubroutine isSubroutine).2
  subroutines := (groups_onlySubroutine isSubroutine).1

end Tree

/-! ## The code of one subroutine -/

/-- The code of a subroutine in a class with these variables, whatever other subroutines the class
has. -/
def Member.codeAlone (className : String) (classScope : Scope) (tree : Tree) :
    Except CompileError (List Instruction) := do
  let member ← Member.ofTree tree
  let subroutine ← member.subroutine
  (subroutine.code className classScope member.name).result

/-- If the name of a subroutine is new, nothing but its own code is added. -/
theorem Member.codeOfList_new {className : String} {classScope : Scope} {seen : List String}
    {member : Member} {later : List (Except CompileError Member)} (new : member.name ∉ seen) :
    (codeOfList className classScope seen (.ok member :: later)).result = (do
      let subroutine ← member.subroutine
      let first ← (subroutine.code className classScope member.name).result
      let more ← (codeOfList className classScope (member.name :: seen) later).result
      pure (first ++ more)) := by
  rw [codeOfList, Logged.result_bind, Logged.result_liftM]
  show Logged.result (if seen.contains member.name = true then _ else _) = _
  rw [if_neg (by rwa [List.contains_iff_mem])]
  simp only [Logged.result_bind, Logged.result_liftM, Logged.result_pure]
  rfl

/-- The code of subroutines with new and different names is that of each of them. -/
theorem Member.result_codeOfList {className : String} {classScope : Scope} {seen : List String}
    {trees : List Tree} (named : ∀ tree ∈ trees, ∃ name, tree.terminal 2 = .ok name)
    (distinct : (trees.map (·.textAt 2)).Nodup) (unseen : ∀ tree ∈ trees, tree.textAt 2 ∉ seen) :
    (codeOfList className classScope seen (trees.map Member.ofTree)).result =
      List.flatten <$> trees.mapM (codeAlone className classScope) := by
  induction trees generalizing seen with
  | nil => rfl
  | cons tree later ih =>
    rw [List.forall_mem_cons] at named unseen
    rw [List.map_cons, List.nodup_cons] at distinct
    obtain ⟨name, isName⟩ := named.1
    have member : Member.ofTree tree = .ok ⟨tree.textAt 2, Subroutine.ofTree tree⟩ := by
      rw [Member.ofTree, isName, Tree.textAt_eq isName]
      rfl
    have stillNew : ∀ other ∈ later, other.textAt 2 ∉ tree.textAt 2 :: seen := by
      intro other among
      rw [List.mem_cons, not_or]
      refine ⟨?_, unseen.2 other among⟩
      intro same
      exact distinct.1 (List.mem_map.mpr ⟨other, among, same⟩)
    have rest := ih named.2 distinct.2 stillNew
    rw [List.map_cons, member, codeOfList_new unseen.1, rest, List.mapM_cons, codeAlone, member]
    cases Subroutine.ofTree tree with
    | error error => rfl
    | ok subroutine =>
      simp only [bind, Except.bind]
      cases (subroutine.code className classScope (tree.textAt 2)).result with
      | error error => rfl
      | ok first => cases later.mapM (codeAlone className classScope) <;> rfl

/-- The name and the scope of a class. -/
def Class.scopeOfTree (tree : Tree) : Except CompileError (String × Scope) := do
  let name ← Class.nameOfTree tree
  let scope ← (Scope.root name).declareVariables
    ((tree.groups .classVarDec).map Class.variablesOfTree)
  pure (name, scope)

theorem Tree.SameClass.scopeOfTree_eq {tree other : Tree} (same : tree.SameClass other) :
    Class.scopeOfTree other = Class.scopeOfTree tree := by
  rw [Class.scopeOfTree, Class.scopeOfTree, same.name, same.declared]

/-- If the names of its subroutines are different, the code of a class is that of each of them. -/
theorem result_generate {tree : Tree}
    (named : ∀ part ∈ tree.groups .subroutineDec, ∃ name, part.terminal 2 = .ok name)
    (distinct : ((tree.groups .subroutineDec).map (·.textAt 2)).Nodup) :
    (generate tree).result = (do
      let (name, scope) ← Class.scopeOfTree tree
      List.flatten <$> (tree.groups .subroutineDec).mapM (Member.codeAlone name scope)) := by
  have each (name : String) (scope : Scope) := @Member.result_codeOfList name scope [] _ named
    distinct fun _ _ => List.not_mem_nil
  unfold generate Class.code Class.ofTree Class.scopeOfTree
  simp only [Logged.result_bind, Logged.result_liftM, Logged.result_report, Logged.result_pure]
  cases Class.nameOfTree tree with
  | error error => rfl
  | ok name =>
    simp only [bind, Except.bind, pure, Except.pure]
    cases (Scope.root name).declareVariables _ with
    | error error => rfl
    | ok scope =>
      simp only [each]
      cases (tree.groups .subroutineDec).mapM (Member.codeAlone name scope) <;> rfl

/-! ## Classes and their subroutines -/

/-- Blocks end in front of the next header. -/
theorem headless_of_mem_blocks {code : List Instruction} {block : Block}
    (among : block ∈ blocks code) : Headless block.body := by
  induction code with
  | nil => cases among
  | cons instruction later ih =>
    cases instruction with
    | function name locals =>
      rcases List.mem_cons.mp among with rfl | among
      · intro inside listed
        have pass := List.all_eq_true.mp List.all_takeWhile inside listed
        simpa using pass
      · exact ih among
    | _ => exact ih among

theorem Class.nameOfTree_eq_ok {tree : Tree} {name : String}
    (named : Class.nameOfTree tree = .ok name) : name = tree.textAt 1 := by
  have read : Class.ofTree tree = .ok ⟨name, (tree.groups .classVarDec).map Class.variablesOfTree,
      (tree.groups .subroutineDec).map Member.ofTree⟩ := by
    rw [Class.ofTree, named]
    rfl
  exact (Class.mk.injEq .. ▸ Class.ofTree_eq_ok read).1

namespace Tree

variable {tree part alone : Tree}

/-- A subroutine that is alone in its class is all the code there is. -/
theorem Isolates.result_generate (isolated : tree.Isolates part alone)
    (named : ∃ name, part.terminal 2 = .ok name) :
    (generate alone).result = (do
      let (name, scope) ← Class.scopeOfTree tree
      Member.codeAlone name scope part) := by
  have single := @JackCompiler.result_generate alone
  rw [isolated.subroutines, isolated.scopeOfTree_eq] at single
  rw [single (by simpa using named) (List.nodup_singleton _)]
  cases Class.scopeOfTree tree with
  | error error => rfl
  | ok found =>
    simp only [bind, Except.bind, List.mapM_cons, List.mapM_nil]
    cases Member.codeAlone found.1 found.2 part with
    | error error => rfl
    | ok code => simp [pure, Except.pure, Functor.map, Except.map]

/-- The code of a class with one subroutine is one block. -/
theorem Isolates.exists_block (isolated : tree.Isolates part alone) {code : List Instruction}
    (emitted : (generate alone).result = .ok code) :
    ∃ body, Headless body ∧ code =
      (Block.mk s!"{tree.textAt 1}.{part.textAt 2}" part.localNames.length body).code := by
  obtain ⟨whole, -, fields, -, each⟩ := exists_blocks_of_generate emitted
  obtain ⟨definition, read, -⟩ := generate_eq_ok.mp emitted
  obtain ⟨name, named, -⟩ := except_bind_eq_ok.mp read
  have same : alone.textAt 1 = tree.textAt 1 := by
    rw [← Class.nameOfTree_eq_ok named]
    rw [isolated.name] at named
    exact Class.nameOfTree_eq_ok named
  rw [isolated.subroutines, same, List.forall₂_cons_left_iff] at each
  obtain ⟨block, others, ⟨subroutine, arguments, body, own⟩, none, eq⟩ := each
  obtain rfl := List.forall₂_nil_left_iff.mp none
  obtain rfl := own.block_eq
  have headless := headless_of_mem_blocks (eq ▸ List.mem_cons_self)
  rw [eq, List.flatMap_singleton] at whole
  exact ⟨_, headless, whole⟩

end Tree

section Class

variable {tree : Tree} {alones : List Tree}

/-- The code of a class with differently named subroutines is that of the classes in which each of
them is alone, one after the other. -/
theorem generate_eq_flatten_mapM (nonempty : tree.groups .subroutineDec ≠ [])
    (named : ∀ part ∈ tree.groups .subroutineDec, ∃ name, part.terminal 2 = .ok name)
    (distinct : ((tree.groups .subroutineDec).map (·.textAt 2)).Nodup)
    (isolated : List.Forall₂ tree.Isolates (tree.groups .subroutineDec) alones) :
    (generate tree).result = List.flatten <$> alones.mapM fun alone => (generate alone).result := by
  have each : List.Forall₂ (fun part alone => (do
      let (name, scope) ← Class.scopeOfTree tree
      Member.codeAlone name scope part) = (generate alone).result)
      (tree.groups .subroutineDec) alones := by
    rw [List.forall₂_iff_get] at isolated ⊢
    refine ⟨isolated.1, fun i inside inside' => ?_⟩
    exact ((isolated.2 i inside inside').result_generate (named _ (List.get_mem _ _))).symm
  rw [result_generate named distinct, ← mapM_congr_forall₂ each]
  cases Class.scopeOfTree tree with
  | ok found => rfl
  | error error =>
    -- the class has no scope, so its first subroutine has no code either
    obtain ⟨first, later, eq⟩ := List.exists_cons_of_ne_nil nonempty
    rw [eq]
    rfl

/-- A class with a scope has the code of its subroutines in any order. -/
theorem Tree.SameClass.result_generate {other : Tree} {name : String} {scope : Scope}
    {own : Tree → List Instruction} (same : tree.SameClass other)
    (found : Class.scopeOfTree tree = .ok (name, scope))
    (reordered : (other.groups .subroutineDec).Perm (tree.groups .subroutineDec))
    (named : ∀ part ∈ tree.groups .subroutineDec, ∃ name, part.terminal 2 = .ok name)
    (distinct : ((tree.groups .subroutineDec).map (·.textAt 2)).Nodup)
    (code : ∀ part ∈ tree.groups .subroutineDec,
      Member.codeAlone name scope part = .ok (own part)) :
    (generate other).result = .ok ((other.groups .subroutineDec).flatMap own) := by
  have named' : ∀ part ∈ other.groups .subroutineDec, ∃ name, part.terminal 2 = .ok name :=
    fun part among => named part (reordered.mem_iff.mp among)
  have distinct' : ((other.groups .subroutineDec).map (·.textAt 2)).Nodup :=
    (reordered.map (·.textAt 2)).nodup_iff.mpr distinct
  have each : (other.groups .subroutineDec).mapM (Member.codeAlone name scope) =
      .ok ((other.groups .subroutineDec).map own) := by
    rw [mapM_eq_ok_iff_forall₂, List.forall₂_map_right_iff, List.forall₂_same]
    exact fun part among => code part (reordered.mem_iff.mp among)
  rw [JackCompiler.result_generate named' distinct', same.scopeOfTree_eq, found]
  show (List.flatten <$> (other.groups .subroutineDec).mapM (Member.codeAlone name scope) :
    Except CompileError (List Instruction)) = _
  rw [each, List.flatMap_def]
  rfl

/-- If the names of its subroutines are different, a class has code exactly if it has code with each
of them alone, and its code is theirs in order. If one of them has none, the first of those errors
is the error of the class. Each code is a block with the name of the subroutine and the number of
its variables, and no order of the subroutines makes any of them different. -/
theorem subroutines_compile_alone (nonempty : tree.groups .subroutineDec ≠ [])
    (named : ∀ part ∈ tree.groups .subroutineDec, ∃ name, part.terminal 2 = .ok name)
    (distinct : ((tree.groups .subroutineDec).map (·.textAt 2)).Nodup)
    (isolated : List.Forall₂ tree.Isolates (tree.groups .subroutineDec) alones) :
    (∀ code, (generate tree).result = .ok code ↔ ∃ codes : List (List Instruction),
      List.Forall₂ (fun alone own => (generate alone).result = .ok own) alones codes ∧
        code = codes.flatten) ∧
    (∀ before alone after error, alones = before ++ alone :: after →
      (∀ other ∈ before, ∃ code, (generate other).result = .ok code) →
      (generate alone).result = .error error → (generate tree).result = .error error) ∧
    List.Forall₂ (fun part alone => ∀ code, (generate alone).result = .ok code →
      ∃ body, Headless body ∧ code =
        (Block.mk s!"{tree.textAt 1}.{part.textAt 2}" part.localNames.length body).code)
      (tree.groups .subroutineDec) alones ∧
    ∀ code, (generate tree).result = .ok code → ∃ own : Tree → List Instruction,
      List.Forall₂ (fun part alone => (generate alone).result = .ok (own part))
        (tree.groups .subroutineDec) alones ∧
      ∀ other, tree.SameClass other →
        (other.groups .subroutineDec).Perm (tree.groups .subroutineDec) →
        (generate other).result = .ok ((other.groups .subroutineDec).flatMap own) := by
  have whole := generate_eq_flatten_mapM nonempty named distinct isolated
  have blockOf : ∀ part alone, tree.Isolates part alone →
      ∀ code, (generate alone).result = .ok code → ∃ body, Headless body ∧ code =
        (Block.mk s!"{tree.textAt 1}.{part.textAt 2}" part.localNames.length body).code :=
    fun _ _ own _ emitted => own.exists_block emitted
  refine ⟨?_, ?_, isolated.imp blockOf, ?_⟩
  · intro code
    rw [whole, except_map_eq_ok]
    refine exists_congr fun codes => ?_
    rw [mapM_eq_ok_iff_forall₂, eq_comm (a := code)]
  · intro before alone after error eq first fails
    rw [whole, eq, mapM_eq_error first fails]
    rfl
  · intro code emitted
    rw [result_generate named distinct] at emitted
    obtain ⟨⟨name, scope⟩, found, emitted⟩ := except_bind_eq_ok.mp emitted
    obtain ⟨codes, each, -⟩ := except_map_eq_ok.mp emitted
    rw [mapM_eq_ok_iff_forall₂] at each
    -- the code of a part does not depend on where it stands
    let own : Tree → List Instruction := fun part =>
      match Member.codeAlone name scope part with
      | .ok code => code
      | .error _ => []
    have code : ∀ part ∈ tree.groups .subroutineDec,
        Member.codeAlone name scope part = .ok (own part) := by
      intro part among
      obtain ⟨code, -, here⟩ := exists_of_mem_left each among
      simp only [own, here]
    refine ⟨own, ?_, ?_⟩
    · rw [List.forall₂_iff_get] at isolated ⊢
      refine ⟨isolated.1, fun i inside inside' => ?_⟩
      have among := List.get_mem _ ⟨i, inside⟩
      rw [(isolated.2 i inside inside').result_generate (named _ among), found]
      exact code _ among
    · intro other same reordered
      exact same.result_generate found reordered named distinct code

end Class

/-- The subroutine `function void name() { var int a; if (true) { } return; }`. -/
def branchingSubroutine (name : String) : Tree :=
  .node .subroutineDec [.keyword "function" 1, .keyword "void" 1, .identifier name 1,
    .symbol "(" 1, .node .parameterList [], .symbol ")" 1, .node .subroutineBody [.symbol "\x7b" 1,
      .node .varDec [.keyword "var" 1, .keyword "int" 1, .identifier "a" 1, .symbol ";" 1],
      .node .statements [
        .node .ifStatement [.keyword "if" 1, .symbol "(" 1,
          .node .expression [.node .term [.keyword "true" 1]], .symbol ")" 1, .symbol "\x7b" 1,
          .node .statements [], .symbol "\x7d" 1],
        .node .returnStatement [.keyword "return" 1, .symbol ";" 1]],
      .symbol "\x7d" 1]]

def branchingCode (name : String) : List Instruction :=
  [.function s!"A.{name}" 1, .push .constant 0, .operate .not, .operate .not,
    .ifGoto s!"A_{name}_0", .label s!"A_{name}_0", .push .constant 0, .ret]

/-- The parts of the class `A` in front of its subroutines. -/
def branchingFront : List Tree :=
  [.keyword "class" 1, .identifier "A" 1, .symbol "\x7b" 1]

/-- Labels are numbered from the start in each of two subroutines, and so they are if one of them
is alone. -/
theorem subroutines_compile_alone_branchingSubroutine :
    (generate (.node .classDec (branchingFront ++
      [branchingSubroutine "f", branchingSubroutine "g", .symbol "\x7d" 1]))).result =
        .ok (branchingCode "f" ++ branchingCode "g") := by
  let tree : Tree := .node .classDec (branchingFront ++
    [branchingSubroutine "f", branchingSubroutine "g", .symbol "\x7d" 1])
  have isolated : List.Forall₂ tree.Isolates (tree.groups .subroutineDec)
      [Tree.onlySubroutine branchingFront (branchingSubroutine "f")
        [branchingSubroutine "g", .symbol "\x7d" 1],
      Tree.onlySubroutine (branchingFront ++ [branchingSubroutine "f"]) (branchingSubroutine "g")
        [.symbol "\x7d" 1]] :=
    .cons (Tree.isolates_onlySubroutine rfl rfl)
      (.cons (@Tree.isolates_onlySubroutine _ _ [_, branchingSubroutine "f"] _ _ rfl rfl) .nil)
  have law := @subroutines_compile_alone tree _ (List.cons_ne_nil _ _)
    (List.forall_mem_cons.mpr
      ⟨⟨_, rfl⟩, List.forall_mem_cons.mpr ⟨⟨_, rfl⟩, List.forall_mem_nil _⟩⟩)
    (by decide) isolated
  exact (law.1 _).mpr ⟨[branchingCode "f", branchingCode "g"],
    .cons (by rfl) (.cons (by rfl) .nil), rfl⟩

end JackCompiler
