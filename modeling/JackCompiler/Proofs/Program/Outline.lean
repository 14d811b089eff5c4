import JackCompiler.Proofs.Scope.Declaration

/-!
# What a class declares

The names that the parts of a syntax tree declare, read off the tree by position: those of the
variables of a class, of the parameters of a subroutine and of the variables of its body. Whatever
tree a class or a subroutine was read from, be it malformed or not, these are the names that it
declares.
-/

set_option autoImplicit false

namespace JackCompiler

/-- Every second member of a list. -/
def seconds {α : Type} : List α → List α
  | _ :: second :: later => second :: seconds later
  | _ => []

namespace Tree

/-- The text of the token at a position, or nothing where there is no token. -/
def textAt (tree : Tree) (index : Nat) : String :=
  match tree.children[index]? with
  | some (leaf token) => token.text
  | _ => ""

/-- The parts of the part at a position. -/
def partsAt (tree : Tree) (index : Nat) : List Tree :=
  match tree.children[index]? with
  | some part => part.children
  | none => []

/-- The names that a declaration introduces: the identifiers behind its type. -/
def declaredNames (tree : Tree) : List String :=
  (((tree.children.drop 2).filterMap token?).filter (·.kind = .identifier)).map (·.text)

/-- The names of all variables of a class. -/
def classNames (tree : Tree) : List String := (tree.groups .classVarDec).flatMap declaredNames

/-- The names of the variables of a class that are declared as one kind. -/
def classNamesOf (tree : Tree) (kind : VariableKind) : List String :=
  ((tree.groups .classVarDec).filter (·.textAt 0 = kind.name)).flatMap declaredNames

/-- The names of the parameters of a subroutine. The tokens of its list without the commas are types
and names in turn. -/
def parameterNames (subroutine : Tree) : List String :=
  (seconds (((subroutine.partsAt 4).filterMap token?).filter fun token =>
    !token.is .symbol ",")).map (·.text)

/-- The names of the arguments of a subroutine. The first one of a method is its receiver. -/
def argumentNames (subroutine : Tree) : List String :=
  if subroutine.textAt 0 = "method" then "this" :: subroutine.parameterNames
  else subroutine.parameterNames

/-- The names of the variables in the body of a subroutine. -/
def localNames (subroutine : Tree) : List String :=
  ((subroutine.partsAt 6).filter (·.isRule .varDec)).flatMap declaredNames

/-! ## What is read at a position -/

theorem exists_of_terminal_eq_ok {tree : Tree} {index : Nat} {token : Token}
    (found : tree.terminal index = .ok token) : tree.children[index]? = some (.leaf token) := by
  rw [terminal, child, partAt] at found
  cases at_ : tree.children[index]? with
  | none =>
    rw [at_] at found
    cases found
  | some part =>
    rw [at_] at found
    cases part with
    | leaf own =>
      cases found
      rfl
    | node rule children => cases found

theorem textAt_eq {tree : Tree} {index : Nat} {token : Token}
    (found : tree.terminal index = .ok token) : tree.textAt index = token.text := by
  rw [textAt, exists_of_terminal_eq_ok found]

theorem partsAt_eq {tree part : Tree} {index : Nat} {rule : Rule}
    (found : tree.group index rule = .ok part) : tree.partsAt index = part.children := by
  rw [group, child, partAt] at found
  unfold partsAt
  cases at_ : tree.children[index]? with
  | none =>
    rw [at_] at found
    cases found
  | some own =>
    rw [at_] at found
    by_cases isRule : own.isRule rule
    · have same : own = part := by
        simpa [bind, Except.bind, isRule] using found
      rw [same]
    · simp [bind, Except.bind, isRule] at found

end Tree

/-! ## Names of declarations -/

section Declarations

theorem Declaration.names_eq {tree : Tree} {declaration : Declaration}
    (read : Declaration.ofTree tree = .ok declaration) :
    declaration.names = tree.declaredNames := by
  obtain ⟨type, -, eq⟩ := except_bind_eq_ok.mp read
  cases eq
  rfl

theorem VariableKind.ofKeyword_eq_ok {text : String} {kind : VariableKind}
    (read : VariableKind.ofKeyword text = .ok kind) :
    text = kind.name ∧ (kind = .static ∨ kind = .field) := by
  unfold VariableKind.ofKeyword at read
  split at read
  · cases read
    exact ⟨rfl, .inl rfl⟩
  · cases read
    exact ⟨rfl, .inr rfl⟩
  · cases read

theorem VariableKind.name_inj {kind kind' : VariableKind} (same : kind.name = kind'.name) :
    kind = kind' := by
  revert same
  cases kind <;> cases kind' <;> decide

theorem Class.variablesOfTree_eq_ok {tree : Tree} {kind : VariableKind} {declaration : Declaration}
    (read : Class.variablesOfTree tree = .ok (kind, declaration)) :
    (tree.textAt 0 = kind.name ∧ (kind = .static ∨ kind = .field)) ∧
      declaration.names = tree.declaredNames := by
  obtain ⟨keyword, at_, read⟩ := except_bind_eq_ok.mp read
  obtain ⟨own, isKind, read⟩ := except_bind_eq_ok.mp read
  obtain ⟨found, isDeclaration, eq⟩ := except_bind_eq_ok.mp read
  cases eq
  rw [Tree.textAt_eq at_]
  exact ⟨VariableKind.ofKeyword_eq_ok isKind, Declaration.names_eq isDeclaration⟩

/-- The variables of a class have the names that its declarations introduce, in the same order. -/
theorem Class.names_variables {declared : List Tree} {found : List (VariableKind × Declaration)}
    (read : declared.map Class.variablesOfTree = found.map .ok) :
    (found.flatMap fun part => part.2.bindings part.1).map (·.name) =
      declared.flatMap Tree.declaredNames := by
  induction declared generalizing found with
  | nil =>
    rw [List.map_nil, eq_comm, List.map_eq_nil_iff] at read
    rw [read]
    rfl
  | cons tree later ih =>
    rw [List.map_cons, eq_comm, List.map_eq_cons_iff] at read
    obtain ⟨part, others, rfl, first, rest⟩ := read
    have names := (Class.variablesOfTree_eq_ok first.symm).2
    rw [List.flatMap_cons, List.map_append, ih rest.symm, Declaration.map_name_bindings, names,
      List.flatMap_cons]

/-- The variables of a class are static ones and fields. -/
theorem Class.kinds_variables {declared : List Tree} {found : List (VariableKind × Declaration)}
    (read : declared.map Class.variablesOfTree = found.map .ok) :
    ∀ binding ∈ found.flatMap fun part => part.2.bindings part.1,
      binding.kind = .static ∨ binding.kind = .field := by
  intro binding among
  obtain ⟨part, listed, among⟩ := List.mem_flatMap.mp among
  obtain ⟨name, -, rfl⟩ := List.mem_map.mp among
  have result : Except.ok part ∈ declared.map Class.variablesOfTree := by
    rw [read]
    exact List.mem_map_of_mem listed
  obtain ⟨tree, -, own⟩ := List.mem_map.mp result
  exact (Class.variablesOfTree_eq_ok own).1.2

theorem Declaration.namesOf_bindings (kind wanted : VariableKind) (declaration : Declaration) :
    Binding.namesOf wanted (declaration.bindings kind) =
      if kind = wanted then declaration.names else [] := by
  have kinds : ∀ binding ∈ declaration.bindings kind, binding.kind = kind := by
    intro binding among
    obtain ⟨name, -, rfl⟩ := List.mem_map.mp among
    rfl
  by_cases same : kind = wanted
  · rw [if_pos same, ← same, Binding.namesOf_eq_map kinds, map_name_bindings]
  · rw [if_neg same]
    exact Binding.namesOf_eq_nil fun binding among eq => same ((kinds binding among).symm.trans eq)

/-- The variables of one kind have the names that the declarations with its keyword introduce. -/
theorem Class.namesOf_variables {declared : List Tree} {found : List (VariableKind × Declaration)}
    (read : declared.map Class.variablesOfTree = found.map .ok) (kind : VariableKind) :
    Binding.namesOf kind (found.flatMap fun part => part.2.bindings part.1) =
      (declared.filter (·.textAt 0 = kind.name)).flatMap Tree.declaredNames := by
  induction declared generalizing found with
  | nil =>
    rw [List.map_nil, eq_comm, List.map_eq_nil_iff] at read
    rw [read]
    rfl
  | cons tree later ih =>
    rw [List.map_cons, eq_comm, List.map_eq_cons_iff] at read
    obtain ⟨part, others, rfl, first, rest⟩ := read
    obtain ⟨⟨keyword, -⟩, names⟩ := Class.variablesOfTree_eq_ok first.symm
    rw [List.flatMap_cons, Binding.namesOf_append, ih rest.symm, Declaration.namesOf_bindings,
      names, List.filter_cons, keyword]
    by_cases same : part.1 = kind
    · simp [same]
    · have other : part.1.name ≠ kind.name := fun eq => same (VariableKind.name_inj eq)
      simp [same, other]

end Declarations

/-! ## Names of subroutines -/

section Subroutines

theorem SubroutineKind.ofKeyword_eq_ok {text : String} {kind : SubroutineKind}
    (read : SubroutineKind.ofKeyword text = .ok kind) :
    text = "constructor" ∧ kind = .constructor ∨ text = "function" ∧ kind = .function ∨
      text = "method" ∧ kind = .method := by
  unfold SubroutineKind.ofKeyword at read
  split at read
  · cases read
    exact .inl ⟨rfl, rfl⟩
  · cases read
    exact .inr (.inl ⟨rfl, rfl⟩)
  · cases read
    exact .inr (.inr ⟨rfl, rfl⟩)
  · cases read

theorem Parameter.names_ofTokens {tokens : List Token} {found : List Parameter}
    (read : Parameter.ofTokens tokens = found.map .ok) :
    found.map (·.name) = (seconds tokens).map (·.text) := by
  induction tokens using Parameter.ofTokens.induct generalizing found with
  | case1 =>
    rw [Parameter.ofTokens, eq_comm, List.map_eq_nil_iff] at read
    rw [read]
    rfl
  | case2 token =>
    rw [Parameter.ofTokens, eq_comm, List.map_eq_cons_iff] at read
    obtain ⟨parameter, -, -, other, -⟩ := read
    cases other
  | case3 type name rest ih =>
    rw [Parameter.ofTokens, eq_comm, List.map_eq_cons_iff] at read
    obtain ⟨parameter, others, rfl, first, more⟩ := read
    cases first
    rw [List.map_cons, ih more.symm]
    rfl

/-- Whatever tree a subroutine is read from, its kind is that of the keyword, its parameters are
those of the list at position 4 and the parts of its body are those at position 6. -/
theorem Subroutine.ofTree_eq_ok {tree : Tree} {subroutine : Subroutine}
    (read : Subroutine.ofTree tree = .ok subroutine) :
    SubroutineKind.ofKeyword (tree.textAt 0) = .ok subroutine.kind ∧
      subroutine.parameters = Parameter.ofTokens (((tree.partsAt 4).filterMap Tree.token?).filter
        fun token => !token.is .symbol ",") ∧
      subroutine.body = (tree.partsAt 6).filterMap BodyPart.ofTree? := by
  obtain ⟨keyword, at_, read⟩ := except_bind_eq_ok.mp read
  obtain ⟨kind, isKind, read⟩ := except_bind_eq_ok.mp read
  obtain ⟨parameters, four, read⟩ := except_bind_eq_ok.mp read
  obtain ⟨body, six, eq⟩ := except_bind_eq_ok.mp read
  cases eq
  rw [Tree.textAt_eq at_, Tree.partsAt_eq four, Tree.partsAt_eq six]
  exact ⟨isKind, rfl, rfl⟩

theorem Subroutine.names_parameters {tree : Tree} {subroutine : Subroutine}
    {found : List Parameter} (read : Subroutine.ofTree tree = .ok subroutine)
    (parameters : subroutine.parameters = found.map .ok) :
    found.map (·.name) = tree.parameterNames := by
  rw [(Subroutine.ofTree_eq_ok read).2.1] at parameters
  exact Parameter.names_ofTokens parameters

/-- The receiver and the parameters of a subroutine have the names of its arguments. -/
theorem Subroutine.names_arguments {tree : Tree} {subroutine : Subroutine} {className : String}
    {found : List Parameter} (read : Subroutine.ofTree tree = .ok subroutine)
    (parameters : subroutine.parameters = found.map .ok) :
    (subroutine.kind.receiver className ++ found.map Parameter.binding).map (·.name) =
      tree.argumentNames := by
  have names : (found.map Parameter.binding).map (·.name) = tree.parameterNames := by
    rw [List.map_map, ← Subroutine.names_parameters read parameters]
    rfl
  have isKind := (Subroutine.ofTree_eq_ok read).1
  rw [List.map_append, names, Tree.argumentNames]
  rcases SubroutineKind.ofKeyword_eq_ok isKind with
    ⟨keyword, kind⟩ | ⟨keyword, kind⟩ | ⟨keyword, kind⟩
  · rw [keyword, kind]
    rfl
  · rw [keyword, kind]
    rfl
  · rw [keyword, kind]
    rfl

/-- A declaration in a body is a part of it, be it readable or not. -/
theorem BodyPart.ofTree?_varDec (children : List Tree) :
    BodyPart.ofTree? (.node .varDec children) = some
      (match Declaration.ofTree (.node .varDec children) with
      | .ok declaration => .declare declaration
      | .error error => .flaw error) := by
  unfold BodyPart.ofTree?
  show (match Declaration.ofTree (.node .varDec children) with
    | .ok declaration => some (declare declaration)
    | .error error => some (flaw error)) = _
  cases Declaration.ofTree (.node .varDec children) <;> rfl

theorem BodyPart.names_part {tree : Tree}
    (readable : ∀ error, BodyPart.ofTree? tree ≠ some (.flaw error)) :
    ((BodyPart.ofTree? tree).toList.flatMap BodyPart.bindings).map (·.name) =
      if tree.isRule .varDec then tree.declaredNames else [] := by
  cases tree with
  | leaf token => rfl
  | node rule children =>
    cases rule with
    | varDec =>
      rw [BodyPart.ofTree?_varDec] at readable ⊢
      cases read : Declaration.ofTree (.node .varDec children) with
      | error error =>
        rw [read] at readable
        exact absurd rfl (readable error)
      | ok declaration =>
        show (declaration.bindings .localVar ++ []).map Binding.name = _
        rw [List.append_nil, Declaration.map_name_bindings, Declaration.names_eq read]
        rfl
    | statements => rfl
    | _ => exact absurd rfl (readable _)

/-- The parts of a body that could all be read declare the names of its variables. -/
theorem BodyPart.names_body {parts : List Tree}
    (readable : ∀ error, BodyPart.flaw error ∉ parts.filterMap BodyPart.ofTree?) :
    ((parts.filterMap BodyPart.ofTree?).flatMap BodyPart.bindings).map (·.name) =
      (parts.filter (·.isRule .varDec)).flatMap Tree.declaredNames := by
  induction parts with
  | nil => rfl
  | cons part later ih =>
    have cut : (part :: later).filterMap BodyPart.ofTree? =
        (BodyPart.ofTree? part).toList ++ later.filterMap BodyPart.ofTree? := by
      rw [List.filterMap_cons]
      cases BodyPart.ofTree? part <;> rfl
    rw [cut] at readable ⊢
    have first := @BodyPart.names_part part (by
      intro error eq
      exact readable error (by simp [eq]))
    have rest := ih fun error among => readable error (List.mem_append_right _ among)
    rw [List.flatMap_append, List.map_append, first, rest, List.filter_cons]
    by_cases isRule : part.isRule .varDec
    · rw [if_pos isRule, if_pos isRule, List.flatMap_cons]
    · rw [if_neg isRule, if_neg isRule, List.nil_append]

/-- The variables in the body of a subroutine have the names that its declarations introduce. -/
theorem Subroutine.names_locals {tree : Tree} {subroutine : Subroutine}
    (read : Subroutine.ofTree tree = .ok subroutine)
    (readable : ∀ error, BodyPart.flaw error ∉ subroutine.body) :
    (subroutine.body.flatMap BodyPart.bindings).map (·.name) = tree.localNames := by
  rw [(Subroutine.ofTree_eq_ok read).2.2] at readable ⊢
  exact BodyPart.names_body readable

theorem Member.ofTree_eq_ok {tree : Tree} {member : Member}
    (read : Member.ofTree tree = .ok member) :
    member = ⟨tree.textAt 2, Subroutine.ofTree tree⟩ := by
  obtain ⟨name, at_, eq⟩ := except_bind_eq_ok.mp read
  cases eq
  rw [Tree.textAt_eq at_]

theorem Class.ofTree_eq_ok {tree : Tree} {definition : Class}
    (read : Class.ofTree tree = .ok definition) :
    definition = ⟨tree.textAt 1, (tree.groups .classVarDec).map Class.variablesOfTree,
      (tree.groups .subroutineDec).map Member.ofTree⟩ := by
  obtain ⟨name, named, eq⟩ := except_bind_eq_ok.mp read
  obtain ⟨same, expected, named⟩ := except_bind_eq_ok.mp named
  obtain ⟨token, at_, named⟩ := except_bind_eq_ok.mp named
  have whole : tree = same := by
    rw [Tree.expect] at expected
    split at expected
    · exact Except.ok.inj expected
    · cases expected
  cases named
  cases eq
  rw [whole, Tree.textAt_eq at_]

end Subroutines

end JackCompiler
