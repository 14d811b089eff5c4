import JackCompiler.Code.Class
import JackCompiler.Proofs.Outcome
import JackCompiler.Proofs.Scope.Numbering

/-!
# Declarations one after the other

The variables of a class, the parameters of a subroutine and the variables of its body are all
declared one after the other (`Scope.declareEach`). This succeeds exactly if no name is repeated,
and then it adds the variables in order. Otherwise the error names the scope and a repeated name.
-/

set_option autoImplicit false

namespace JackCompiler

namespace Scope

/-- Declares variables in order. -/
def declareEach (scope : Scope) : List Binding → Except CompileError Scope
  | [] => .ok scope
  | binding :: later => do
    let (_, scope) ← scope.declare binding.name binding.type binding.kind
    declareEach scope later

/-- A scope with further variables at its innermost level. -/
def addAll (scope : Scope) (bindings : List Binding) : Scope :=
  { scope with inner := scope.inner.addAll bindings }

variable {scope scope' : Scope} {binding : Binding} {bindings later : List Binding}

theorem addAll_addAll (first second : List Binding) :
    (scope.addAll first).addAll second = scope.addAll (first ++ second) := by
  simp only [addAll, Level.addAll, List.foldl_append]

@[simp] theorem qualifiedName_addAll (bindings : List Binding) :
    (scope.addAll bindings).qualifiedName = scope.qualifiedName := by
  simp only [qualifiedName, addAll, (Level.addAll_name_nextLabel bindings).1]

@[simp] theorem label_addAll (bindings : List Binding) (number : Nat) :
    (scope.addAll bindings).label number = scope.label number := by
  simp only [label, addAll, (Level.addAll_name_nextLabel bindings).1]

/-- A new name is declared with the next number of its kind. -/
theorem declareEach_cons_of_new (new : binding.name ∉ scope.inner.allNames) :
    scope.declareEach (binding :: later) = (scope.addAll [binding]).declareEach later := by
  rw [declareEach, declare, Level.find?_eq_none_iff.mpr new]
  rfl

/-- A name that the innermost level has already is refused. -/
theorem declareEach_cons_of_old (old : binding.name ∈ scope.inner.allNames) :
    scope.declareEach (binding :: later) =
      .error (.duplicateDeclaration scope.qualifiedName binding.name) := by
  rw [declareEach, declare]
  cases found : scope.inner.find? binding.name with
  | none => exact absurd old (Level.find?_eq_none_iff.mp found)
  | some declared => rfl

theorem declareEach_append (first second : List Binding) :
    scope.declareEach (first ++ second) =
      scope.declareEach first >>= fun scope => scope.declareEach second := by
  induction first generalizing scope with
  | nil => rfl
  | cons binding later ih =>
    by_cases old : binding.name ∈ scope.inner.allNames
    · rw [List.cons_append, declareEach_cons_of_old old, declareEach_cons_of_old old]
      rfl
    · rw [List.cons_append, declareEach_cons_of_new old, declareEach_cons_of_new old, ih]

/-- Declarations that succeed add their variables in order. -/
theorem eq_addAll_of_declareEach (declared : scope.declareEach bindings = .ok scope') :
    scope' = scope.addAll bindings := by
  induction bindings generalizing scope with
  | nil =>
    cases declared
    rfl
  | cons binding later ih =>
    by_cases old : binding.name ∈ scope.inner.allNames
    · rw [declareEach_cons_of_old old] at declared
      cases declared
    · rw [declareEach_cons_of_new old] at declared
      rw [ih declared, addAll_addAll, List.singleton_append]

/-- Variables can be declared exactly if no name is repeated, and then they are added in order. -/
theorem declareEach_eq_ok (distinct : scope.inner.allNames.Nodup) :
    scope.declareEach bindings = .ok scope' ↔
      (scope.inner.allNames ++ bindings.map (·.name)).Nodup ∧ scope' = scope.addAll bindings := by
  induction bindings generalizing scope with
  | nil =>
    rw [declareEach, List.map_nil, List.append_nil, Except.ok.injEq, eq_comm]
    exact ⟨fun same => ⟨distinct, same⟩, fun h => h.2⟩
  | cons binding later ih =>
    have split : scope.inner.allNames ++ (binding :: later).map (·.name) =
        (scope.addAll [binding]).inner.allNames ++ later.map (·.name) := by
      show _ = (scope.inner.addAll [binding]).allNames ++ _
      rw [Level.allNames_addAll, List.append_assoc]
      rfl
    by_cases old : binding.name ∈ scope.inner.allNames
    · rw [declareEach_cons_of_old old]
      constructor
      · intro h
        cases h
      · rintro ⟨nodup, -⟩
        exact absurd List.mem_cons_self (List.disjoint_of_nodup_append nodup old)
    · rw [declareEach_cons_of_new old, split, ← List.singleton_append, ← addAll_addAll]
      apply ih
      show (scope.inner.addAll [binding]).allNames.Nodup
      rw [Level.allNames_addAll]
      exact distinct.append (List.nodup_singleton _) (by simpa using old)

/-- The error of a declaration names the scope and a repeated name. -/
theorem repeated_of_declareEach_eq_error {error : CompileError}
    (refused : scope.declareEach bindings = .error error) :
    ∃ name, error = .duplicateDeclaration scope.qualifiedName name ∧
      2 ≤ (scope.inner.allNames ++ bindings.map (·.name)).count name := by
  induction bindings generalizing scope with
  | nil => cases refused
  | cons binding later ih =>
    by_cases old : binding.name ∈ scope.inner.allNames
    · rw [declareEach_cons_of_old old] at refused
      cases refused
      refine ⟨binding.name, rfl, ?_⟩
      have before := List.count_pos_iff.mpr old
      rw [List.count_append, List.map_cons, List.count_cons_self]
      omega
    · rw [declareEach_cons_of_new old] at refused
      obtain ⟨name, rfl, twice⟩ := ih refused
      refine ⟨name, by rw [qualifiedName_addAll], ?_⟩
      have names : (scope.addAll [binding]).inner.allNames =
          scope.inner.allNames ++ [binding.name] :=
        Level.allNames_addAll [binding]
      rw [names, List.append_assoc] at twice
      exact twice

end Scope

/-! ## What is declared where -/

/-- The names of a declaration, as variables of a kind. -/
def Declaration.bindings (kind : VariableKind) (declaration : Declaration) : List Binding :=
  declaration.names.map fun name => ⟨name, declaration.type, kind⟩

/-- A parameter as a variable. -/
def Parameter.binding (parameter : Parameter) : Binding :=
  ⟨parameter.name, parameter.type, .argument⟩

/-- The receiver of a method as a variable; other subroutines have none. -/
def SubroutineKind.receiver (className : String) : SubroutineKind → List Binding
  | .constructor | .function => []
  | .method => [⟨"this", className, .argument⟩]

/-- The variables that a part of a body declares. -/
def BodyPart.bindings : BodyPart → List Binding
  | declare declaration => declaration.bindings .localVar
  | statements _ | flaw _ => []

/-- A body of declarations and a block declares what the declarations do. -/
theorem BodyPart.flatMap_bindings (declarations : List Declaration) (block : List Statement) :
    (declarations.map declare ++ [statements block]).flatMap bindings =
      declarations.flatMap (·.bindings .localVar) := by
  rw [List.flatMap_append, List.flatMap_map]
  exact List.append_nil _

theorem Declaration.map_name_bindings (kind : VariableKind) (declaration : Declaration) :
    (declaration.bindings kind).map (·.name) = declaration.names := by
  rw [bindings, List.map_map]
  exact List.map_id' _

namespace Scope

variable {scope scope' : Scope}

theorem declareAll_eq (kind : VariableKind) (declaration : Declaration) :
    scope.declareAll declaration.type kind declaration.names =
      scope.declareEach (declaration.bindings kind) := by
  obtain ⟨type, names⟩ := declaration
  induction names generalizing scope with
  | nil => rfl
  | cons name later ih =>
    show (scope.declare name type kind >>= fun next => next.2.declareAll type kind later) =
      (scope.declare name type kind >>= fun next =>
        next.2.declareEach ((⟨type, later⟩ : Declaration).bindings kind))
    cases scope.declare name type kind with
    | error error => rfl
    | ok next => exact ih

/-- The variables of a class are declared if all of their declarations could be read. -/
theorem declareVariables_map_ok (found : List (VariableKind × Declaration)) :
    scope.declareVariables (found.map .ok) =
      scope.declareEach (found.flatMap fun part => part.2.bindings part.1) := by
  induction found generalizing scope with
  | nil => rfl
  | cons part later ih =>
    rw [List.flatMap_cons, declareEach_append, ← declareAll_eq]
    show (scope.declareAll _ _ _ >>= fun next => next.declareVariables (later.map .ok)) = _
    cases scope.declareAll part.2.type part.1 part.2.names with
    | error error => rfl
    | ok next => exact ih

theorem exists_of_declareVariables_eq_ok
    {declarations : List (Except CompileError (VariableKind × Declaration))}
    (declared : scope.declareVariables declarations = .ok scope') :
    ∃ found : List (VariableKind × Declaration), declarations = found.map .ok := by
  induction declarations generalizing scope with
  | nil => exact ⟨[], rfl⟩
  | cons part later ih =>
    rw [declareVariables] at declared
    obtain ⟨first, rfl, rest⟩ := except_bind_eq_ok.mp declared
    obtain ⟨next, -, rest⟩ := except_bind_eq_ok.mp rest
    obtain ⟨found, rfl⟩ := ih rest
    exact ⟨first :: found, rfl⟩

/-- Parameters are declared if all of them could be read. -/
theorem declareParameters_map_ok (found : List Parameter) :
    scope.declareParameters (found.map .ok) = scope.declareEach (found.map Parameter.binding) := by
  induction found generalizing scope with
  | nil => rfl
  | cons parameter later ih =>
    show (scope.declare parameter.name parameter.type .argument >>= fun next =>
        next.2.declareParameters (later.map .ok)) =
      (scope.declare parameter.name parameter.type .argument >>= fun next =>
        next.2.declareEach (later.map Parameter.binding))
    cases scope.declare parameter.name parameter.type .argument with
    | error error => rfl
    | ok next => exact ih

theorem exists_of_declareParameters_eq_ok {parameters : List (Except CompileError Parameter)}
    (declared : scope.declareParameters parameters = .ok scope') :
    ∃ found : List Parameter, parameters = found.map .ok := by
  induction parameters generalizing scope with
  | nil => exact ⟨[], rfl⟩
  | cons parameter later ih =>
    rw [declareParameters] at declared
    obtain ⟨first, rfl, rest⟩ := except_bind_eq_ok.mp declared
    obtain ⟨next, -, rest⟩ := except_bind_eq_ok.mp rest
    obtain ⟨found, rfl⟩ := ih rest
    exact ⟨first :: found, rfl⟩

end Scope

namespace Subroutine

variable {className name : String} {classScope scope : Scope} {subroutine : Subroutine}

/-- A subroutine declares its receiver, if it has one, and then its parameters. -/
theorem scope_eq {found : List Parameter} (parameters : subroutine.parameters = found.map .ok) :
    subroutine.scope className classScope name = (Scope.child name classScope).declareEach
      (subroutine.kind.receiver className ++ found.map Parameter.binding) := by
  rw [Subroutine.scope, parameters]
  cases subroutine.kind with
  | method =>
    rw [if_pos rfl]
    show (_ >>= fun next : Variable × Scope => next.2.declareParameters (found.map .ok)) = _
    simp only [Scope.declareParameters_map_ok]
    rfl
  | constructor => exact Scope.declareParameters_map_ok found
  | function => exact Scope.declareParameters_map_ok found

theorem exists_of_scope_eq_ok (declared : subroutine.scope className classScope name = .ok scope) :
    ∃ found : List Parameter, subroutine.parameters = found.map .ok := by
  rw [Subroutine.scope] at declared
  by_cases method : subroutine.kind = .method
  · rw [if_pos method] at declared
    obtain ⟨next, -, rest⟩ := except_bind_eq_ok.mp declared
    exact Scope.exists_of_declareParameters_eq_ok rest
  · rw [if_neg method] at declared
    exact Scope.exists_of_declareParameters_eq_ok declared

end Subroutine

end JackCompiler
