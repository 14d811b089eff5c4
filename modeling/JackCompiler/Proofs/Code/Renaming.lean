import JackCompiler.Proofs.Code.Diagnosis
import JackCompiler.Proofs.Code.Independence
import JackCompiler.Proofs.Program.Rename

/-!
# Code does not depend on the names of variables

A scope whose variables have other names gives the same answers under the other names, as long as
these keep apart what has to be kept apart (`KeepsApart`): no declared name gets the new name of
another one, and a name that is not declared stays what it is, for it may stand for a variable of
the class or for a class. So code generation gives the same code for a piece of program with other
names in a scope with other names (`Expression.code_rename`, `Statement.code_rename`), the
declarations of a subroutine with other names give its scope with other names
(`Subroutine.code_rename`), and nothing else of a class looks into a subroutine
(`generate_renameVariables`). A name that occurs nowhere is always kept apart
(`Tree.keepsNames_replacing`).
-/

set_option autoImplicit false

namespace JackCompiler

/-- A variable that is to be declared under another name. -/
def Binding.rename (f : String → String) (binding : Binding) : Binding :=
  { binding with name := f binding.name }

/-- A level with its variables under other names. -/
def Level.rename (f : String → String) (level : Level) : Level :=
  { level with entries := level.entries.map fun entry => (f entry.1, entry.2) }

/-- A scope with the variables of its innermost level under other names. -/
def Scope.rename (f : String → String) (scope : Scope) : Scope :=
  { scope with inner := scope.inner.rename f }

/-- The surroundings of a piece of code with the variables of the innermost level under other
names. -/
def Frame.rename (f : String → String) (frame : Frame) : Frame :=
  { frame with scope := frame.scope.rename f }

/-- Whether other names keep a name apart from declared ones: no other one gets its new name, and it
has no new name if it is not declared itself. -/
structure KeepsApart (f : String → String) (declared : List String) (name : String) : Prop where
  apart : ∀ other ∈ declared, f other = f name → other = name
  stays : name ∉ declared → f name = name

/-- Whether other names keep what is mentioned apart from declared names. -/
def Mention.KeptApart (f : String → String) (declared : List String) : Mention → Prop
  | .variable name | .context name => KeepsApart f declared name
  | .text _ | .flaw _ => True

/-! ## Scopes with other names -/

section Scopes

variable {f : String → String} {level : Level} {scope : Scope} {frame : Frame} {name : String}

@[simp] theorem Level.count_rename (kind : VariableKind) :
    (level.rename f).count kind = level.count kind := by
  rw [count, rename, List.countP_map]
  rfl

theorem Level.addAll_rename (bindings : List Binding) :
    (level.addAll bindings).rename f = (level.rename f).addAll (bindings.map (·.rename f)) := by
  induction bindings generalizing level with
  | nil => rfl
  | cons binding later ih =>
    have one : (level.add binding).rename f = (level.rename f).add (binding.rename f) := by
      rw [add, add, count_rename]
      rfl
    rw [List.map_cons]
    show ((level.add binding).addAll later).rename f = ((level.rename f).add _).addAll _
    rw [ih, one]

/-- A level finds the variables under their other names. -/
theorem Level.find?_rename (keeps : KeepsApart f level.allNames name) :
    (level.rename f).find? (f name) = level.find? name := by
  obtain ⟨own, entries, next⟩ := level
  have apart : ∀ entry ∈ entries, f entry.1 = f name → entry.1 = name := by
    intro entry among
    apply keeps.apart
    exact mem_allNames_iff.mpr ⟨entry.2, among⟩
  clear keeps
  show (entries.map fun entry => (f entry.1, entry.2)).lookup (f name) = entries.lookup name
  induction entries with
  | nil => rfl
  | cons entry later ih =>
    obtain ⟨other, declared⟩ := entry
    rw [List.forall_mem_cons] at apart
    have same : (f name == f other) = (name == other) := by
      rw [Bool.eq_iff_iff, beq_iff_eq, beq_iff_eq]
      exact ⟨fun eq => (apart.1 eq.symm).symm, congrArg f⟩
    rw [List.map_cons, List.lookup_cons, List.lookup_cons, same, ih apart.2]

theorem Scope.addAll_rename (bindings : List Binding) :
    (scope.addAll bindings).rename f = (scope.rename f).addAll (bindings.map (·.rename f)) := by
  rw [addAll, rename, Level.addAll_rename]
  rfl

/-- A name that the innermost level does not declare stays, and so does what it stands for further
out. -/
theorem Scope.resolve?_rename (keeps : KeepsApart f scope.inner.allNames name) :
    (scope.rename f).resolve? (f name) = scope.resolve? name := by
  have inner : (scope.rename f).inner.find? (f name) = scope.inner.find? name :=
    Level.find?_rename keeps
  rw [resolve?, resolve?, List.findSome?_cons, List.findSome?_cons, inner]
  cases found : scope.inner.find? name with
  | some declared => rfl
  | none =>
    rw [keeps.stays (Level.find?_eq_none_iff.mp found)]
    rfl

/-- A name that stands for nothing stays. -/
theorem Scope.rename_eq_of_resolve?_eq_none (keeps : KeepsApart f scope.inner.allNames name)
    (absent : scope.resolve? name = none) : f name = name := by
  apply keeps.stays
  rw [resolve?, List.findSome?_cons] at absent
  cases found : scope.inner.find? name with
  | none => exact Level.find?_eq_none_iff.mp found
  | some declared =>
    rw [found] at absent
    cases absent

theorem Frame.slot_rename (keeps : KeepsApart f frame.scope.inner.allNames name) :
    (frame.rename f).slot (f name) = frame.slot name := by
  have same : (frame.rename f).scope.resolve? (f name) = frame.scope.resolve? name :=
    Scope.resolve?_rename keeps
  rw [slot, slot, Scope.require, Scope.require, same]
  cases found : frame.scope.resolve? name with
  | some declared => rfl
  | none =>
    rw [Scope.rename_eq_of_resolve?_eq_none keeps found]
    rfl

end Scopes

/-! ## Expressions and statements with other names -/

namespace Expression

variable {f : String → String} {frame : Frame}

theorem length_renameOfList (list : List Expression) :
    (renameOfList f list).length = list.length := by
  rw [renameOfList_eq_map, List.length_map]

theorem codeOfList_rename {list : List Expression}
    (each : ∀ expression ∈ list,
      (∀ mention ∈ expression.mentions, mention.KeptApart f frame.scope.inner.allNames) →
        (expression.rename f).code (frame.rename f) = expression.code frame)
    (kept : ∀ mention ∈ mentionsOfList list, mention.KeptApart f frame.scope.inner.allNames) :
    codeOfList (frame.rename f) (renameOfList f list) = codeOfList frame list := by
  induction list with
  | nil => rfl
  | cons expression later ih =>
    rw [List.forall_mem_cons] at each
    rw [mentionsOfList, List.forall_mem_append] at kept
    rw [renameOfList, codeOfList, codeOfList, each.1 kept.1, ih each.2 kept.2]

/-- An expression with other names has the same code in a scope with other names. -/
theorem code_rename (expression : Expression)
    (kept : ∀ mention ∈ expression.mentions, mention.KeptApart f frame.scope.inner.allNames) :
    (expression.rename f).code (frame.rename f) = expression.code frame := by
  induction expression with
  | integer value => rfl
  | string value => rfl
  | truth => rfl
  | zero => rfl
  | receiver => rfl
  | flaw error => rfl
  | named name =>
    rw [mentions, List.forall_mem_singleton] at kept
    rw [rename, code, code, Frame.slot_rename kept]
  | element array index ih =>
    rw [mentions, List.forall_mem_cons] at kept
    rw [rename, code, code, Frame.slot_rename kept.1, ih kept.2]
  | unary operator operand ih =>
    rw [mentions, List.forall_mem_append] at kept
    rw [rename, code, code, ih kept.1]
  | binary left operator right ihLeft ihRight =>
    rw [mentions, List.forall_mem_append, List.forall_mem_append] at kept
    rw [rename, code, code, ihLeft kept.1.1, ihRight kept.1.2]
  | call callee arguments ih =>
    rw [mentions, List.forall_mem_append] at kept
    have each := codeOfList_rename ih kept.2
    cases callee with
    | own name =>
      rw [rename, Callee.rename, code, code, each, length_renameOfList]
      rfl
    | qualified context name =>
      have keeps : KeepsApart f frame.scope.inner.allNames context :=
        kept.1 _ (List.mem_singleton_self _)
      have same : (frame.rename f).scope.resolve? (f context) = frame.scope.resolve? context :=
        Scope.resolve?_rename keeps
      rw [rename, Callee.rename, code, code, each, length_renameOfList, same]
      cases found : frame.scope.resolve? context with
      | some object => rfl
      | none =>
        rw [Scope.rename_eq_of_resolve?_eq_none keeps found]

end Expression

namespace Statement

variable {f : String → String} {frame : Frame}

theorem codeOfBlock_rename {block : List Statement}
    (each : ∀ statement ∈ block,
      (∀ mention ∈ statement.mentions, mention.KeptApart f frame.scope.inner.allNames) → ∀ next,
        (statement.rename f).code (frame.rename f) next = statement.code frame next)
    (kept : ∀ mention ∈ mentionsOfBlock block, mention.KeptApart f frame.scope.inner.allNames)
    (next : Nat) :
    codeOfBlock (frame.rename f) next (renameOfBlock f block) = codeOfBlock frame next block := by
  induction block generalizing next with
  | nil => rfl
  | cons statement later ih =>
    rw [List.forall_mem_cons] at each
    rw [mentionsOfBlock, List.forall_mem_append] at kept
    rw [renameOfBlock, codeOfBlock, codeOfBlock, each.1 kept.1]
    simp only [ih each.2 kept.2]

/-- A statement with other names has the same code in a scope with other names. -/
theorem code_rename (statement : Statement)
    (kept : ∀ mention ∈ statement.mentions, mention.KeptApart f frame.scope.inner.allNames)
    (next : Nat) : (statement.rename f).code (frame.rename f) next = statement.code frame next := by
  induction statement generalizing next with
  | flaw error => rfl
  | assign name value =>
    rw [mentions, List.forall_mem_append, List.forall_mem_singleton] at kept
    rw [rename, code, code, Frame.slot_rename kept.2, value.code_rename kept.1]
  | assignElement array index value =>
    rw [mentions, List.forall_mem_cons, List.forall_mem_append] at kept
    rw [rename, code, code, Frame.slot_rename kept.1, index.code_rename kept.2.1,
      value.code_rename kept.2.2]
  | when condition block ih =>
    rw [mentions, List.forall_mem_append] at kept
    have inner := codeOfBlock_rename ih kept.2
    rw [rename, code, code, condition.code_rename kept.1]
    simp only [inner]
    rfl
  | choose condition yes no ihYes ihNo =>
    rw [mentions, List.forall_mem_append, List.forall_mem_append] at kept
    have first := codeOfBlock_rename ihYes kept.1.2
    have second := codeOfBlock_rename ihNo kept.2
    rw [rename, code, code, condition.code_rename kept.1.1]
    simp only [first, second]
    rfl
  | loop condition block ih =>
    rw [mentions, List.forall_mem_append] at kept
    have inner := codeOfBlock_rename ih kept.2
    rw [rename, code, code, condition.code_rename kept.1]
    simp only [inner]
    rfl
  | perform call => rw [rename, code, code, call.code_rename kept]
  | leave value =>
    cases value with
    | none => rfl
    | some value =>
      rw [rename, Option.map_some, code, code, value.code_rename kept]

end Statement

/-! ## Subroutines with other names -/

/-- Declarations change neither the name of a scope nor its labels. -/
theorem Scope.declareEach_keeps {scope scope' : Scope} {bindings : List Binding}
    (declared : scope.declareEach bindings = .ok scope') :
    scope'.qualifiedName = scope.qualifiedName ∧
      scope'.inner.nextLabel = scope.inner.nextLabel := by
  rw [eq_addAll_of_declareEach declared]
  exact ⟨qualifiedName_addAll bindings, (Level.addAll_name_nextLabel bindings).2⟩

namespace Subroutine

variable {className name : String} {classScope : Scope} {subroutine : Subroutine}
  {found : List Parameter} {declarations : List Declaration} {block : List Statement}
  {code : List Instruction}

/-- The code of a subroutine that could be read is that of its block, once its arguments and its
variables are declared. -/
theorem code_eq_ok_of_regular (parameters : subroutine.parameters = found.map .ok)
    (body : subroutine.body = declarations.map .declare ++ [.statements block]) :
    (subroutine.code className classScope name).result = .ok code ↔
      ∃ scope, (Scope.child name classScope).declareEach (subroutine.kind.receiver className ++
          found.map Parameter.binding ++ declarations.flatMap (·.bindings .localVar)) = .ok scope ∧
      ∃ first free, (Statement.codeOfBlock ⟨className, subroutine.kind, scope⟩ 0 block).result =
          .ok (first, free) ∧
        code = .function scope.qualifiedName (scope.count .localVar) ::
          prologue (classScope.count .field) subroutine.kind ++ first := by
  have labels {outer : Scope} (arguments : (Scope.child name classScope).declareEach
      (subroutine.kind.receiver className ++ found.map Parameter.binding) = .ok outer) :
      outer.inner.nextLabel = 0 :=
    (Scope.declareEach_keeps arguments).2
  rw [code_eq_ok, scope_eq parameters, body, Scope.declareEach_append _ (List.flatMap _ _)]
  constructor
  · rintro ⟨outer, arguments, first, scope, bodyCode, rfl⟩
    obtain ⟨locals, free, blockCode⟩ := BodyPart.codeOfList_declarations.mp bodyCode
    rw [labels arguments] at blockCode
    refine ⟨scope, except_bind_eq_ok.mpr ⟨outer, arguments, locals⟩, first, free, blockCode, ?_⟩
    rw [(Scope.declareEach_keeps locals).1]
  · rintro ⟨scope, declared, first, free, blockCode, rfl⟩
    obtain ⟨outer, arguments, locals⟩ := except_bind_eq_ok.mp declared
    rw [← labels arguments] at blockCode
    have bodyCode := (@BodyPart.codeOfList_declarations _ _ ⟨className, subroutine.kind, outer⟩ _ _
      _).mpr ⟨locals, free, blockCode⟩
    refine ⟨outer, arguments, first, scope, bodyCode, ?_⟩
    rw [(Scope.declareEach_keeps locals).1]

/-- Declarations of other names declare the variables, with other names. -/
theorem flatMap_bindings_rename (f : String → String) (declarations : List Declaration) :
    (declarations.map (·.rename f)).flatMap (·.bindings .localVar) =
      (declarations.flatMap (·.bindings .localVar)).map (·.rename f) := by
  rw [List.flatMap_map, List.map_flatMap]
  refine List.flatMap_congr fun declaration _ => ?_
  simp only [Declaration.bindings, Declaration.rename, List.map_map]
  rfl

theorem parameters_rename (f : String → String)
    (parameters : subroutine.parameters = found.map .ok) :
    (subroutine.rename f).parameters = (found.map (·.rename f)).map .ok := by
  rw [rename, parameters, List.map_map, List.map_map]
  rfl

theorem body_rename (f : String → String)
    (body : subroutine.body = declarations.map .declare ++ [.statements block]) :
    (subroutine.rename f).body = (declarations.map (·.rename f)).map .declare ++
      [.statements (Statement.renameOfBlock f block)] := by
  rw [rename, body, List.map_append, List.map_map, List.map_map]
  rfl

/-- The variables of a subroutine with other names are its variables, with other names, if the
receiver keeps its name. -/
theorem map_rename_bindings {f : String → String} {kind : SubroutineKind}
    (receiver : kind = .method → f "this" = "this") :
    kind.receiver className ++ (found.map (·.rename f)).map Parameter.binding ++
        (declarations.map (·.rename f)).flatMap (·.bindings .localVar) =
      (kind.receiver className ++ found.map Parameter.binding ++
        declarations.flatMap (·.bindings .localVar)).map (·.rename f) := by
  have first : kind.receiver className = (kind.receiver className).map (·.rename f) := by
    cases kind with
    | constructor => rfl
    | function => rfl
    | method =>
      show _ = [Binding.mk (f "this") className .argument]
      rw [receiver rfl]
      rfl
  have parameters : (found.map (·.rename f)).map Parameter.binding =
      (found.map Parameter.binding).map (·.rename f) := by
    rw [List.map_map, List.map_map]
    rfl
  rw [List.map_append, List.map_append, ← first, parameters, flatMap_bindings_rename]

/-- A subroutine with other names has the same code if these keep apart its own variables and what
it mentions. -/
theorem code_rename {f : String → String} (parameters : subroutine.parameters = found.map .ok)
    (body : subroutine.body = declarations.map .declare ++ [.statements block])
    {names : List String} (own : (subroutine.kind.receiver className ++
      found.map Parameter.binding ++ declarations.flatMap (·.bindings .localVar)).map (·.name) =
        names)
    (receiver : subroutine.kind = .method → f "this" = "this")
    (declared : ∀ name ∈ names, KeepsApart f names name)
    (mentioned : ∀ mention ∈ Statement.mentionsOfBlock block, mention.KeptApart f names)
    (emitted : (subroutine.code className classScope name).result = .ok code) :
    ((subroutine.rename f).code className classScope name).result = .ok code := by
  obtain ⟨scope, accepted, first, free, blockCode, rfl⟩ :=
    (code_eq_ok_of_regular parameters body).mp emitted
  apply (code_eq_ok_of_regular (parameters_rename f parameters) (body_rename f body)).mpr
  have renamed := @map_rename_bindings className found declarations f subroutine.kind receiver
  generalize subroutine.kind.receiver className ++ found.map Parameter.binding ++
    declarations.flatMap (·.bindings .localVar) = bindings at *
  have fresh : (Scope.child name classScope).inner.allNames.Nodup := List.nodup_nil
  obtain ⟨distinct, rfl⟩ := (Scope.declareEach_eq_ok fresh).mp accepted
  have allNames : ((Scope.child name classScope).addAll bindings).inner.allNames = names :=
    (Level.allNames_addAll bindings).trans own
  refine ⟨((Scope.child name classScope).addAll bindings).rename f, ?_, first, free, ?_, ?_⟩
  · have names' : (bindings.map (·.rename f)).map (·.name) = names.map f := by
      rw [← own, List.map_map, List.map_map]
      rfl
    have distinct' : (names.map f).Nodup := by
      apply List.Nodup.map_on
      · exact fun a here b there same => (declared b there).apart a here same
      · rw [← own]
        exact distinct
    show (Scope.child name classScope).declareEach
      (subroutine.kind.receiver className ++ _ ++ _) = _
    rw [renamed, Scope.declareEach_eq_ok fresh, Scope.addAll_rename, names']
    exact ⟨distinct', rfl⟩
  · let frame : Frame :=
      ⟨className, subroutine.kind, (Scope.child name classScope).addAll bindings⟩
    rw [← allNames] at mentioned
    have same : Statement.codeOfBlock (frame.rename f) 0 (Statement.renameOfBlock f block) =
        Statement.codeOfBlock frame 0 block :=
      Statement.codeOfBlock_rename (fun statement _ => statement.code_rename) mentioned 0
    exact (congrArg Logged.result same).trans blockCode
  · have counted : (((Scope.child name classScope).addAll bindings).rename f).count .localVar =
        ((Scope.child name classScope).addAll bindings).count .localVar :=
      Level.count_rename .localVar
    rw [counted]
    rfl

end Subroutine

/-! ## Classes with other names -/

namespace Tree

variable {f : String → String} {part : Tree} {before behind : List Tree}

/-- The names that a subroutine declares, that of its receiver included. -/
def ownNames (part : Tree) : List String := part.argumentNames ++ part.localNames

/-- Whether other names keep apart what a subroutine declares and mentions. The receiver of a method
cannot have another name. -/
structure KeepsNames (f : String → String) (part : Tree) : Prop where
  receiver : part.textAt 0 = "method" → f "this" = "this"
  declared : ∀ name ∈ part.ownNames, KeepsApart f part.ownNames name
  mentioned : ∀ mention ∈ part.mentions, mention.KeptApart f part.ownNames

/-- A subroutine with other names that are kept apart has the same code. -/
theorem KeepsNames.codeAlone_eq_ok (keeps : part.KeepsNames f) (derives : part.Derivation)
    (isRule : part.rule? = some .subroutineDec) {className : String} {scope : Scope}
    {code : List Instruction} (emitted : Member.codeAlone className scope part = .ok code) :
    Member.codeAlone className scope (part.renameVariables f) = .ok code := by
  obtain ⟨member, isMember, emitted⟩ := except_bind_eq_ok.mp emitted
  obtain rfl := Member.ofTree_eq_ok isMember
  obtain ⟨subroutine, read, emitted⟩ := except_bind_eq_ok.mp emitted
  have read : Subroutine.ofTree part = .ok subroutine := read
  obtain ⟨⟨found, parameters⟩, declarations, block, body, mentions, -⟩ :=
    derives.regular isRule read
  have readable : ∀ error, BodyPart.flaw error ∉ subroutine.body := by
    rw [body]
    simp
  have arguments := @Subroutine.names_arguments part subroutine className found read parameters
  have locals := Subroutine.names_locals read readable
  rw [body, BodyPart.flatMap_bindings] at locals
  have own : (subroutine.kind.receiver className ++ found.map Parameter.binding ++
      declarations.flatMap (·.bindings .localVar)).map (·.name) = part.ownNames := by
    rw [List.map_append, arguments, locals]
    rfl
  have receiver : subroutine.kind = .method → f "this" = "this" := by
    intro isMethod
    have isKind := (Subroutine.ofTree_eq_ok read).1
    rcases SubroutineKind.ofKeyword_eq_ok isKind with ⟨-, kind⟩ | ⟨-, kind⟩ | ⟨keyword, -⟩
    · rw [kind] at isMethod
      cases isMethod
    · rw [kind] at isMethod
      cases isMethod
    · exact keeps.receiver keyword
  have mentioned := keeps.mentioned
  rw [← mentions] at mentioned
  have code := Subroutine.code_rename parameters body own receiver keeps.declared mentioned emitted
  rw [Member.codeAlone, derives.ofTree_renameVariables isRule, read]
  exact code

/-- A subroutine with other names declares the other names. -/
theorem Derivation.names_renameVariables (f : String → String) (derives : part.Derivation)
    (isRule : part.rule? = some .subroutineDec) :
    (part.renameVariables f).parameterNames = part.parameterNames.map f ∧
      (part.renameVariables f).localNames = part.localNames.map f := by
  obtain ⟨subroutine, member, ⟨found, parameters⟩, declarations, block, body, -, -⟩ :=
    derives.exists_regular isRule
  have read : Subroutine.ofTree part = .ok subroutine :=
    (Member.mk.inj (Member.ofTree_eq_ok member)).2.symm
  have member' := derives.ofTree_renameVariables (f := f) isRule
  rw [read] at member'
  have read' : Subroutine.ofTree (part.renameVariables f) = .ok (subroutine.rename f) :=
    (Member.mk.inj (Member.ofTree_eq_ok member')).2.symm
  have parameters' := Subroutine.parameters_rename f parameters
  have body' := Subroutine.body_rename f body
  constructor
  · rw [← Subroutine.names_parameters read parameters,
      ← Subroutine.names_parameters read' parameters', List.map_map, List.map_map]
    rfl
  · rw [← Subroutine.names_locals read (by simp [body]),
      ← Subroutine.names_locals read' (by simp [body']), body, body',
      BodyPart.flatMap_bindings, BodyPart.flatMap_bindings, Subroutine.flatMap_bindings_rename,
      List.map_map, List.map_map]
    rfl

/-- A class stays the same but for its subroutines if one of these has other names. -/
theorem sameClass_renameVariables (isRule : part.rule? = some .subroutineDec) :
    SameClass (.node .classDec (before ++ part :: behind))
      (.node .classDec (before ++ part.renameVariables f :: behind)) where
  name := by
    -- the name of the class is a token, which the subroutine is not
    cases part with
    | leaf token => cases isRule
    | node rule children =>
      rcases before with _ | ⟨first, _ | ⟨second, before⟩⟩ <;> rfl
  declared := by
    have noDeclaration : part.isRule .classVarDec = false := by simp [Tree.isRule, isRule]
    have noDeclaration' : (part.renameVariables f).isRule .classVarDec = false := by
      simp [Tree.isRule, isRule]
    simp [groups, children, noDeclaration, noDeclaration']

theorem groups_subroutineDec_of_isRule (isRule : part.rule? = some .subroutineDec) :
    (node .classDec (before ++ part :: behind)).groups .subroutineDec =
      before.filter (·.isRule .subroutineDec) ++
        part :: behind.filter (·.isRule .subroutineDec) := by
  have isPart : part.isRule .subroutineDec = true := by simp [Tree.isRule, isRule]
  simp [groups, children, isPart]

/-- A subroutine of a derivation tree has a name, and keeps it if its variables have other names. -/
theorem Derivation.name_renameVariables (derives : part.Derivation)
    (isRule : part.rule? = some .subroutineDec) :
    (∃ name, part.terminal 2 = .ok name) ∧
      (∃ name, (part.renameVariables f).terminal 2 = .ok name) ∧
      (part.renameVariables f).textAt 2 = part.textAt 2 := by
  obtain ⟨subroutine, read, -⟩ := derives.exists_regular isRule
  obtain ⟨name, named, -⟩ := except_bind_eq_ok.mp read
  have renamed := derives.ofTree_renameVariables (f := f) isRule
  obtain ⟨name', named', -⟩ := except_bind_eq_ok.mp renamed
  exact ⟨⟨name, named⟩, ⟨name', named'⟩, (Member.mk.inj (Member.ofTree_eq_ok renamed)).1.symm⟩

end Tree

/-- A class has the same code if one of its subroutines has other names that are kept apart. -/
theorem generate_renameVariables {f : String → String} {part : Tree} {before behind : List Tree}
    {code : List Instruction}
    (derives : (Tree.node .classDec (before ++ part :: behind)).Derivation)
    (isRule : part.rule? = some .subroutineDec) (keeps : part.KeepsNames f)
    (emitted : (generate (.node .classDec (before ++ part :: behind))).result = .ok code) :
    (generate (.node .classDec (before ++ part.renameVariables f :: behind))).result =
      .ok code := by
  have isRule' : (part.renameVariables f).rule? = some .subroutineDec :=
    (Tree.rule?_renameVariables part).trans isRule
  have same := @Tree.sameClass_renameVariables f part before behind isRule
  have subroutines := @Tree.groups_subroutineDec_of_isRule part before behind isRule
  have subroutines' := @Tree.groups_subroutineDec_of_isRule _ before behind isRule'
  have derive : ∀ other ∈ before.filter (·.isRule .subroutineDec) ++
      part :: behind.filter (·.isRule .subroutineDec),
      other.rule? = some .subroutineDec ∧ other.Derivation := by
    rw [← subroutines]
    exact fun other => derives.of_mem_groups rfl
  generalize before.filter (·.isRule .subroutineDec) = front at *
  generalize behind.filter (·.isRule .subroutineDec) = rest at *
  have derives := (derive part (by simp)).2
  obtain ⟨-, name', text'⟩ := derives.name_renameVariables (f := f) isRule
  -- both classes name their subroutines alike
  have named : ∀ other ∈ front ++ part :: rest, ∃ name, other.terminal 2 = .ok name :=
    fun other among => ((derive other among).2.name_renameVariables (f := f)
      (derive other among).1).1
  have named' : ∀ other ∈ front ++ part.renameVariables f :: rest,
      ∃ name, other.terminal 2 = .ok name := by
    rw [List.forall_mem_append, List.forall_mem_cons] at named ⊢
    exact ⟨named.1, name', named.2.2⟩
  obtain ⟨-, distinct, -⟩ := exists_blocks_of_generate emitted
  rw [subroutines] at distinct
  have distinct' : ((front ++ part.renameVariables f :: rest).map (·.textAt 2)).Nodup := by
    rw [List.map_append, List.map_cons] at distinct ⊢
    rw [text']
    exact distinct
  rw [← subroutines] at named distinct
  rw [← subroutines'] at named' distinct'
  rw [result_generate named distinct, subroutines] at emitted
  obtain ⟨⟨className, scope⟩, found, emitted⟩ := except_bind_eq_ok.mp emitted
  rw [result_generate named' distinct', same.scopeOfTree_eq, found, subroutines', ← emitted]
  -- and in both of them each subroutine has the same code
  obtain ⟨codes, each, -⟩ := except_map_eq_ok.mp emitted
  obtain ⟨own, -, code⟩ := exists_of_mem_left (mapM_eq_ok_iff_forall₂.mp each)
    (List.mem_append_right front List.mem_cons_self)
  have code' := keeps.codeAlone_eq_ok derives isRule code
  refine congrArg (List.flatten <$> ·) (mapM_congr_forall₂ ?_)
  refine List.rel_append (List.forall₂_refl _) (.cons ?_ (List.forall₂_refl _))
  rw [code, code']

/-! ## One name in place of another -/

/-- One name in place of another one. -/
def replacing (old new : String) (name : String) : String := if name = old then new else name

/-- A name that occurs nowhere can take the place of a declared one. -/
theorem keepsApart_replacing {old new name : String} {declared : List String}
    (isDeclared : old ∈ declared) (unused : new ∉ declared) (other : name ≠ new) :
    KeepsApart (replacing old new) declared name where
  apart := by
    intro rival among same
    have notNew : rival ≠ new := by
      rintro rfl
      exact unused among
    unfold replacing at same
    split_ifs at same with isOld isOld' isOld'
    · rw [isOld, isOld']
    · exact absurd same.symm other
    · exact absurd same notNew
    · exact same
  stays := by
    intro absent
    apply if_neg
    rintro rfl
    exact absent isDeclared

namespace Tree

variable {part : Tree} {old new : String}

/-- A name that occurs nowhere in a subroutine can take the place of a parameter or a variable. -/
theorem keepsNames_replacing (derives : part.Derivation) (isRule : part.rule? = some .subroutineDec)
    (distinct : part.ownNames.Nodup)
    (declared : old ∈ part.parameterNames ∨ old ∈ part.localNames) (noReceiver : new ≠ "this")
    (fresh : ∀ token ∈ part.tokens, token.text ≠ new) :
    part.KeepsNames (replacing old new) := by
  have absent {name : String} (has : part.HasIdentifier name) : name ≠ new := by
    obtain ⟨token, inside, -, rfl⟩ := has
    exact fresh token inside
  have isDeclared : old ∈ part.ownNames := by
    rcases declared with among | among
    · exact List.mem_append_left _ (parameterNames_sublist.subset among)
    · exact List.mem_append_right _ among
  have unused : new ∉ part.ownNames := by
    intro among
    rcases List.mem_append.mp among with among | among
    · rcases mem_argumentNames among with isReceiver | among
      · exact noReceiver isReceiver
      · exact absent (derives.hasIdentifier_of_mem_parameterNames isRule among) rfl
    · exact absent (hasIdentifier_of_mem_localNames among) rfl
  refine ⟨?_, ?_, ?_⟩
  · intro isMethod
    apply if_neg
    rintro rfl
    rw [ownNames, argumentNames, if_pos isMethod, List.cons_append, List.nodup_cons] at distinct
    exact distinct.1 (List.mem_append.mpr declared)
  · intro name among
    apply keepsApart_replacing isDeclared unused
    rintro rfl
    exact unused among
  · intro mention among
    obtain ⟨token, inside, own | ⟨-, rfl | rfl⟩⟩ := exists_token_of_mem_mentions among
    · rcases Token.mem_mentions own with ⟨-, rfl⟩ | ⟨-, -, rfl⟩
      · trivial
      · trivial
    · exact keepsApart_replacing isDeclared unused (fresh token inside)
    · exact keepsApart_replacing isDeclared unused (fresh token inside)

end Tree

/-- The names of parameters and variables do not matter: a name that occurs nowhere in a class that
has code may take the place of a parameter or a variable of one of its subroutines, where that is
declared and wherever it is mentioned, and the class has the same code. What else goes by the old
name, be it a variable of the class, a subroutine or a class, keeps it. -/
theorem renamed_variable_same_code {tokens : List Token} {tree part : Tree}
    {before behind : List Tree} {code : List Instruction} {old new : String}
    (parsed : (parseTokens tokens).result = .ok tree)
    (emitted : (generate tree).result = .ok code)
    (parts : tree.children = before ++ part :: behind)
    (isRule : part.rule? = some .subroutineDec)
    (declared : old ∈ part.parameterNames ∨ old ∈ part.localNames) (noReceiver : new ≠ "this")
    (fresh : ∀ token ∈ tree.tokens, token.text ≠ new) :
    let renamed := part.renameVariables (replacing old new)
    renamed.parameterNames = part.parameterNames.map (replacing old new) ∧
      renamed.localNames = part.localNames.map (replacing old new) ∧
      renamed.mentions = part.mentions.map (·.rename (replacing old new)) ∧
      (generate (.node .classDec (before ++ renamed :: behind))).result = .ok code := by
  obtain ⟨isClass, derives, -⟩ := derivation_of_parseTokens parsed
  cases tree with
  | leaf token => cases isClass
  | node rule children =>
    cases isClass
    obtain rfl : children = _ := parts
    have subroutines := @Tree.groups_subroutineDec_of_isRule part before behind isRule
    have among : part ∈ (Tree.node .classDec (before ++ part :: behind)).groups .subroutineDec := by
      rw [subroutines]
      exact List.mem_append_right _ List.mem_cons_self
    have derive := (derives.of_mem_groups rfl among).2
    obtain ⟨-, -, fields, -, each⟩ := exists_blocks_of_generate emitted
    obtain ⟨block, -, subroutine, arguments, body, own⟩ := exists_of_mem_left each among
    have keeps : part.KeepsNames (replacing old new) := by
      apply Tree.keepsNames_replacing derive isRule own.distinct declared noReceiver
      intro token inside
      exact fresh token (Tree.mem_tokens_node.mpr ⟨part, by simp, inside⟩)
    obtain ⟨parameters, locals⟩ := derive.names_renameVariables (replacing old new) isRule
    exact ⟨parameters, locals, Tree.mentions_renameVariables part,
      generate_renameVariables derives isRule keeps emitted⟩

section OneName

/-- A method `x` with a parameter of class `x`: `let p = p[0]; let p[0] = x(p); do p.x(); return p;`
where the parameter is `p`. -/
def oneNameMethod (parameter : String) : Tree :=
  let own := Tree.node .expression [.node .term [.identifier parameter 3]]
  let zero := Tree.node .expression [.node .term [.leaf ⟨.integerConstant, "0", 3⟩]]
  .node .subroutineDec [.keyword "method" 3, .identifier "x" 3, .identifier "x" 3, .symbol "(" 3,
    .node .parameterList [.identifier "x" 3, .identifier parameter 3], .symbol ")" 3,
    .node .subroutineBody [.symbol "\x7b" 3, .node .statements
      [.node .letStatement [.keyword "let" 3, .identifier parameter 3, .symbol "=" 3,
          .node .expression [.node .term [.identifier parameter 3, .symbol "[" 3, zero,
            .symbol "]" 3]], .symbol ";" 3],
        .node .letStatement [.keyword "let" 3, .identifier parameter 3, .symbol "[" 3, zero,
          .symbol "]" 3, .symbol "=" 3, .node .expression [.node .term [.node .subroutineCall
            [.identifier "x" 3, .symbol "(" 3, .node .expressionList [own], .symbol ")" 3]]],
          .symbol ";" 3],
        .node .doStatement [.keyword "do" 3, .node .subroutineCall [.identifier parameter 3,
          .symbol "." 3, .identifier "x" 3, .symbol "(" 3, .node .expressionList [],
          .symbol ")" 3], .symbol ";" 3],
        .node .returnStatement [.keyword "return" 3, own, .symbol ";" 3]],
      .symbol "\x7d" 3]]

/-- The class `x` with the field `x` and the method. -/
def oneNameClass (parameter : String) : Tree :=
  .node .classDec ([.keyword "class" 1, .identifier "x" 1, .symbol "\x7b" 1,
    .node .classVarDec [.keyword "field" 2, .identifier "x" 2, .identifier "x" 2,
      .symbol ";" 2]] ++ oneNameMethod parameter :: [.symbol "\x7d" 4])

def oneNameCode : List Instruction :=
  [.function "x.x" 0, .push .argument 0, .pop .pointer 0,
    .push .argument 1, .push .constant 0, .operate .add, .pop .pointer 1, .push .that 0,
    .pop .argument 1,
    .push .argument 1, .push .constant 0, .operate .add, .push .pointer 0, .push .argument 1,
    .call "x.x" 2, .pop .temp 0, .pop .pointer 1, .push .temp 0, .pop .that 0,
    .push .argument 1, .call "x.x" 1, .pop .temp 7, .push .argument 1, .ret]

/-- A parameter may go by the name of its class, of a field and of its own method, or by a name of
its own. -/
theorem renamed_variable_same_code_oneName :
    (parseTokens (oneNameClass "x").tokens).result = .ok (oneNameClass "x") ∧
      (generate (oneNameClass "x")).result = .ok oneNameCode ∧
      (oneNameMethod "x").renameVariables (replacing "x" "y") = oneNameMethod "y" ∧
      (generate (oneNameClass "y")).result = .ok oneNameCode := by
  have parsed : (parseTokens (oneNameClass "x").tokens).result = .ok (oneNameClass "x") := by
    decide +kernel
  have emitted : (generate (oneNameClass "x")).result = .ok oneNameCode := by decide +kernel
  have renamed : (oneNameMethod "x").renameVariables (replacing "x" "y") = oneNameMethod "y" := rfl
  have declared : "x" ∈ (oneNameMethod "x").parameterNames := by decide
  have fresh : ∀ token ∈ (oneNameClass "x").tokens, token.text ≠ "y" := by decide
  obtain ⟨-, -, -, emitted'⟩ := renamed_variable_same_code parsed emitted rfl rfl (.inl declared)
    (by decide) fresh
  rw [renamed] at emitted'
  exact ⟨parsed, emitted, renamed, emitted'⟩

end OneName

end JackCompiler
