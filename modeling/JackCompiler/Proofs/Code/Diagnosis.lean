import JackCompiler.Proofs.Code.Reach
import JackCompiler.Proofs.Token.Cut

/-!
# Why a class is refused

A class that the parser returned has code exactly if it is well declared: no two declarations of a
level have the same name, every variable that is mentioned is declared, and the machine can hold
every string constant. Otherwise the error is a fault that the class really has. The main result is
`generate_ok_iff_wellDeclared`.
-/

set_option autoImplicit false

namespace JackCompiler

namespace Tree

/-- The names of the subroutines of a class. -/
def subroutineNames (tree : Tree) : List String := (tree.groups .subroutineDec).map (·.textAt 2)

/-- The names that a subroutine of a class can use for variables. -/
def visibleNames (tree sub : Tree) : List String :=
  sub.parameterNames ++ sub.localNames ++ tree.classNames

/-- Whether the names of a class are declared as they should be, and its string constants are short
and made of characters that a machine word can hold. -/
structure WellDeclared (tree : Tree) : Prop where
  classNames : tree.classNames.Nodup
  subroutineNames : tree.subroutineNames.Nodup
  ownNames : ∀ sub ∈ tree.groups .subroutineDec, (sub.parameterNames ++ sub.localNames).Nodup
  declared : ∀ sub ∈ tree.groups .subroutineDec, ∀ name, .variable name ∈ sub.mentions →
    name ∈ tree.visibleNames sub
  strings : ∀ token ∈ tree.tokens, token.kind = .stringConstant →
    token.stringValue.length ≤ 65535 ∧ ∀ c ∈ token.stringValue.toList, c.toNat ≤ 0xFFFF

/-- The faults that a class can have, and how they are reported: a name that is declared twice with
the class or the subroutine where it is, a variable that is not declared with the subroutine that
mentions it, and a string constant that the machine cannot hold. -/
inductive Fault (tree : Tree) : CompileError → Prop
  | repeatedVariable {name : String} (twice : 2 ≤ tree.classNames.count name) :
      Fault tree (.duplicateDeclaration (tree.textAt 1) name)
  | repeatedSubroutine {name : String} (twice : 2 ≤ tree.subroutineNames.count name) :
      Fault tree (.duplicateDeclaration (tree.textAt 1) name)
  | repeatedOwn {sub : Tree} {name : String} (among : sub ∈ tree.groups .subroutineDec)
      (twice : 2 ≤ (sub.parameterNames ++ sub.localNames).count name) :
      Fault tree (.duplicateDeclaration s!"{tree.textAt 1}.{sub.textAt 2}" name)
  | undeclared {sub : Tree} {name : String} (among : sub ∈ tree.groups .subroutineDec)
      (mentioned : .variable name ∈ sub.mentions) (absent : name ∉ tree.visibleNames sub) :
      Fault tree (.undeclaredVariable s!"{tree.textAt 1}.{sub.textAt 2}" name)
  | longString {token : Token} (inside : token ∈ tree.tokens)
      (isString : token.kind = .stringConstant) (long : 65535 < token.stringValue.length) :
      Fault tree (.malformed (.rule .term) .stringTooLong)
  | wideCharacter {token : Token} {c : Char} (inside : token ∈ tree.tokens)
      (isString : token.kind = .stringConstant) (among : c ∈ token.stringValue.toList)
      (wide : 0xFFFF < c.toNat) :
      Fault tree (.malformed (.rule .term) (.unsupportedCharacter c))

/-- A class with a fault is not well declared. -/
theorem Fault.not_wellDeclared {tree : Tree} {error : CompileError} (fault : tree.Fault error) :
    ¬ tree.WellDeclared := by
  intro well
  cases fault with
  | @repeatedVariable name twice =>
    have once := List.nodup_iff_count_le_one.mp well.classNames name
    omega
  | @repeatedSubroutine name twice =>
    have once := List.nodup_iff_count_le_one.mp well.subroutineNames name
    omega
  | @repeatedOwn sub name among twice =>
    have once := List.nodup_iff_count_le_one.mp (well.ownNames sub among) name
    omega
  | @undeclared sub name among mentioned absent =>
    exact absent (well.declared sub among name mentioned)
  | @longString token inside isString long =>
    have short := (well.strings token inside isString).1
    omega
  | @wideCharacter token c inside isString among wide =>
    have small := (well.strings token inside isString).2 c among
    omega

/-! ## The tokens of a subroutine -/

theorem mem_tokens_of_mem_groups {tree sub : Tree} {rule : Rule} (among : sub ∈ tree.groups rule)
    {token : Token} (inside : token ∈ sub.tokens) : token ∈ tree.tokens := by
  obtain ⟨listed, -⟩ := List.mem_filter.mp among
  cases tree with
  | leaf own => cases listed
  | node own children => exact mem_tokens_node.mpr ⟨sub, listed, inside⟩

section Tokens

variable {sub : Tree} {name : String}

/-- The receiver has a name that no identifier has. -/
theorem HasIdentifier.ne_this (areTokens : ∀ token ∈ sub.tokens, token.WellFormed)
    (has : sub.HasIdentifier name) : name ≠ "this" := by
  rintro rfl
  obtain ⟨token, inside, isIdentifier, text⟩ := has
  have unreserved := (areTokens token inside).unreserved isIdentifier
  rw [text] at unreserved
  exact unreserved (by decide)

/-- A variable that is mentioned is an identifier. -/
theorem hasIdentifier_of_mentioned (mentioned : .variable name ∈ sub.mentions) :
    sub.HasIdentifier name := by
  obtain ⟨token, inside, own | ⟨isIdentifier, same | same⟩⟩ :=
    exists_token_of_mem_mentions mentioned
  · rcases Token.mem_mentions own with ⟨-, other⟩ | ⟨-, -, other⟩ <;> cases other
  · cases same
    exact ⟨token, inside, isIdentifier, rfl⟩
  · cases same

/-- A text that is mentioned is a string constant. -/
theorem exists_string_of_mentioned {value : String} (mentioned : .text value ∈ sub.mentions) :
    ∃ token ∈ sub.tokens, token.kind = .stringConstant ∧ token.stringValue = value := by
  obtain ⟨token, inside, own | ⟨-, same | same⟩⟩ := exists_token_of_mem_mentions mentioned
  · rcases Token.mem_mentions own with ⟨isString, same⟩ | ⟨-, -, other⟩
    · cases same
      exact ⟨token, inside, isString, rfl⟩
    · cases other
  · cases same
  · cases same

/-- Well-formed tokens have no integer constant that is no number. -/
theorem flaw_notMem_mentions (areTokens : ∀ token ∈ sub.tokens, token.WellFormed)
    (error : CompileError) : .flaw error ∉ sub.mentions := by
  intro mentioned
  obtain ⟨token, inside, own | ⟨-, same | same⟩⟩ := exists_token_of_mem_mentions mentioned
  · rcases Token.mem_mentions own with ⟨-, other⟩ | ⟨isInteger, noValue, -⟩
    · cases other
    · have value := (areTokens token inside).wordValue isInteger
      rw [noValue] at value
      cases value
  · cases same
  · cases same

end Tokens

end Tree

/-! ## Subroutines -/

/-- Whether a subroutine has code is decided by its declarations and then by what it mentions. -/
theorem Subroutine.verdict_code {className name : String} {classScope : Scope}
    {subroutine : Subroutine} {found : List Parameter} {declarations : List Declaration}
    {block : List Statement} (parameters : subroutine.parameters = found.map .ok)
    (body : subroutine.body = declarations.map .declare ++ [.statements block]) :
    (subroutine.code className classScope name).verdict =
      (Scope.child name classScope).declareEach (subroutine.kind.receiver className ++
        found.map Parameter.binding ++ declarations.flatMap (·.bindings .localVar)) >>= fun scope =>
          Mention.checkEach scope (Statement.mentionsOfBlock block) := by
  rw [Subroutine.code, Logged.verdict_bind, Logged.result_liftM, scope_eq parameters, body,
    Scope.declareEach_append (subroutine.kind.receiver className ++ _), bind_assoc]
  congr 1
  funext scope
  rw [← BodyPart.verdict_codeOfList declarations block ⟨className, subroutine.kind, scope⟩
    scope.inner.nextLabel]
  exact Logged.verdict_bind_of_ok fun _ => rfl

/-- A name is not found in a subroutine if it is none of its own and none of those of its class. -/
theorem resolve?_subroutineScope_eq_none_iff {className name wanted : String}
    {fields bindings : List Binding} :
    (subroutineScope className fields name bindings).resolve? wanted = none ↔
      wanted ∉ bindings.map (·.name) ∧ wanted ∉ fields.map (·.name) := by
  have names : (classScope className fields).inner.allNames = fields.map (·.name) :=
    Level.allNames_addAll fields
  rw [resolve?_subroutineScope, Option.or_eq_none_iff, Level.find?_eq_none_iff,
    Level.find?_eq_none_iff, allNames_subroutineScope, names]

namespace Tree

section Subroutine

variable {tree sub : Tree} {fields : List Binding} {subroutine : Subroutine} {error : CompileError}

theorem parameterNames_sublist : sub.parameterNames.Sublist sub.argumentNames := by
  rw [argumentNames]
  split
  · exact List.sublist_cons_self _ _
  · exact .refl _

/-- The receiver is the only argument that is no parameter. -/
theorem mem_argumentNames {name : String} (among : name ∈ sub.argumentNames) :
    name = "this" ∨ name ∈ sub.parameterNames := by
  rw [argumentNames] at among
  split at among
  · exact List.mem_cons.mp among
  · exact .inr among

/-- The receiver of a method makes no difference to which names are repeated. -/
theorem count_ownNames (derives : sub.Derivation) (isRule : sub.rule? = some .subroutineDec)
    (areTokens : ∀ token ∈ sub.tokens, token.WellFormed) {name : String}
    (twice : 2 ≤ (sub.argumentNames ++ sub.localNames).count name) :
    2 ≤ (sub.parameterNames ++ sub.localNames).count name := by
  have noParameter : "this" ∉ sub.parameterNames := fun among =>
    (derives.hasIdentifier_of_mem_parameterNames isRule among).ne_this areTokens rfl
  have noLocal : "this" ∉ sub.localNames := fun among =>
    (hasIdentifier_of_mem_localNames among).ne_this areTokens rfl
  rw [argumentNames] at twice
  by_cases method : sub.textAt 0 = "method"
  · rw [if_pos method, List.cons_append, List.count_cons] at twice
    by_cases same : "this" = name
    · -- No identifier has the name of the receiver, so this name cannot be there twice.
      have never : (sub.parameterNames ++ sub.localNames).count "this" = 0 := by
        rw [List.count_eq_zero, List.mem_append, not_or]
        exact ⟨noParameter, noLocal⟩
      rw [← same] at twice
      simp [never] at twice
    · simpa [same] using twice
  · rw [if_neg method] at twice
    exact twice

/-- What the scope of a whole subroutine refuses about one of its mentions is a fault of the class. -/
theorem fault_of_refused {bindings : List Binding} {mention : Mention}
    (among : sub ∈ tree.groups .subroutineDec)
    (areTokens : ∀ token ∈ sub.tokens, token.WellFormed)
    (names : fields.map (·.name) = tree.classNames)
    (ownNames : bindings.map (·.name) = sub.argumentNames ++ sub.localNames)
    (mentioned : mention ∈ sub.mentions)
    (refused : Mention.Refused (subroutineScope (tree.textAt 1) fields (sub.textAt 2) bindings)
      mention error) : tree.Fault error := by
  cases refused with
  | @undeclared name absent =>
    obtain ⟨notOwn, notOfClass⟩ := resolve?_subroutineScope_eq_none_iff.mp absent
    rw [ownNames, List.mem_append, not_or] at notOwn
    rw [names] at notOfClass
    have invisible : name ∉ tree.visibleNames sub := by
      rw [visibleNames, List.mem_append, List.mem_append]
      rintro ((isParameter | isLocal) | ofClass)
      · exact notOwn.1 (parameterNames_sublist.subset isParameter)
      · exact notOwn.2 isLocal
      · exact notOfClass ofClass
    rw [qualifiedName_subroutineScope]
    exact .undeclared among mentioned invisible
  | longString long =>
    obtain ⟨token, inside, isString, rfl⟩ := exists_string_of_mentioned mentioned
    exact .longString (mem_tokens_of_mem_groups among inside) isString long
  | wideCharacter listed wide =>
    obtain ⟨token, inside, isString, rfl⟩ := exists_string_of_mentioned mentioned
    exact .wideCharacter (mem_tokens_of_mem_groups among inside) isString listed wide
  | flaw error => exact absurd mentioned (flaw_notMem_mentions areTokens error)

/-- If a subroutine that the parser read has no code, the error is a fault of its class. -/
theorem fault_of_code_eq_error (among : sub ∈ tree.groups .subroutineDec)
    (derives : sub.Derivation) (isRule : sub.rule? = some .subroutineDec)
    (areTokens : ∀ token ∈ sub.tokens, token.WellFormed)
    (read : Subroutine.ofTree sub = .ok subroutine) (names : fields.map (·.name) = tree.classNames)
    (failed : (subroutine.code (tree.textAt 1) (classScope (tree.textAt 1) fields)
      (sub.textAt 2)).result = .error error) : tree.Fault error := by
  obtain ⟨⟨found, parameters⟩, declarations, block, body, mentions, -⟩ :=
    derives.regular isRule read
  have ownNames : (subroutine.kind.receiver (tree.textAt 1) ++ found.map Parameter.binding ++
      declarations.flatMap (·.bindings .localVar)).map (·.name) =
        sub.argumentNames ++ sub.localNames := by
    have readable : ∀ error, BodyPart.flaw error ∉ subroutine.body := by simp [body]
    have localNames := Subroutine.names_locals read readable
    rw [body, BodyPart.flatMap_bindings] at localNames
    rw [List.map_append, Subroutine.names_arguments read parameters, localNames]
  -- The declarations come first, then whatever is mentioned.
  have verdict := Logged.verdict_eq_error_iff.mpr failed
  rw [Subroutine.verdict_code parameters body, mentions] at verdict
  rcases except_bind_eq_error.mp verdict with repeated | ⟨scope, declared, refused⟩
  · obtain ⟨name, rfl, twice⟩ := Scope.repeated_of_declareEach_eq_error repeated
    rw [ownNames] at twice
    have named : (Scope.child (sub.textAt 2) (classScope (tree.textAt 1) fields)).qualifiedName =
        s!"{tree.textAt 1}.{sub.textAt 2}" :=
      qualifiedName_subroutineScope (tree.textAt 1) fields (sub.textAt 2) []
    rw [named]
    exact .repeatedOwn among (count_ownNames derives isRule areTokens twice)
  · obtain ⟨mention, mentioned, refused⟩ := Mention.exists_of_checkEach_eq_error refused
    rw [Scope.eq_addAll_of_declareEach declared] at refused
    exact fault_of_refused among areTokens names ownNames mentioned
      (Mention.refused_of_check_eq_error refused)

end Subroutine

end Tree

/-! ## Classes -/

/-- If the subroutines of a class have no code, either one of them has none or a name is
repeated. -/
theorem Member.exists_of_codeOfList_eq_error {className : String} {classScope : Scope}
    {seen : List String} {trees : List Tree} {error : CompileError}
    (readable : ∀ tree ∈ trees, ∃ subroutine,
      Member.ofTree tree = .ok ⟨tree.textAt 2, .ok subroutine⟩)
    (failed : (codeOfList className classScope seen (trees.map Member.ofTree)).result =
      .error error) :
    (∃ name, error = .duplicateDeclaration className name ∧
      2 ≤ (seen ++ trees.map (·.textAt 2)).count name) ∨
    ∃ tree ∈ trees, ∃ subroutine, Subroutine.ofTree tree = .ok subroutine ∧
      (subroutine.code className classScope (tree.textAt 2)).result = .error error := by
  induction trees generalizing seen with
  | nil => cases failed
  | cons tree later ih =>
    rw [List.forall_mem_cons] at readable
    obtain ⟨⟨subroutine, member⟩, others⟩ := readable
    have read : Subroutine.ofTree tree = .ok subroutine :=
      ((Member.mk.injEq ..).mp (Member.ofTree_eq_ok member)).2.symm
    rw [List.map_cons, codeOfList, member] at failed
    replace failed := (Logged.result_bind_eq_error.mp failed).resolve_left (by simp)
    obtain ⟨found, same, failed⟩ := failed
    obtain rfl : found = ⟨tree.textAt 2, .ok subroutine⟩ := (Except.ok.inj same).symm
    by_cases old : tree.textAt 2 ∈ seen
    · rw [if_pos (List.contains_iff_mem.mpr old)] at failed
      refine .inl ⟨tree.textAt 2, (Except.error.inj failed).symm, ?_⟩
      have before := List.count_pos_iff.mpr old
      rw [List.count_append, List.map_cons, List.count_cons_self]
      omega
    · rw [if_neg (mt List.contains_iff_mem.mp old)] at failed
      replace failed := (Logged.result_bind_eq_error.mp failed).resolve_left (by simp)
      obtain ⟨whole, same, failed⟩ := failed
      obtain rfl : whole = subroutine := (Except.ok.inj same).symm
      rcases Logged.result_bind_eq_error.mp failed with here | ⟨first, -, failed⟩
      · exact .inr ⟨tree, List.mem_cons_self, whole, read, here⟩
      · rcases Logged.result_bind_eq_error.mp failed with there | ⟨more, -, failed⟩
        · rcases ih others there with ⟨name, eq, twice⟩ | ⟨other, among, inside⟩
          · refine .inl ⟨name, eq, ?_⟩
            rw [List.map_cons, List.perm_middle.count_eq]
            exact twice
          · exact .inr ⟨other, List.mem_cons_of_mem tree among, inside⟩
        · cases failed

namespace Tree

section Class

variable {tree : Tree}

/-- If a class that the parser read has no code, the error is a fault of it. -/
theorem fault_of_generate_eq_error {error : CompileError} (derives : tree.Derivation)
    (isRule : tree.rule? = some .classDec) (areTokens : ∀ token ∈ tree.tokens, token.WellFormed)
    (failed : (generate tree).result = .error error) : tree.Fault error := by
  obtain ⟨definition, read⟩ := derives.exists_class isRule
  obtain ⟨found, readable⟩ := exists_map_eq_map_ok fun part among =>
    (derives.of_mem_groups isRule among).2.exists_variables (derives.of_mem_groups isRule among).1
  have names := Class.names_variables readable
  rw [generate, read] at failed
  replace failed := (Logged.result_bind_eq_error.mp failed).resolve_left (by simp)
  obtain ⟨own, same, failed⟩ := failed
  obtain rfl : own = definition := (Except.ok.inj same).symm
  obtain rfl := Class.ofTree_eq_ok read
  rcases Logged.result_bind_eq_error.mp failed with refused | ⟨scope, declared, failed⟩
  · rw [Logged.result_liftM, readable, Scope.declareVariables_map_ok] at refused
    obtain ⟨name, rfl, twice⟩ := Scope.repeated_of_declareEach_eq_error refused
    have twice : 2 ≤ ((found.flatMap fun part => part.2.bindings part.1).map (·.name)).count name :=
      twice
    rw [names] at twice
    exact .repeatedVariable twice
  · rw [Logged.result_liftM, readable, Scope.declareVariables_map_ok] at declared
    obtain rfl := Scope.eq_addAll_of_declareEach declared
    rcases Logged.result_bind_eq_error.mp failed with refused | ⟨code, -, failed⟩
    · have members : ∀ sub ∈ tree.groups .subroutineDec, ∃ subroutine,
          Member.ofTree sub = .ok ⟨sub.textAt 2, .ok subroutine⟩ := by
        intro sub among
        obtain ⟨isSubroutine, derives⟩ := derives.of_mem_groups isRule among
        obtain ⟨subroutine, member, -⟩ := derives.exists_regular isSubroutine
        exact ⟨subroutine, member⟩
      rcases Member.exists_of_codeOfList_eq_error members refused with
        ⟨name, rfl, twice⟩ | ⟨sub, among, subroutine, readSub, refused⟩
      · exact .repeatedSubroutine twice
      · obtain ⟨isSubroutine, derives⟩ := derives.of_mem_groups isRule among
        exact fault_of_code_eq_error among derives isSubroutine
          (fun token inside => areTokens token (mem_tokens_of_mem_groups among inside)) readSub
          names refused
    · cases failed

/-- A class that has code is well declared. -/
theorem wellDeclared_of_generate_eq_ok {code : List Instruction} (derives : tree.Derivation)
    (isRule : tree.rule? = some .classDec) (areTokens : ∀ token ∈ tree.tokens, token.WellFormed)
    (emitted : (generate tree).result = .ok code) : tree.WellDeclared := by
  obtain ⟨-, different, fields, declares, each⟩ := exists_blocks_of_generate emitted
  have members (sub : Tree) (among : sub ∈ tree.groups .subroutineDec) :
      ∃ block subroutine arguments body,
        Emitted (tree.textAt 1) fields sub block subroutine arguments body ∧
          subroutine.Regular sub ∧ ∀ token ∈ sub.tokens, token.WellFormed := by
    obtain ⟨block, -, subroutine, arguments, body, own⟩ := exists_of_mem_left each among
    obtain ⟨isSubroutine, derives⟩ := derives.of_mem_groups isRule among
    exact ⟨block, subroutine, arguments, body, own, derives.regular isSubroutine own.read,
      fun token inside => areTokens token (mem_tokens_of_mem_groups among inside)⟩
  constructor
  case classNames => exact declares.distinct
  case subroutineNames => exact different
  case ownNames =>
    intro sub among
    obtain ⟨block, subroutine, arguments, body, own, -, -⟩ := members sub among
    exact own.distinct.sublist (parameterNames_sublist.append (.refl _))
  case declared =>
    intro sub among name mentioned
    obtain ⟨block, subroutine, arguments, body, own, regular, areTokens⟩ := members sub among
    obtain ⟨declared, found⟩ := Mention.check_variable_eq_ok_iff.mp
      (own.check_eq_ok regular _ mentioned)
    have notThis := (hasIdentifier_of_mentioned mentioned).ne_this areTokens
    have listed : name ∈ sub.argumentNames ++ sub.localNames ∨ name ∈ tree.classNames := by
      by_contra absent
      rw [← own.argumentNames, ← own.localNames, ← List.map_append, ← declares.names, not_or]
        at absent
      rw [resolve?_subroutineScope_eq_none_iff.mpr absent] at found
      cases found
    rw [visibleNames, List.mem_append, List.mem_append]
    rcases listed with ofOwn | ofClass
    · rcases List.mem_append.mp ofOwn with isArgument | isLocal
      · exact .inl (.inl ((mem_argumentNames isArgument).resolve_left notThis))
      · exact .inl (.inr isLocal)
    · exact .inr ofClass
  case strings =>
    intro token inside isString
    obtain ⟨sub, among, inside⟩ := derives.exists_subroutine_of_string isRule inside isString
    obtain ⟨block, subroutine, arguments, body, own, regular, -⟩ := members sub among
    have mentioned : .text token.stringValue ∈ sub.mentions := by
      apply mem_mentions_of_token inside
      rw [Token.mentions, isString]
      exact List.mem_singleton_self _
    exact Mention.check_text_eq_ok_iff.mp (own.check_eq_ok regular _ mentioned)

end Class

end Tree

/-- A class that the parser returned has code exactly if it is well declared, and otherwise the
error is one of its faults. -/
theorem generate_ok_iff_wellDeclared (source : String) (tree : Tree)
    (parsed : (parse source).result = .ok tree) :
    ((∃ code, (generate tree).result = .ok code) ↔ tree.WellDeclared) ∧
      ∀ error, (generate tree).result = .error error → tree.Fault error := by
  obtain ⟨tokens, tokenized, parsed⟩ := exists_tokens_of_parse parsed
  obtain ⟨isRule, derives, same⟩ := derivation_of_parseTokens parsed
  have areTokens : ∀ token ∈ tree.tokens, token.WellFormed := by
    rw [same]
    exact wellFormed_of_tokenize tokenized
  have fault (error : CompileError) (failed : (generate tree).result = .error error) :
      tree.Fault error := Tree.fault_of_generate_eq_error derives isRule areTokens failed
  refine ⟨⟨?_, ?_⟩, fault⟩
  · rintro ⟨code, emitted⟩
    exact Tree.wellDeclared_of_generate_eq_ok derives isRule areTokens emitted
  · intro well
    cases outcome : (generate tree).result with
    | ok code => exact ⟨code, rfl⟩
    | error error => exact absurd well (fault error outcome).not_wellDeclared

/-- The variable `s` of the method hides the one of the class, and `b` is not declared. -/
def undeclaredSource : String :=
  "class A \x7b static int s;\n" ++
    "method int f(int a) \x7b var int s; let s = \"text\"; let b = a + s; return s; \x7d \x7d\n"

theorem generate_ok_iff_wellDeclared_undeclaredSource :
    ∃ tree, (parse undeclaredSource).result = .ok tree ∧ ¬ tree.WellDeclared ∧
      (generate tree).result = .error (.undeclaredVariable "A.f" "b") ∧
      tree.Fault (.undeclaredVariable "A.f" "b") := by
  have compiled : ((parse undeclaredSource).result >>= fun tree =>
      (.ok (generate tree).result : Except CompileError _)) =
        .ok (.error (.undeclaredVariable "A.f" "b")) := by decide +kernel
  obtain ⟨tree, parsed, same⟩ := except_bind_eq_ok.mp compiled
  have refused := Except.ok.inj same
  obtain ⟨iff, faults⟩ := generate_ok_iff_wellDeclared undeclaredSource tree parsed
  refine ⟨tree, parsed, ?_, refused, faults _ refused⟩
  intro well
  obtain ⟨code, emitted⟩ := iff.mpr well
  rw [refused] at emitted
  cases emitted

end JackCompiler
