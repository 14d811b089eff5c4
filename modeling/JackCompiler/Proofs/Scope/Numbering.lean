import Mathlib.Data.List.Nodup
import JackCompiler.Scope

/-!
# The numbers of variables

`Level.names` are the names that a level declares for the variables of a kind, in the order of their
declaration. In a dense level all names are different and the number of a variable is the position
of its name among those of its kind, so a kind and a number determine a name. Every further
declaration of a new name keeps a level dense, and what is found under a name is told by the
positions of the names alone (`Level.Dense.slotAmong_names`).
-/

set_option autoImplicit false

namespace JackCompiler

/-- A variable that is to be declared. -/
structure Binding where
  name : String
  type : String
  kind : VariableKind
  deriving DecidableEq, Repr

/-- The names of the variables of a kind, in order. -/
def Binding.namesOf (kind : VariableKind) (bindings : List Binding) : List String :=
  (bindings.filter (·.kind = kind)).map (·.name)

theorem Binding.namesOf_append (kind : VariableKind) (first second : List Binding) :
    namesOf kind (first ++ second) = namesOf kind first ++ namesOf kind second := by
  rw [namesOf, List.filter_append, List.map_append]
  rfl

theorem Binding.namesOf_eq_map {kind : VariableKind} {bindings : List Binding}
    (all : ∀ binding ∈ bindings, binding.kind = kind) :
    namesOf kind bindings = bindings.map (·.name) := by
  rw [namesOf, List.filter_eq_self.mpr]
  intro binding among
  simpa using all binding among

theorem Binding.namesOf_eq_nil {kind : VariableKind} {bindings : List Binding}
    (others : ∀ binding ∈ bindings, binding.kind ≠ kind) : namesOf kind bindings = [] := by
  rw [namesOf, List.filter_eq_nil_iff.mpr, List.map_nil]
  intro binding among
  simpa using others binding among

namespace Level

/-- The names that a level declares for variables of a kind, in the order of their declaration. -/
def names (level : Level) (kind : VariableKind) : List String :=
  (level.entries.reverse.filter (·.2.kind = kind)).map (·.1)

/-- All names that a level declares, in the order of their declaration. -/
def allNames (level : Level) : List String := level.entries.reverse.map (·.1)

/-- A level with one more variable. -/
def add (level : Level) (binding : Binding) : Level :=
  { level with entries :=
      (binding.name, ⟨binding.type, binding.kind, level.count binding.kind⟩) :: level.entries }

/-- A level with further variables. -/
def addAll (level : Level) (bindings : List Binding) : Level := bindings.foldl add level

variable {level : Level} {kind : VariableKind} {name : String} {declared : Variable}

theorem length_names : (level.names kind).length = level.count kind := by
  rw [names, List.length_map, ← List.countP_eq_length_filter, List.countP_reverse, count]

theorem names_add (binding : Binding) :
    (level.add binding).names kind = level.names kind ++ Binding.namesOf kind [binding] := by
  by_cases same : binding.kind = kind
  · simp [names, add, Binding.namesOf, same]
  · simp [names, add, Binding.namesOf, same]

theorem allNames_add (binding : Binding) :
    (level.add binding).allNames = level.allNames ++ [binding.name] := by
  simp [allNames, add]

theorem names_addAll (bindings : List Binding) :
    (level.addAll bindings).names kind = level.names kind ++ Binding.namesOf kind bindings := by
  induction bindings generalizing level with
  | nil => simp [addAll, Binding.namesOf]
  | cons binding later ih =>
    show ((level.add binding).addAll later).names kind = _
    rw [ih, names_add, List.append_assoc, ← Binding.namesOf_append, List.singleton_append]

theorem allNames_addAll (bindings : List Binding) :
    (level.addAll bindings).allNames = level.allNames ++ bindings.map (·.name) := by
  induction bindings generalizing level with
  | nil => simp [addAll]
  | cons binding later ih =>
    show ((level.add binding).addAll later).allNames = _
    rw [ih, allNames_add, List.append_assoc]
    rfl

/-- Declaring variables changes neither the name of a level nor its labels. -/
theorem addAll_name_nextLabel (bindings : List Binding) :
    (level.addAll bindings).name = level.name ∧
      (level.addAll bindings).nextLabel = level.nextLabel := by
  induction bindings generalizing level with
  | nil => exact ⟨rfl, rfl⟩
  | cons binding later ih => exact @ih (level.add binding)

theorem mem_names_iff :
    name ∈ level.names kind ↔
      ∃ declared, (name, declared) ∈ level.entries ∧ declared.kind = kind := by
  simp [names]

theorem mem_allNames_iff :
    name ∈ level.allNames ↔ ∃ declared, (name, declared) ∈ level.entries := by
  simp [allNames]

/-- A level has a name exactly if it has it for a variable of some kind. -/
theorem mem_allNames_iff_exists_kind :
    name ∈ level.allNames ↔ ∃ kind, name ∈ level.names kind := by
  rw [mem_allNames_iff]
  constructor
  · rintro ⟨declared, among⟩
    exact ⟨declared.kind, mem_names_iff.mpr ⟨declared, among, rfl⟩⟩
  · rintro ⟨kind, among⟩
    obtain ⟨declared, among, -⟩ := mem_names_iff.mp among
    exact ⟨declared, among⟩

theorem find?_eq_none_iff : level.find? name = none ↔ name ∉ level.allNames := by
  rw [find?, List.lookup_eq_none_iff, mem_allNames_iff]
  constructor
  · rintro absent ⟨declared, among⟩
    simpa using absent _ among
  · intro absent entry among
    have other : name ≠ entry.1 := by
      rintro rfl
      exact absent ⟨entry.2, among⟩
    simpa using other

theorem mem_entries_of_find? (found : level.find? name = some declared) :
    (name, declared) ∈ level.entries := by
  obtain ⟨front, behind, eq, -⟩ := List.lookup_eq_some_iff.mp found
  rw [eq]
  exact List.mem_append_right front List.mem_cons_self

/-- Whether a level has no name twice, and each of its variables has for its number the position of
its name among those of its kind. -/
structure Dense (level : Level) : Prop where
  distinct : level.allNames.Nodup
  numbered : ∀ name declared, (name, declared) ∈ level.entries →
    (level.names declared.kind)[declared.index]? = some name

namespace Dense

theorem empty (name : String) : (Level.empty name).Dense where
  distinct := List.nodup_nil
  numbered := by
    intro name declared among
    cases among

/-- One more variable with a new name gets the next number of its kind. -/
theorem add (dense : level.Dense) {binding : Binding} (new : binding.name ∉ level.allNames) :
    (level.add binding).Dense where
  distinct := by
    rw [allNames_add]
    exact dense.distinct.append (List.nodup_singleton _) (by simpa using new)
  numbered := by
    intro name declared among
    rw [names_add]
    rcases List.mem_cons.mp among with here | before
    · cases here
      show (level.names binding.kind ++ Binding.namesOf binding.kind [binding])[_]? = _
      rw [← @length_names level binding.kind, List.getElem?_append_right (Nat.le_refl _),
        Nat.sub_self]
      simp [Binding.namesOf]
    · have found := dense.numbered name declared before
      have inside := (List.getElem?_eq_some_iff.mp found).1
      rw [List.getElem?_append_left inside]
      exact found

theorem addAll (dense : level.Dense) {bindings : List Binding}
    (new : (level.allNames ++ bindings.map (·.name)).Nodup) : (level.addAll bindings).Dense := by
  induction bindings generalizing level with
  | nil => exact dense
  | cons binding later ih =>
    have absent : binding.name ∉ level.allNames := by
      intro among
      exact List.disjoint_of_nodup_append new among List.mem_cons_self
    apply ih (dense.add absent)
    rw [allNames_add, List.append_assoc]
    exact new

theorem nodup_names (dense : level.Dense) (kind : VariableKind) : (level.names kind).Nodup := by
  have sub : (level.names kind).Sublist level.allNames := List.filter_sublist.map _
  exact dense.distinct.sublist sub

/-- What is found under a name stands at the position of the name. -/
theorem numbered_of_find? (dense : level.Dense) (found : level.find? name = some declared) :
    (level.names declared.kind)[declared.index]? = some name :=
  dense.numbered name declared (mem_entries_of_find? found)

theorem index_lt (dense : level.Dense) (found : level.find? name = some declared) :
    declared.index < level.count declared.kind := by
  have inside := (List.getElem?_eq_some_iff.mp (dense.numbered_of_find? found)).1
  rw [length_names] at inside
  exact inside

theorem mem_names_of_find? (dense : level.Dense) (found : level.find? name = some declared) :
    name ∈ level.names declared.kind :=
  List.mem_of_getElem? (dense.numbered_of_find? found)

/-- A name belongs to variables of one kind only. -/
theorem kind_unique (dense : level.Dense) {kind kind' : VariableKind}
    (one : name ∈ level.names kind) (two : name ∈ level.names kind') : kind = kind' := by
  obtain ⟨declared, among, rfl⟩ := mem_names_iff.mp one
  obtain ⟨declared', among', rfl⟩ := mem_names_iff.mp two
  have keys : (level.entries.map (·.1)).Nodup := by
    have distinct := dense.distinct
    rw [allNames, List.map_reverse, List.nodup_reverse] at distinct
    exact distinct
  have same := List.inj_on_of_nodup_map keys among among' rfl
  cases same
  rfl

/-- The position of a name is the number that is found under it. -/
theorem idxOf?_names (dense : level.Dense) (found : level.find? name = some declared) :
    (level.names declared.kind).idxOf? name = some declared.index := by
  obtain ⟨inside, here⟩ := List.getElem?_eq_some_iff.mp (dense.numbered_of_find? found)
  refine List.idxOf?_eq_some_iff.mpr ⟨inside, here, ?_⟩
  intro earlier before same
  have equal := (dense.nodup_names declared.kind).getElem_inj_iff.mp (same.trans here.symm)
  omega

end Dense

end Level

/-! ## Slots -/

theorem VariableKind.segment_inj {kind kind' : VariableKind} (same : kind.segment = kind'.segment) :
    kind = kind' := by
  revert same
  cases kind <;> cases kind' <;> decide

/-- Where a variable lives. -/
def Variable.slot (declared : Variable) : Segment × Nat := (declared.kind.segment, declared.index)

/-- Where the variable of a name lives if the variables of each kind are numbered as their names
stand. The first of some kinds that has the name counts. -/
def slotAmong (names : VariableKind → List String) (kinds : List VariableKind) (name : String) :
    Option (Segment × Nat) :=
  kinds.findSome? fun kind => ((names kind).idxOf? name).map fun index => (kind.segment, index)

section Slot

variable {names : VariableKind → List String} {kinds : List VariableKind} {name other : String}
  {slot : Segment × Nat}

theorem slotAmong_append (further : List VariableKind) :
    slotAmong names (kinds ++ further) name =
      (slotAmong names kinds name).or (slotAmong names further name) :=
  List.findSome?_append

theorem slotAmong_congr {names' : VariableKind → List String}
    (same : ∀ kind ∈ kinds, names kind = names' kind) :
    slotAmong names kinds name = slotAmong names' kinds name := by
  induction kinds with
  | nil => rfl
  | cons kind later ih =>
    rw [List.forall_mem_cons] at same
    have rest : slotAmong names later name = slotAmong names' later name := ih same.2
    unfold slotAmong at rest ⊢
    rw [List.findSome?_cons, List.findSome?_cons, same.1, rest]

theorem slotAmong_eq_none_iff :
    slotAmong names kinds name = none ↔ ∀ kind ∈ kinds, name ∉ names kind := by
  simp only [slotAmong, List.findSome?_eq_none_iff, Option.map_eq_none_iff,
    List.idxOf?_eq_none_iff]

/-- A slot tells the kind of its variable and the position of the name among those of the kind. -/
theorem exists_kind_of_slotAmong (found : slotAmong names kinds name = some slot) :
    ∃ kind ∈ kinds, slot.1 = kind.segment ∧ (names kind)[slot.2]? = some name := by
  obtain ⟨kind, among, here⟩ := List.exists_of_findSome?_eq_some found
  obtain ⟨index, position, rfl⟩ := Option.map_eq_some_iff.mp here
  obtain ⟨inside, same, -⟩ := List.idxOf?_eq_some_iff.mp position
  exact ⟨kind, among, rfl, List.getElem?_eq_some_iff.mpr ⟨inside, same⟩⟩

/-- Different names have different slots. -/
theorem slotAmong_inj (one : slotAmong names kinds name = some slot)
    (two : slotAmong names kinds other = some slot) : name = other := by
  obtain ⟨kind, -, segment, here⟩ := exists_kind_of_slotAmong one
  obtain ⟨kind', -, segment', here'⟩ := exists_kind_of_slotAmong two
  obtain rfl := VariableKind.segment_inj (segment.symm.trans segment')
  rw [here] at here'
  exact Option.some.inj here'

/-- In a dense level a name is found in the slot that its position gives, as long as the kinds that
are asked include its own. -/
theorem Level.Dense.slotAmong_names {level : Level} (dense : level.Dense)
    (complete : ∀ kind, name ∈ level.names kind → kind ∈ kinds) :
    slotAmong level.names kinds name = (level.find? name).map Variable.slot := by
  cases found : level.find? name with
  | none =>
    refine slotAmong_eq_none_iff.mpr ?_
    intro kind _ among
    have absent := Level.find?_eq_none_iff.mp found
    exact absent (Level.mem_allNames_iff_exists_kind.mpr ⟨kind, among⟩)
  | some declared =>
    have own := dense.mem_names_of_find? found
    cases answer : slotAmong level.names kinds name with
    | none => exact absurd own (slotAmong_eq_none_iff.mp answer _ (complete _ own))
    | some slot =>
      obtain ⟨kind, among, here⟩ := List.exists_of_findSome?_eq_some answer
      obtain ⟨index, position, rfl⟩ := Option.map_eq_some_iff.mp here
      obtain ⟨inside, same, -⟩ := List.idxOf?_eq_some_iff.mp position
      have listed : name ∈ level.names kind := same ▸ List.getElem_mem inside
      obtain rfl := dense.kind_unique listed own
      rw [dense.idxOf?_names found] at position
      cases position
      rfl

end Slot

end JackCompiler
