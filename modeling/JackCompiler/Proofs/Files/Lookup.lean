import JackCompiler.Files.FileTree

/-!
# What stands in a tree of files

A tree is seen through `sight?`: for each list of names from the top, whether a file stands there,
with which content, or a directory. The entries of one name in a directory count as their first one.
Putting a file, or a directory without entries, in the place of a file or of nothing changes what is
seen in that place, and nowhere else (`sight?_put`).
-/

set_option autoImplicit false

namespace JackCompiler

/-- What there is to see of a file or a directory without looking into it. -/
inductive Sight where
  | file (content : ByteArray)
  | directory

/-! ## Looking things up -/

section Lookup

variable {α : Type} {name other : String}

theorem lookup_cons_eq (value : α) (later : List (String × α)) :
    ((name, value) :: later).lookup other =
      if other = name then some value else later.lookup other := by
  by_cases same : other = name
  · subst same
    simp
  · have apart : (other == name) = false := beq_false_of_ne same
    rw [List.lookup_cons, apart, if_neg same]

/-- Changing the entries of one name. -/
theorem lookup_map_eq (f : α → α) (entries : List (String × α)) :
    (entries.map fun entry => if entry.1 = name then (entry.1, f entry.2) else entry).lookup other =
      if other = name then (entries.lookup other).map f else entries.lookup other := by
  induction entries with
  | nil => simp
  | cons entry later ih =>
    obtain ⟨key, value⟩ := entry
    have head : (if key = name then (key, f value) else (key, value)) =
        (key, if key = name then f value else value) := by split <;> rfl
    rw [List.map_cons, head, lookup_cons_eq, lookup_cons_eq, ih]
    by_cases here : other = key
    · subst here
      by_cases same : other = name <;> simp [same]
    · simp [here]

theorem mem_of_lookup {entries : List (String × α)} {found : α}
    (present : entries.lookup name = some found) : (name, found) ∈ entries := by
  obtain ⟨before, behind, rfl, -⟩ := List.lookup_eq_some_iff.mp present
  simp

/-- Where names differ, each entry is the one of its name. -/
theorem lookup_of_mem {entries : List (String × α)} {entry : String × α}
    (distinct : (entries.map (·.1)).Nodup) (among : entry ∈ entries) :
    entries.lookup entry.1 = some entry.2 := by
  induction entries with
  | nil => cases among
  | cons first later ih =>
    rw [List.map_cons, List.nodup_cons] at distinct
    rw [show first = (first.1, first.2) from rfl, lookup_cons_eq]
    rcases List.mem_cons.mp among with rfl | among
    · rw [if_pos rfl]
    · have apart : entry.1 ≠ first.1 := fun same =>
        distinct.1 (same ▸ List.mem_map_of_mem among)
      rw [if_neg apart, ih distinct.2 among]

end Lookup

namespace FileTree

/-- What is seen of a tree. -/
def sight : FileTree → Sight
  | file content => .file content
  | directory _ => .directory

/-- What stands where some names lead. -/
def at? : List String → FileTree → Option FileTree
  | [], tree => some tree
  | _ :: _, file _ => none
  | name :: later, directory entries => (entries.lookup name).bind (at? later)

/-- What is seen where some names lead. -/
def sight? (tree : FileTree) (names : List String) : Option Sight := (tree.at? names).map sight

variable {tree after : FileTree} {names more : List String}

theorem at?_append (tree : FileTree) :
    tree.at? (names ++ more) = (tree.at? names).bind (at? more) := by
  induction names generalizing tree with
  | nil => rfl
  | cons name later ih =>
    cases tree with
    | file content => rfl
    | directory entries =>
      rw [List.cons_append, at?, at?]
      cases entries.lookup name with
      | none => rfl
      | some found => exact ih found

/-- The entries of a directory, looked up from the top. -/
theorem at?_snoc {entries : List (String × FileTree)}
    (held : tree.at? names = some (directory entries)) (name : String) :
    tree.at? (names ++ [name]) = entries.lookup name := by
  rw [at?_append, held, Option.bind_some, at?]
  cases entries.lookup name <;> rfl

/-- What is seen in a tree beneath a place is seen in what stands there. -/
theorem sight?_append {found : FileTree} (stands : tree.at? names = some found) :
    tree.sight? (names ++ more) = found.sight? more := by
  rw [sight?, at?_append, stands]
  rfl

theorem sight?_eq_file {content : ByteArray} :
    tree.sight? names = some (.file content) ↔ tree.at? names = some (file content) := by
  unfold sight?
  cases tree.at? names with
  | none => simp
  | some found => cases found <;> simp [sight]

theorem sight?_eq_directory :
    tree.sight? names = some .directory ↔ ∃ entries, tree.at? names = some (directory entries) := by
  unfold sight?
  cases tree.at? names with
  | none => simp
  | some found => cases found <;> simp [sight]

/-- Whether nothing stands beneath a tree. -/
def Bare (tree : FileTree) : Prop := ∀ name more, tree.at? (name :: more) = none

theorem bare_file (content : ByteArray) : Bare (file content) := fun _ _ => rfl

theorem bare_empty : Bare empty := fun _ _ => rfl

/-! ## Changing a tree in one place -/

/-- What is beside the changed place, or on the way to it, looks as before. -/
theorem sight?_modify (change : FileTree → FileTree) (tree : FileTree) (apart : ¬ names <+: more) :
    (tree.modify change names).sight? more = tree.sight? more := by
  induction names generalizing tree more with
  | nil => exact absurd List.nil_prefix apart
  | cons name later ih =>
    cases tree with
    | file content => rfl
    | directory entries =>
      cases more with
      | nil => rfl
      | cons first rest =>
        rw [modify, sight?, sight?, at?, at?, lookup_map_eq]
        split
        · rename_i same
          subst same
          have beside : ¬ later <+: rest := fun within =>
            apart (List.cons_prefix_cons.mpr ⟨rfl, within⟩)
          cases entries.lookup first with
          | none => rfl
          | some found => exact ih found beside
        · rfl

theorem at?_modify (change : FileTree → FileTree) (tree : FileTree) :
    (tree.modify change names).at? (names ++ more) =
      ((tree.at? names).map change).bind (at? more) := by
  induction names generalizing tree with
  | nil => rfl
  | cons name later ih =>
    cases tree with
    | file content => rfl
    | directory entries =>
      rw [modify, List.cons_append, at?, at?, lookup_map_eq, if_pos rfl]
      cases entries.lookup name with
      | none => rfl
      | some found => exact ih found

theorem at?_setEntry {name : String} {entry : FileTree} {entries : List (String × FileTree)}
    {first : String} {rest : List String} :
    (setEntry name entry (directory entries)).at? (first :: rest) =
      if first = name then entry.at? rest else (directory entries).at? (first :: rest) := by
  have replaced : (entries.map fun old => if old.1 = name then (name, entry) else old) =
      entries.map fun old => if old.1 = name then (old.1, entry) else old := by
    refine List.map_congr_left fun old among => ?_
    split
    · rename_i same
      rw [same]
    · rfl
  rw [setEntry]
  split
  · rename_i present
    obtain ⟨old, found⟩ := Option.isSome_iff_exists.mp present
    rw [replaced, at?, lookup_map_eq (fun _ => entry)]
    split
    · rename_i same
      subst same
      rw [found]
      rfl
    · rw [at?]
  · rename_i missing
    have missing : entries.lookup name = none := Option.not_isSome_iff_eq_none.mp missing
    rw [at?, List.lookup_append, lookup_cons_eq, at?]
    by_cases same : first = name
    · subst same
      simp [missing]
    · simp [same]

/-- Putting something bare in the place of nothing, or of something bare, changes what is seen in
that place only. -/
theorem sight?_put {holder : List String} {name : String} {new : FileTree}
    {entries : List (String × FileTree)} (held : tree.at? holder = some (directory entries))
    (bare : Bare new) (bareBefore : ∀ old, entries.lookup name = some old → Bare old) :
    (tree.modify (setEntry name new) holder).sight? names =
      if names = holder ++ [name] then some new.sight else tree.sight? names := by
  by_cases within : holder <+: names
  · obtain ⟨rest, rfl⟩ := within
    rw [sight?, sight?, at?_modify, at?_append, held, Option.map_some, Option.bind_some,
      Option.bind_some]
    cases rest with
    | nil =>
      have apart : holder ++ [] ≠ holder ++ [name] := fun same =>
        List.cons_ne_nil _ _ (List.append_cancel_left same).symm
      rw [if_neg apart, at?, at?, setEntry]
      split <;> rfl
    | cons first rest =>
      rw [at?_setEntry]
      by_cases same : first = name
      · subst same
        cases rest with
        | nil => simp [at?]
        | cons second rest =>
          have below : (directory entries).at? (first :: second :: rest) = none := by
            rw [at?]
            cases found : entries.lookup first with
            | none => rfl
            | some old => exact bareBefore old found second rest
          simp [bare second rest, below]
      · simp [same]
  · have apart : names ≠ holder ++ [name] := fun same => within (same ▸ List.prefix_append _ _)
    rw [if_neg apart, sight?_modify _ _ within]

/-! ## Trees that keep their directories -/

/-- Whether each directory of a tree is one of another tree, too. -/
def KeepsDirectories (tree after : FileTree) : Prop :=
  ∀ names, tree.sight? names = some .directory → after.sight? names = some .directory

theorem KeepsDirectories.refl (tree : FileTree) : KeepsDirectories tree tree := fun _ seen => seen

theorem KeepsDirectories.trans {tree middle after : FileTree} (one : KeepsDirectories tree middle)
    (two : KeepsDirectories middle after) : KeepsDirectories tree after :=
  fun names seen => two names (one names seen)

end FileTree

end JackCompiler
