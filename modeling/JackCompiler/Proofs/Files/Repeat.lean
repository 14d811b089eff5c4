import JackCompiler.Proofs.Files.Stem
import JackCompiler.Proofs.Files.Walk

/-!
# Doing again what was done

Writing a file and making a directory keep a tree well-formed (`wellFormed_write`,
`wellFormed_makeDirectory`). In a well-formed tree one entry has a name, so to write again what a
file holds changes nothing (`write_eq_self`). Where a directory stands, none is made
(`makeDirectory_of_find`).
-/

set_option autoImplicit false

namespace JackCompiler

namespace FileTree

section Entries

variable {tree found entry : FileTree} {names : List String} {name : String}
  {entries : List (String × FileTree)} {change : FileTree → FileTree}

/-- An entry that is there is replaced where it stands. -/
theorem setEntry_eq_modify (present : (entries.lookup name).isSome) :
    setEntry name entry (directory entries) =
      (directory entries).modify (fun _ => entry) [name] := by
  rw [setEntry, if_pos present, modify]
  refine congrArg directory (List.map_congr_left fun old among => ?_)
  split
  · rename_i same
    rw [same]
    rfl
  · rfl

theorem wellFormed_modify (wellFormed : tree.WellFormed)
    (kept : ∀ found, tree.at? names = some found → found.WellFormed → (change found).WellFormed) :
    (tree.modify change names).WellFormed := by
  induction names generalizing tree with
  | nil => exact kept tree rfl wellFormed
  | cons name later ih =>
    cases wellFormed with
    | file content => exact .file content
    | @directory entries areNames distinct inner =>
      rw [modify]
      have keys : (entries.map fun entry =>
          if entry.1 = name then (entry.1, modify change later entry.2) else entry).map (·.1) =
          entries.map (·.1) := by
        rw [List.map_map]
        refine List.map_congr_left fun entry _ => ?_
        dsimp only [Function.comp_apply]
        split <;> rfl
      refine .directory (fun entry among => ?_) (keys ▸ distinct) fun entry among => ?_
      · have among := keys ▸ List.mem_map_of_mem among
        obtain ⟨old, among, same⟩ := List.mem_map.mp among
        exact same ▸ areNames old among
      · obtain ⟨old, present, rfl⟩ := List.mem_map.mp among
        split
        · rename_i same
          refine ih (inner old present) fun found stands => kept found ?_
          rw [at?, ← same, lookup_of_mem distinct present]
          exact stands
        · exact inner old present

theorem wellFormed_setEntry (wellFormed : (directory entries).WellFormed) (isName : IsName name)
    (new : entry.WellFormed) : (setEntry name entry (directory entries)).WellFormed := by
  by_cases present : (entries.lookup name).isSome
  · rw [setEntry_eq_modify present]
    exact wellFormed_modify wellFormed fun _ _ _ => new
  · cases wellFormed with
    | directory areNames distinct inner =>
      rw [setEntry, if_neg present]
      have fresh : name ∉ entries.map (·.1) := by
        intro taken
        obtain ⟨old, among, rfl⟩ := List.mem_map.mp taken
        rw [lookup_of_mem distinct among] at present
        exact present rfl
      refine .directory ?_ ?_ ?_
      · exact List.forall_mem_append.mpr ⟨areNames, List.forall_mem_singleton.mpr isName⟩
      · rw [List.map_append, List.map_singleton, List.nodup_append]
        refine ⟨distinct, List.pairwise_singleton _ _, fun old among new here same => fresh ?_⟩
        have last : new = name := List.mem_singleton.mp here
        rwa [← last, ← same]
      · exact List.forall_mem_append.mpr ⟨inner, List.forall_mem_singleton.mpr new⟩

/-- A change that keeps what it is about changes nothing. -/
theorem modify_eq_self (wellFormed : tree.WellFormed) (stands : tree.at? names = some found)
    (same : change found = found) : tree.modify change names = tree := by
  induction names generalizing tree with
  | nil =>
    obtain rfl : tree = found := Option.some.inj stands
    exact same
  | cons name later ih =>
    cases wellFormed with
    | file content => rfl
    | @directory entries areNames distinct inner =>
      obtain ⟨entry, present, stands⟩ := Option.bind_eq_some_iff.mp stands
      have each : ∀ old ∈ entries,
          (if old.1 = name then (old.1, modify change later old.2) else old) = old := by
        intro old among
        split
        · rename_i here
          have own := lookup_of_mem distinct among
          rw [here, present, Option.some.injEq] at own
          rw [ih (inner old among) (own ▸ stands)]
        · rfl
      rw [modify, List.map_congr_left each, List.map_id']

end Entries

variable {tree after : FileTree} {path : Path} {content : ByteArray}

theorem isName_of_findHolder {holder : Place} {entries : List (String × FileTree)} {name : String}
    (found : tree.findHolder path = .ok (holder, entries, name)) (proper : isDots name = false) :
    IsName name := by
  obtain ⟨-, -, -, rfl⟩ := findHolder_eq_ok.mp found
  exact ⟨proper, path.plain_lastPiece⟩

/-- A new entry in the directory that holds what a path leads to. -/
theorem wellFormed_put {holder : Place} {entries : List (String × FileTree)} {name : String}
    {new : FileTree} (wellFormed : tree.WellFormed)
    (found : tree.findHolder path = .ok (holder, entries, name)) (proper : isDots name = false)
    (wellFormedNew : new.WellFormed) :
    (tree.modify (setEntry name new) holder.names).WellFormed := by
  refine wellFormed_modify wellFormed fun here stands inner => ?_
  rw [at?_of_findHolder found, Option.some.injEq] at stands
  subst stands
  exact wellFormed_setEntry inner (isName_of_findHolder found proper) wellFormedNew

theorem wellFormed_write (wellFormed : tree.WellFormed)
    (wrote : tree.write path content = .ok after) : after.WellFormed := by
  obtain ⟨holder, entries, name, found, proper, -, -, rfl⟩ := exists_of_write wrote
  exact wellFormed_put wellFormed found proper (.file content)

theorem wellFormed_makeDirectory (wellFormed : tree.WellFormed)
    (made : tree.makeDirectory path = .ok after) : after.WellFormed := by
  obtain ⟨holder, entries, name, found, proper, -, -, rfl⟩ := exists_of_makeDirectory made
  exact wellFormed_put wellFormed found proper (.directory nofun .nil nofun)

/-- To write what a file holds changes nothing. -/
theorem write_eq_self (wellFormed : tree.WellFormed)
    (finds : tree.find path = .ok (file content)) : tree.write path content = .ok tree := by
  obtain ⟨holder, entries, place, found, proper, step, here⟩ := exists_entry_of_find finds
  obtain ⟨short, old, present, rfl⟩ := Place.entry_eq_ok.mp step
  obtain rfl : old = file content := here
  have kept : setEntry path.lastPiece (file content) (directory entries) = directory entries := by
    have inner := wellFormed.at? (at?_of_findHolder found)
    rw [setEntry_eq_modify (by rw [present]; rfl)]
    exact modify_eq_self inner (by rw [at?, present]; rfl) rfl
  rw [write, found]
  show (if isDots path.lastPiece = true then _ else _) = _
  rw [if_neg (by simp [proper]), step]
  exact congrArg Except.ok (modify_eq_self wellFormed (at?_of_findHolder found) kept)

/-- Where a directory stands, none is made. -/
theorem makeDirectory_of_find {entries : List (String × FileTree)}
    (finds : tree.find path = .ok (directory entries)) :
    tree.makeDirectory path = .error .alreadyExists := by
  obtain ⟨holder, around, found, ⟨dots, -⟩ | ⟨proper, place, step, -⟩⟩ :=
    exists_holder_of_find finds
  · rw [makeDirectory, found]
    exact if_pos dots
  · rw [makeDirectory, found]
    show (if isDots path.lastPiece = true then _ else _) = _
    rw [if_neg (by simp [proper]), step]

end FileTree

end JackCompiler
