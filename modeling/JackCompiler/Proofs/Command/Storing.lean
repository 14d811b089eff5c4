import JackCompiler.Command.Run
import JackCompiler.Proofs.Files.Repeat

/-!
# Storing a file in a tree

Before a file is written, the directories that lead to it are made (`FileTree.Makes`). That adds
directories where there was nothing and does no more (`FileTree.Grows`), whether it succeeds or
stops on the way. So a file that is stored is the only one that changes (`exists_of_store_eq_ok`),
and if it cannot be stored, no file does (`grows_of_store_eq_error`). A file that was stored is
stored again without a change (`store_of_find`).
-/

set_option autoImplicit false

namespace JackCompiler

namespace FileTree

/-- Whether a tree differs from another one by further directories only. -/
def Grows (tree after : FileTree) : Prop :=
  ∀ names, after.sight? names = tree.sight? names ∨
    tree.sight? names = none ∧ after.sight? names = some .directory

namespace Grows

variable {tree middle after : FileTree}

theorem refl (tree : FileTree) : Grows tree tree := fun _ => .inl rfl

theorem trans (one : Grows tree middle) (two : Grows middle after) : Grows tree after := by
  intro names
  rcases one names with same | ⟨missing, made⟩
  · rw [← same]
    exact two names
  · rcases two names with same | ⟨missing', -⟩
    · exact .inr ⟨missing, same.trans made⟩
    · rw [made] at missing'
      cases missing'

theorem keepsDirectories (grows : Grows tree after) : tree.KeepsDirectories after := by
  intro names seen
  rcases grows names with same | ⟨missing, -⟩
  · exact same.trans seen
  · rw [seen] at missing
    cases missing

/-- The files are the same. -/
theorem sight?_eq_file (grows : Grows tree after) (names : List String) (content : ByteArray) :
    after.sight? names = some (.file content) ↔ tree.sight? names = some (.file content) := by
  rcases grows names with same | ⟨missing, made⟩
  · rw [same]
  · simp [missing, made]

end Grows

theorem grows_of_makeDirectory {tree after : FileTree} {path : Path}
    (made : tree.makeDirectory path = .ok after) : Grows tree after := by
  intro names
  rw [sight?_makeDirectory made]
  split
  · rename_i here
    exact .inr ⟨here ▸ sight?_eq_none_of_makeDirectory made, rfl⟩
  · exact .inl rfl

/-! ## Operations that only make directories -/

/-- Whether a tree comes out of another one by making directories at some paths. -/
inductive Makes (paths : List Path) : FileTree → FileTree → Prop
  | refl (tree : FileTree) : Makes paths tree tree
  | step {tree middle after : FileTree} {path : Path} (among : path ∈ paths)
      (made : tree.makeDirectory path = .ok middle) (rest : Makes paths middle after) :
      Makes paths tree after

namespace Makes

variable {paths more : List Path} {tree middle after : FileTree}

theorem trans (one : Makes paths tree middle) (two : Makes paths middle after) :
    Makes paths tree after := by
  induction one with
  | refl tree => exact two
  | step among made _ ih => exact .step among made (ih two)

theorem mono (subset : paths ⊆ more) (makes : Makes paths tree after) :
    Makes more tree after := by
  induction makes with
  | refl tree => exact .refl tree
  | step among made _ ih => exact .step (subset among) made ih

theorem grows (makes : Makes paths tree after) : Grows tree after := by
  induction makes with
  | refl tree => exact .refl tree
  | step _ made _ ih => exact (grows_of_makeDirectory made).trans ih

theorem wellFormed (makes : Makes paths tree after) (wellFormed : tree.WellFormed) :
    after.WellFormed := by
  induction makes with
  | refl tree => exact wellFormed
  | step _ made _ ih => exact ih (wellFormed_makeDirectory wellFormed made)

/-- Where directories stand already, none are made. -/
theorem eq_of_directories (makes : Makes paths tree after)
    (stand : ∀ path ∈ paths, tree.sight? path.location = some .directory) : after = tree := by
  cases makes with
  | refl => rfl
  | step among made _ =>
    have nothing := sight?_eq_none_of_makeDirectory made
    rw [stand _ among] at nothing
    cases nothing

end Makes

/-- Whether an operation makes directories at some paths and does no more to any tree. -/
def Making {α : Type} (paths : List Path) (operation : StateM FileTree α) : Prop :=
  ∀ tree, Makes paths tree (operation tree).2

section Making

variable {α β : Type} {paths : List Path} {path : Path} {operation : StateM FileTree α}
  {next : α → StateM FileTree β}

theorem making_pure (value : α) : Making paths (pure value) := fun tree => .refl tree

theorem making_bind (first : Making paths operation)
    (second : ∀ value, Making paths (next value)) : Making paths (operation >>= next) :=
  fun tree => (first tree).trans (second (operation tree).1 (operation tree).2)

theorem making_makeDirectory (among : path ∈ paths) :
    Making paths (disk.makeDirectory path) := by
  intro tree
  show Makes paths tree (keeping (fun tree => tree.makeDirectory path) tree).2
  unfold keeping
  dsimp only
  split
  · rename_i made
    exact .step among made (.refl _)
  · exact .refl tree

theorem making_forgive (path : Path) (error : FileError) :
    Making paths (disk.forgive path error) :=
  making_bind (fun tree => .refl tree) fun _ => making_pure _

/-- Directories are made from the inside out, and again on the way back. -/
theorem making_makeFirst (paths : List Path) : Making paths (disk.makeFirst paths) := by
  induction paths with
  | nil => exact making_pure _
  | cons path outer ih =>
    have inside := making_makeDirectory (List.mem_cons_self (a := path) (l := outer))
    refine making_bind inside fun result => ?_
    split
    · exact making_pure _
    · refine making_bind (fun tree => (ih tree).mono (List.subset_cons_self path outer))
        fun outerResult => ?_
      split
      · exact making_pure _
      · refine making_bind inside fun again => ?_
        split
        · exact making_pure _
        · exact making_forgive path _
    · exact making_forgive path _

theorem making_prepare (directory : Path) :
    Making directory.ancestors (disk.prepare directory) := by
  unfold Disk.prepare
  split
  · exact making_pure _
  · refine making_bind (making_makeFirst _) fun result => ?_
    split <;> exact making_pure _

end Making

/-! ## Directories that are there -/

section Directories

variable {tree middle after later : FileTree} {path : Path} {outer : List Path}

theorem hasDirectory_iff :
    tree.hasDirectory path = true ↔ ∃ entries, tree.find path = .ok (directory entries) := by
  unfold hasDirectory
  cases tree.find path with
  | error error => simp
  | ok found => cases found <;> simp [isDirectory]

theorem hasDirectory_of_keeps (has : tree.hasDirectory path = true)
    (keeps : tree.KeepsDirectories later) : later.hasDirectory path = true := by
  obtain ⟨entries, finds⟩ := hasDirectory_iff.mp has
  exact hasDirectory_iff.mpr (find_directory_of_keeps finds keeps)

/-- A directory that was made is found. -/
theorem hasDirectory_of_makeDirectory (made : tree.makeDirectory path = .ok after) :
    after.hasDirectory path = true := by
  have seen : after.sight? path.location = some .directory := by
    rw [sight?_makeDirectory made, if_pos rfl]
  obtain ⟨entries, stands⟩ := sight?_eq_directory.mp seen
  obtain ⟨holder, around, name, found, proper, short, -, -⟩ := exists_of_makeDirectory made
  exact hasDirectory_iff.mpr ⟨entries,
    find_of_findHolder found proper short (grows_of_makeDirectory made).keepsDirectories stands⟩

theorem bind_apply {σ α β : Type} (operation : StateM σ α) (next : α → StateM σ β) (state : σ) :
    (operation >>= next) state = next (operation state).1 (operation state).2 := rfl

theorem disk_makeDirectory (path : Path) (tree : FileTree) :
    disk.makeDirectory path tree =
      match tree.makeDirectory path with
      | .ok made => (.ok (), made)
      | .error error => (.error error, tree) := rfl

theorem disk_forgive (path : Path) (error : FileError) (tree : FileTree) :
    disk.forgive path error tree =
      (if tree.hasDirectory path = true then .ok () else .error error, tree) := rfl

theorem hasDirectory_of_disk_makeDirectory
    (made : disk.makeDirectory path tree = (.ok (), after)) : after.hasDirectory path = true := by
  rw [disk_makeDirectory] at made
  split at made
  · rename_i changed
    cases made
    exact hasDirectory_of_makeDirectory changed
  · cases made

theorem hasDirectory_of_forgive {error : FileError}
    (forgiven : disk.forgive path error tree = (.ok (), after)) :
    after.hasDirectory path = true := by
  rw [disk_forgive] at forgiven
  split at forgiven
  · rename_i has
    cases forgiven
    exact has
  · cases forgiven

/-- Behind an operation that has made a directory with those around it, it is there. -/
theorem hasDirectory_of_makeFirst
    (made : disk.makeFirst (path :: outer) tree = (.ok (), after)) :
    after.hasDirectory path = true := by
  rw [Disk.makeFirst, bind_apply] at made
  rcases first : disk.makeDirectory path tree with ⟨result, changed⟩
  rw [first] at made
  dsimp only at made
  split at made
  · cases made
    exact hasDirectory_of_disk_makeDirectory first
  · rw [bind_apply] at made
    generalize disk.makeFirst outer changed = rest at made
    obtain ⟨outerResult, around⟩ := rest
    dsimp only at made
    split at made
    · cases made
    · rw [bind_apply] at made
      rcases again : disk.makeDirectory path around with ⟨result', changed'⟩
      rw [again] at made
      dsimp only at made
      split at made
      · cases made
        exact hasDirectory_of_disk_makeDirectory again
      · exact hasDirectory_of_forgive made
  · exact hasDirectory_of_forgive made

/-- Where the directory is, nothing is to be made. -/
theorem makeFirst_of_hasDirectory (has : tree.hasDirectory path = true) :
    disk.makeFirst (path :: outer) tree = (.ok (), tree) := by
  obtain ⟨entries, finds⟩ := hasDirectory_iff.mp has
  have refused : disk.makeDirectory path tree = (.error .alreadyExists, tree) := by
    rw [disk_makeDirectory, makeDirectory_of_find finds]
  rw [Disk.makeFirst, bind_apply, refused]
  show disk.forgive path .alreadyExists tree = _
  rw [disk_forgive, if_pos has]

theorem eq_of_ancestors_eq_cons {first : Path} (steps : path.ancestors = first :: outer) :
    first = path := by
  unfold Path.ancestors at steps
  cases count : path.components.length with
  | zero =>
    rw [count] at steps
    cases steps
  | succ count' =>
    rw [count] at steps
    exact (List.cons.inj steps).1.symm

/-- A directory that was prepared is prepared as long as the directories stay. -/
theorem prepare_of_keeps (prepared : disk.prepare path tree = (.ok (), after))
    (keeps : after.KeepsDirectories later) : disk.prepare path later = (.ok (), later) := by
  unfold Disk.prepare at prepared ⊢
  split at prepared
  · rename_i empty
    rw [if_pos empty]
    rfl
  · rename_i nonempty
    rw [if_neg nonempty, bind_apply]
    rw [bind_apply] at prepared
    have again : disk.makeDirectories path later = (.ok (), later) := by
      rcases made : disk.makeDirectories path tree with ⟨error | done, middle⟩
      · rw [made] at prepared
        cases prepared
      · rw [made] at prepared
        cases prepared
        unfold Disk.makeDirectories at made ⊢
        cases steps : path.ancestors with
        | nil => rfl
        | cons first outer =>
          obtain rfl : first = path := eq_of_ancestors_eq_cons steps
          rw [steps] at made
          exact makeFirst_of_hasDirectory
            (hasDirectory_of_keeps (hasDirectory_of_makeFirst made) keeps)
    rw [again]
    rfl

end Directories

/-! ## Storing -/

variable {tree after later : FileTree} {path : Path} {text : String}

theorem disk_write (path : Path) (content : ByteArray) (tree : FileTree) :
    disk.write path content tree =
      match tree.write path content with
      | .ok changed => (.ok (), changed)
      | .error error => (.error error, tree) := rfl

/-- The directory is made first; then the file is written. -/
theorem store_eq (path : Path) (text : String) (tree : FileTree) :
    disk.store path text tree =
      match disk.prepare (path.parent?.getD ⟨""⟩) tree with
      | (.error failure, middle) => (.error failure, middle)
      | (.ok (), middle) =>
        match middle.write path text.toUTF8 with
        | .ok after => (.ok (), after)
        | .error error => (.error (.storing path error), middle) := by
  unfold Disk.store
  rw [bind_apply]
  rcases disk.prepare (path.parent?.getD ⟨""⟩) tree with ⟨failure | done, middle⟩
  · rfl
  · dsimp only
    rw [bind_apply]
    rw [disk_write]
    cases middle.write path text.toUTF8 <;> rfl

/-- A file is stored by preparing its directory and writing it. -/
theorem store_eq_ok : disk.store path text tree = (.ok (), after) ↔
    ∃ middle, disk.prepare (path.parent?.getD ⟨""⟩) tree = (.ok (), middle) ∧
      middle.write path text.toUTF8 = .ok after := by
  rw [store_eq]
  generalize disk.prepare (path.parent?.getD ⟨""⟩) tree = prepared
  obtain ⟨failure | done, middle⟩ := prepared
  · exact ⟨nofun, nofun⟩
  · dsimp only
    cases wrote : middle.write path text.toUTF8 with
    | error error =>
      refine ⟨nofun, ?_⟩
      rintro ⟨_, ⟨⟩, wrote'⟩
      rw [wrote] at wrote'
      cases wrote'
    | ok changed =>
      constructor
      · rintro ⟨⟩
        exact ⟨middle, rfl, wrote⟩
      · rintro ⟨_, ⟨⟩, wrote'⟩
        rw [Except.ok.inj (wrote.symm.trans wrote')]

/-- A file is stored by writing it into the tree with the further directories. -/
theorem exists_of_store_eq_ok (stored : disk.store path text tree = (.ok (), after)) :
    ∃ middle, Grows tree middle ∧ middle.write path text.toUTF8 = .ok after := by
  obtain ⟨middle, prepared, wrote⟩ := store_eq_ok.mp stored
  have makes := making_prepare (path.parent?.getD ⟨""⟩) tree
  rw [prepared] at makes
  exact ⟨middle, makes.grows, wrote⟩

theorem keepsDirectories_of_store (stored : disk.store path text tree = (.ok (), after)) :
    tree.KeepsDirectories after := by
  obtain ⟨middle, grows, wrote⟩ := exists_of_store_eq_ok stored
  exact grows.keepsDirectories.trans (keepsDirectories_of_write wrote)

/-- If a file cannot be stored, no file has changed. -/
theorem grows_of_store_eq_error {failure : Failure}
    (failed : disk.store path text tree = (.error failure, after)) : Grows tree after := by
  have makes := making_prepare (path.parent?.getD ⟨""⟩) tree
  rw [store_eq] at failed
  generalize disk.prepare (path.parent?.getD ⟨""⟩) tree = prepared at failed makes
  obtain ⟨error | done, middle⟩ := prepared
  · cases failed
    exact makes.grows
  · dsimp only at failed
    split at failed
    · cases failed
    · cases failed
      exact makes.grows

/-- A tree in which a file was stored, or could not be, is well-formed. -/
theorem wellFormed_store (wellFormed : tree.WellFormed) (path : Path) (text : String) :
    (disk.store path text tree).2.WellFormed := by
  have inner := (making_prepare (path.parent?.getD ⟨""⟩) tree).wellFormed wellFormed
  rw [store_eq]
  generalize disk.prepare (path.parent?.getD ⟨""⟩) tree = prepared at inner
  obtain ⟨failure | done, middle⟩ := prepared
  · exact inner
  · dsimp only at inner ⊢
    split
    · rename_i wrote
      exact wellFormed_write inner wrote
    · exact inner

/-- What was stored is stored again without a change, as long as it is there. -/
theorem store_of_find (stored : disk.store path text tree = (.ok (), after))
    (keeps : after.KeepsDirectories later) (wellFormed : later.WellFormed)
    (finds : later.find path = .ok (file text.toUTF8)) :
    disk.store path text later = (.ok (), later) := by
  obtain ⟨middle, prepared, wrote⟩ := store_eq_ok.mp stored
  have keeps := (keepsDirectories_of_write wrote).trans keeps
  exact store_eq_ok.mpr ⟨later, prepare_of_keeps prepared keeps, write_eq_self wellFormed finds⟩

end FileTree

end JackCompiler
