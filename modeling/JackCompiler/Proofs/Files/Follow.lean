import JackCompiler.Proofs.Outcome
import JackCompiler.Proofs.Files.Path
import JackCompiler.Proofs.Files.Lookup

/-!
# Paths in a tree of files

Following a path leads to a place of the tree, the one that the pieces of the path name
(`Place.Of.follow`). To write a file changes what is seen at the location of the path, and so does
making a directory (`sight?_write`, `sight?_makeDirectory`). A path is followed along directories
only, so as long as these stay, it leads where it led before (`Place.follow_of_keeps`), and a file
that was written is found (`find_of_write`).
-/

set_option autoImplicit false

namespace JackCompiler

/-! ## Following a path -/

/-- Whether a place is one of a tree, with the right way to it. -/
inductive Place.Of (tree : FileTree) : Place → Prop
  | top : Of tree ⟨[], tree⟩
  | entry {way : List (String × FileTree)} {entries : List (String × FileTree)} {name : String}
      {found : FileTree} (outer : Of tree ⟨way, .directory entries⟩)
      (present : entries.lookup name = some found) :
      Of tree ⟨(name, .directory entries) :: way, found⟩

namespace Place

variable {tree tree' : FileTree} {place place' next : Place} {pieces : List String}

theorem Of.at?_names (of : Of tree place) : tree.at? place.names = some place.here := by
  induction of with
  | top => rfl
  | @entry way entries name found outer present ih =>
    have longer : names ⟨(name, .directory entries) :: way, found⟩ =
        names ⟨way, .directory entries⟩ ++ [name] := by simp [names]
    rw [longer, FileTree.at?_append, ih, Option.bind_some, FileTree.at?, present]
    rfl

theorem Of.above (of : Of tree place) : Of tree place.above := by
  cases of with
  | top => exact .top
  | entry outer present => exact outer

/-- Around a directory there is a directory. -/
theorem Of.exists_directory_above (of : Of tree place) (here : place.here.sight = .directory) :
    ∃ entries, place.above.here = .directory entries := by
  cases of with
  | top =>
    cases tree with
    | file content => cases here
    | directory entries => exact ⟨entries, rfl⟩
  | @entry way entries name found outer present => exact ⟨entries, rfl⟩

/-- The place of an entry. -/
theorem Of.inside {entries : List (String × FileTree)} {name : String} {found : FileTree}
    (of : Of tree place) (here : place.here = .directory entries)
    (present : entries.lookup name = some found) :
    Of tree ⟨(name, place.here) :: place.way, found⟩ := by
  obtain ⟨way, _⟩ := place
  subst here
  exact .entry of present

theorem names_inside (name : String) (found : FileTree) :
    names ⟨(name, place.here) :: place.way, found⟩ = place.names ++ [name] := by
  simp [names]

theorem names_above (place : Place) : place.above.names = place.names.dropLast := by
  obtain ⟨way, here⟩ := place
  cases way <;> simp [Place.above, names]

/-- The entry of a directory that has no too long a name. -/
theorem entry_eq_ok {entries : List (String × FileTree)} {name : String} :
    place.entry entries name = .ok next ↔ ¬ maxNameBytes < name.utf8ByteSize ∧
      ∃ found, entries.lookup name = some found ∧
        next = ⟨(name, place.here) :: place.way, found⟩ := by
  unfold entry
  split
  · simp [*]
  · cases entries.lookup name with
    | none => simp [*]
    | some found => simp [*, eq_comm]

theorem entry_eq_notFound {entries : List (String × FileTree)} {name : String} :
    place.entry entries name = .error .notFound ↔
      ¬ maxNameBytes < name.utf8ByteSize ∧ entries.lookup name = none := by
  unfold entry
  split
  · simp [*]
  · cases entries.lookup name <;> simp [*]

/-- One piece of a path leads to a place of the tree, and it is the place that the names say. -/
theorem follow_cons_eq_ok {piece : String} :
    place.follow (piece :: pieces) = .ok next ↔
      ∃ entries, place.here = .directory entries ∧ ∃ middle, middle.follow pieces = .ok next ∧
        if piece = "" ∨ piece = "." then middle = place
        else if piece = ".." then middle = place.above
        else place.entry entries piece = .ok middle := by
  rw [follow]
  cases place.here with
  | file content => simp
  | directory entries =>
    simp only [FileTree.directory.injEq, exists_eq_left']
    split
    · simp
    · split
      · simp
      · rw [except_bind_eq_ok]
        simp only [and_comm]

theorem follow_append (pieces later : List String) :
    place.follow (pieces ++ later) = place.follow pieces >>= fun next => next.follow later := by
  induction pieces generalizing place with
  | nil => rfl
  | cons piece rest ih =>
    rw [List.cons_append, follow, follow]
    cases place.here with
    | file content => rfl
    | directory entries =>
      dsimp only
      split
      · exact ih
      · split
        · exact ih
        · cases place.entry entries piece with
          | error error => rfl
          | ok middle => exact ih

/-- A path leads to a place of the tree: the one that its pieces name. -/
theorem Of.follow (of : Of tree place) (leads : place.follow pieces = .ok next) :
    Of tree next ∧ next.names = pieces.foldl namesBehind place.names := by
  induction pieces generalizing place with
  | nil =>
    obtain rfl : place = next := Except.ok.inj leads
    exact ⟨of, rfl⟩
  | cons piece rest ih =>
    obtain ⟨entries, here, middle, leads, step⟩ := follow_cons_eq_ok.mp leads
    rw [List.foldl_cons, namesBehind]
    split at step
    · rename_i stays
      rw [if_pos stays]
      exact ih (step ▸ of) (step ▸ leads)
    · rename_i moves
      rw [if_neg moves]
      split at step
      · rename_i up
        rw [if_pos up, ← names_above]
        exact ih (step ▸ of.above) (step ▸ leads)
      · rename_i down
        obtain ⟨-, found, present, rfl⟩ := entry_eq_ok.mp step
        rw [if_neg down, ← names_inside piece found]
        exact ih (of.inside here present) leads

/-- A path that ends at a directory begins at one. -/
theorem isDirectory_of_follow (leads : place.follow pieces = .ok next)
    (ends : next.here.sight = .directory) : place.here.sight = .directory := by
  cases pieces with
  | nil =>
    obtain rfl : place = next := Except.ok.inj leads
    exact ends
  | cons piece rest =>
    obtain ⟨entries, here, -⟩ := follow_cons_eq_ok.mp leads
    rw [here]
    rfl

/-- What is a directory in a tree is one in a tree that keeps the directories. -/
theorem Of.exists_directory (keeps : tree.KeepsDirectories tree') (of : Of tree place)
    (of' : Of tree' place') (same : place.names = place'.names)
    (here : place.here.sight = .directory) : ∃ entries', place'.here = .directory entries' := by
  have seen : tree.sight? place.names = some .directory := by
    rw [FileTree.sight?, of.at?_names, Option.map_some, here]
  obtain ⟨entries', found⟩ := FileTree.sight?_eq_directory.mp (keeps _ seen)
  rw [same, of'.at?_names, Option.some.injEq] at found
  exact ⟨entries', found⟩

/-- A path to a directory leads there still in a tree that has the same directories, or more. -/
theorem follow_of_keeps (keeps : tree.KeepsDirectories tree')
    (of : Of tree place) (of' : Of tree' place') (same : place.names = place'.names)
    (leads : place.follow pieces = .ok next) (ends : next.here.sight = .directory) :
    ∃ next', place'.follow pieces = .ok next' := by
  induction pieces generalizing place place' with
  | nil => exact ⟨place', rfl⟩
  | cons piece rest ih =>
    obtain ⟨entries', here'⟩ :=
      of.exists_directory keeps of' same (isDirectory_of_follow leads ends)
    obtain ⟨entries, here, middle, leads, step⟩ := follow_cons_eq_ok.mp leads
    by_cases stays : piece = "" ∨ piece = "."
    · rw [if_pos stays] at step
      obtain ⟨next', leads'⟩ := ih of of' same (step ▸ leads)
      exact ⟨next', follow_cons_eq_ok.mpr ⟨entries', here', place', leads', by rw [if_pos stays]⟩⟩
    rw [if_neg stays] at step
    by_cases up : piece = ".."
    · rw [if_pos up] at step
      have same : place.above.names = place'.above.names := by rw [names_above, names_above, same]
      obtain ⟨next', leads'⟩ := ih of.above of'.above same (step ▸ leads)
      exact ⟨next', follow_cons_eq_ok.mpr
        ⟨entries', here', place'.above, leads', by rw [if_neg stays, if_pos up]⟩⟩
    · rw [if_neg up] at step
      obtain ⟨short, found, present, rfl⟩ := entry_eq_ok.mp step
      have below : tree.sight? (place.names ++ [piece]) = some .directory := by
        rw [FileTree.sight?, FileTree.at?_snoc (of.at?_names.trans (congrArg some here)), present,
          Option.map_some, isDirectory_of_follow leads ends]
      obtain ⟨inner, present'⟩ := FileTree.sight?_eq_directory.mp (keeps _ below)
      rw [same, FileTree.at?_snoc (of'.at?_names.trans (congrArg some here'))] at present'
      have step' : place'.entry entries' piece =
          .ok ⟨(piece, place'.here) :: place'.way, .directory inner⟩ :=
        entry_eq_ok.mpr ⟨short, _, present', rfl⟩
      obtain ⟨next', leads'⟩ := ih (of.inside here present) (of'.inside here' present')
        (by rw [names_inside, names_inside, same]) leads
      exact ⟨next', follow_cons_eq_ok.mpr
        ⟨entries', here', _, leads', by rw [if_neg stays, if_neg up]; exact step'⟩⟩

end Place

/-! ## Writing a file and making a directory -/

namespace FileTree

variable {tree after later : FileTree} {path : Path} {holder : Place}
  {entries : List (String × FileTree)} {name : String} {content : ByteArray}

theorem eq_pieces_of_admitted {pieces : List String} (admitted : path.admitted = .ok pieces) :
    pieces = path.pieces := by
  unfold Path.admitted at admitted
  split at admitted
  · cases admitted
  · split at admitted
    · cases admitted
    · split at admitted
      · cases admitted
      · exact (Except.ok.inj admitted).symm

/-- What is found at a path stands at its location. -/
theorem at?_location_of_find {found : FileTree} (finds : tree.find path = .ok found) :
    tree.at? path.location = some found := by
  obtain ⟨pieces, admitted, finds⟩ := except_bind_eq_ok.mp finds
  obtain rfl := eq_pieces_of_admitted admitted
  obtain ⟨place, leads, here⟩ := except_bind_eq_ok.mp finds
  obtain rfl : place.here = found := Except.ok.inj here
  obtain ⟨of, names⟩ := Place.Of.top.follow leads
  rw [← of.at?_names, names]
  rfl

/-- What is to be at a path is an entry of a directory of the tree. -/
theorem findHolder_eq_ok :
    tree.findHolder path = .ok (holder, entries, name) ↔ path.admitted = .ok path.pieces ∧
      Place.follow ⟨[], tree⟩ path.pieces.dropLast = .ok holder ∧ holder.here = directory entries ∧
      name = path.lastPiece := by
  have last : path.pieces.getLast?.getD "" = path.lastPiece := by
    rw [List.getLast?_eq_some_getLast path.pieces_ne_nil, Option.getD_some, Path.lastPiece]
  unfold findHolder
  rw [except_bind_eq_ok, ← last]
  constructor
  · rintro ⟨pieces, admitted, found⟩
    obtain rfl := eq_pieces_of_admitted admitted
    obtain ⟨place, leads, found⟩ := except_bind_eq_ok.mp found
    split at found
    · cases found
    · rename_i entries' here
      cases found
      exact ⟨admitted, leads, here, rfl⟩
  · rintro ⟨admitted, leads, here, rfl⟩
    refine ⟨path.pieces, admitted, except_bind_eq_ok.mpr ⟨holder, leads, ?_⟩⟩
    rw [here]
    rfl

/-- A path whose last piece is a name leads to the entry of that name. -/
theorem location_of_findHolder (found : tree.findHolder path = .ok (holder, entries, name))
    (proper : isDots name = false) : path.location = holder.names ++ [name] := by
  obtain ⟨-, leads, -, rfl⟩ := findHolder_eq_ok.mp found
  have along : holder.names = path.pieces.dropLast.foldl namesBehind [] :=
    (Place.Of.top.follow leads).2
  calc path.location
      = (path.pieces.dropLast ++ [path.lastPiece]).foldl namesBehind [] :=
        congrArg (List.foldl namesBehind []) path.pieces_eq_dropLast_append
    _ = namesBehind holder.names path.lastPiece := by
        rw [List.foldl_append, ← along, List.foldl_cons, List.foldl_nil]
    _ = _ := namesBehind_of_not_isDots proper

theorem at?_of_findHolder (found : tree.findHolder path = .ok (holder, entries, name)) :
    tree.at? holder.names = some (directory entries) := by
  obtain ⟨-, leads, here, -⟩ := findHolder_eq_ok.mp found
  rw [(Place.Of.top.follow leads).1.at?_names, here]

/-- What stands at the name that is written to is a file, if anything. -/
theorem exists_of_write (wrote : tree.write path content = .ok after) :
    ∃ holder entries name, tree.findHolder path = .ok (holder, entries, name) ∧
      isDots name = false ∧ ¬ maxNameBytes < name.utf8ByteSize ∧
      (∀ old, entries.lookup name = some old → ∃ content, old = file content) ∧
      after = tree.modify (setEntry name (file content)) holder.names := by
  unfold write at wrote
  obtain ⟨⟨holder, entries, name⟩, found, wrote⟩ := except_bind_eq_ok.mp wrote
  dsimp only at wrote
  split at wrote
  · cases wrote
  rename_i proper
  refine ⟨holder, entries, name, found, by simpa using proper, ?_⟩
  split at wrote
  · cases wrote
  · rename_i place noDirectory looked
    obtain ⟨short, old, present, rfl⟩ := Place.entry_eq_ok.mp looked
    refine ⟨short, fun old' present' => ?_, (Except.ok.inj wrote).symm⟩
    obtain rfl : old = old' := Option.some.inj (present.symm.trans present')
    cases old with
    | directory inner => exact absurd rfl (noDirectory _ inner)
    | file before => exact ⟨before, rfl⟩
  · rename_i looked
    obtain ⟨short, missing⟩ := Place.entry_eq_notFound.mp looked
    refine ⟨short, fun old present => ?_, (Except.ok.inj wrote).symm⟩
    rw [missing] at present
    cases present
  · cases wrote

theorem isDots_lastPiece_of_write (wrote : tree.write path content = .ok after) :
    isDots path.lastPiece = false := by
  obtain ⟨holder, entries, name, found, proper, -⟩ := exists_of_write wrote
  obtain ⟨-, -, -, rfl⟩ := findHolder_eq_ok.mp found
  exact proper

/-- Nothing stands at the name of a directory that is made. -/
theorem exists_of_makeDirectory (made : tree.makeDirectory path = .ok after) :
    ∃ holder entries name, tree.findHolder path = .ok (holder, entries, name) ∧
      isDots name = false ∧ ¬ maxNameBytes < name.utf8ByteSize ∧ entries.lookup name = none ∧
      after = tree.modify (setEntry name empty) holder.names := by
  unfold makeDirectory at made
  obtain ⟨⟨holder, entries, name⟩, found, made⟩ := except_bind_eq_ok.mp made
  dsimp only at made
  split at made
  · cases made
  rename_i proper
  refine ⟨holder, entries, name, found, by simpa using proper, ?_⟩
  split at made
  · cases made
  · rename_i looked
    obtain ⟨short, missing⟩ := Place.entry_eq_notFound.mp looked
    exact ⟨short, missing, (Except.ok.inj made).symm⟩
  · cases made

/-- Writing changes what is seen at the location of the path, and nothing else. -/
theorem sight?_write (wrote : tree.write path content = .ok after) (names : List String) :
    after.sight? names =
      if names = path.location then some (.file content) else tree.sight? names := by
  obtain ⟨holder, entries, name, found, proper, -, files, rfl⟩ := exists_of_write wrote
  rw [location_of_findHolder found proper]
  refine sight?_put (at?_of_findHolder found) (bare_file content) fun old present => ?_
  obtain ⟨content, rfl⟩ := files old present
  exact bare_file content

/-- No directory is written over. -/
theorem sight?_ne_directory_of_write (wrote : tree.write path content = .ok after) :
    tree.sight? path.location ≠ some .directory := by
  obtain ⟨holder, entries, name, found, proper, -, files, rfl⟩ := exists_of_write wrote
  intro seen
  obtain ⟨inner, present⟩ := sight?_eq_directory.mp seen
  rw [location_of_findHolder found proper, at?_snoc (at?_of_findHolder found)] at present
  obtain ⟨content, same⟩ := files _ present
  cases same

theorem keepsDirectories_of_write (wrote : tree.write path content = .ok after) :
    tree.KeepsDirectories after := by
  intro names seen
  rw [sight?_write wrote, if_neg, seen]
  rintro rfl
  exact sight?_ne_directory_of_write wrote seen

/-- A path that leads to an entry of a directory leads to what stands at its location, as long as
the directories stay. -/
theorem find_of_findHolder (found : tree.findHolder path = .ok (holder, entries, name))
    (proper : isDots name = false) (short : ¬ maxNameBytes < name.utf8ByteSize)
    (keeps : tree.KeepsDirectories later) {here : FileTree}
    (stands : later.at? path.location = some here) : later.find path = .ok here := by
  have location := location_of_findHolder found proper
  obtain ⟨admitted, leads, isDirectory, named⟩ := findHolder_eq_ok.mp found
  have ends : holder.here.sight = .directory := by rw [isDirectory]; rfl
  obtain ⟨holder', leads'⟩ := Place.follow_of_keeps keeps .top .top rfl leads ends
  obtain ⟨of', names'⟩ := Place.Of.top.follow leads'
  have same : holder'.names = holder.names := names'.trans (Place.Of.top.follow leads).2.symm
  -- The holder of the entry is a directory still, and what stands there is one of its entries.
  obtain ⟨entries', here'⟩ :=
    (Place.Of.top.follow leads).1.exists_directory keeps of' same.symm ends
  have present : entries'.lookup name = some here := by
    rw [← at?_snoc (of'.at?_names.trans (congrArg some here')), same, ← location]
    exact stands
  have last : holder'.follow [name] = .ok ⟨(name, holder'.here) :: holder'.way, here⟩ := by
    obtain ⟨moves, down⟩ := isDots_eq_false.mp proper
    refine Place.follow_cons_eq_ok.mpr ⟨entries', here', _, rfl, ?_⟩
    rw [if_neg moves, if_neg down]
    exact Place.entry_eq_ok.mpr ⟨short, _, present, rfl⟩
  have whole : Place.follow ⟨[], later⟩ path.pieces =
      .ok ⟨(name, holder'.here) :: holder'.way, here⟩ := by
    rw [path.pieces_eq_dropLast_append, ← named, Place.follow_append, leads']
    exact last
  rw [find, admitted]
  show (Place.follow ⟨[], later⟩ path.pieces >>= _) = _
  rw [whole]
  rfl

/-- A path to which a file was written leads to what is seen at its location, as long as the
directories stay. -/
theorem find_of_write (wrote : tree.write path content = .ok after)
    (keeps : tree.KeepsDirectories later) {content' : ByteArray}
    (seen : later.sight? path.location = some (.file content')) :
    later.find path = .ok (file content') := by
  obtain ⟨holder, entries, name, found, proper, short, -, -⟩ := exists_of_write wrote
  exact find_of_findHolder found proper short keeps (sight?_eq_file.mp seen)

/-- A path leads to an entry of a directory, or it ends with dots, which lead to a directory. -/
theorem exists_holder_of_find {here : FileTree} (finds : tree.find path = .ok here) :
    ∃ holder entries, tree.findHolder path = .ok (holder, entries, path.lastPiece) ∧
      (isDots path.lastPiece = true ∧ here.sight = .directory ∨
        isDots path.lastPiece = false ∧
          ∃ place, holder.entry entries path.lastPiece = .ok place ∧ place.here = here) := by
  obtain ⟨pieces, admitted, finds⟩ := except_bind_eq_ok.mp finds
  obtain rfl := eq_pieces_of_admitted admitted
  obtain ⟨place, whole, found⟩ := except_bind_eq_ok.mp finds
  have found : place.here = here := Except.ok.inj found
  rw [path.pieces_eq_dropLast_append, Place.follow_append] at whole
  obtain ⟨holder, leads, last⟩ := except_bind_eq_ok.mp whole
  obtain ⟨entries, isDirectory, middle, ends, step⟩ := Place.follow_cons_eq_ok.mp last
  obtain rfl : middle = place := Except.ok.inj ends
  refine ⟨holder, entries, findHolder_eq_ok.mpr ⟨admitted, leads, isDirectory, rfl⟩, ?_⟩
  rw [isDots_eq_false, ← Bool.not_eq_false, isDots_eq_false]
  split at step
  · rename_i stays
    rw [← found, step, isDirectory]
    exact .inl ⟨fun proper => proper.1 stays, rfl⟩
  · rename_i moves
    split at step
    · rename_i up
      obtain ⟨outer, isOuter⟩ :=
        (Place.Of.top.follow leads).1.exists_directory_above (by rw [isDirectory]; rfl)
      rw [← found, step, isOuter]
      exact .inl ⟨fun proper => proper.2 up, rfl⟩
    · rename_i down
      exact .inr ⟨⟨moves, down⟩, middle, step, found⟩

/-- A path that leads to a file ends with the name of an entry. -/
theorem exists_entry_of_find (finds : tree.find path = .ok (file content)) :
    ∃ holder entries place, tree.findHolder path = .ok (holder, entries, path.lastPiece) ∧
      isDots path.lastPiece = false ∧ holder.entry entries path.lastPiece = .ok place ∧
      place.here = file content := by
  obtain ⟨holder, entries, found, ⟨-, isDirectory⟩ | ⟨proper, place, step, here⟩⟩ :=
    exists_holder_of_find finds
  · cases isDirectory
  · exact ⟨holder, entries, place, found, proper, step, here⟩

/-- A file is found under the same path as long as it and the directories stay. -/
theorem find_file_of_keeps {content' : ByteArray} (finds : tree.find path = .ok (file content))
    (keeps : tree.KeepsDirectories later)
    (seen : later.sight? path.location = some (.file content')) :
    later.find path = .ok (file content') := by
  obtain ⟨holder, entries, place, found, proper, step, -⟩ := exists_entry_of_find finds
  exact find_of_findHolder found proper (Place.entry_eq_ok.mp step).1 keeps (sight?_eq_file.mp seen)

/-- A directory is found under the same path as long as the directories stay. -/
theorem find_directory_of_keeps (finds : tree.find path = .ok (directory entries))
    (keeps : tree.KeepsDirectories later) :
    ∃ entries', later.find path = .ok (directory entries') := by
  obtain ⟨pieces, admitted, finds⟩ := except_bind_eq_ok.mp finds
  obtain ⟨place, leads, found⟩ := except_bind_eq_ok.mp finds
  have ends : place.here.sight = .directory := by rw [Except.ok.inj found]; rfl
  obtain ⟨place', leads'⟩ := Place.follow_of_keeps keeps .top .top rfl leads ends
  obtain ⟨of, names⟩ := Place.Of.top.follow leads
  obtain ⟨of', names'⟩ := Place.Of.top.follow leads'
  obtain ⟨entries', here'⟩ := of.exists_directory keeps of' (names.trans names'.symm) ends
  refine ⟨entries', except_bind_eq_ok.mpr ⟨pieces, admitted, ?_⟩⟩
  exact except_bind_eq_ok.mpr ⟨place', leads', congrArg Except.ok here'⟩

/-- Making a directory changes what is seen at the location of the path, where there was nothing. -/
theorem sight?_makeDirectory (made : tree.makeDirectory path = .ok after) (names : List String) :
    after.sight? names =
      if names = path.location then some .directory else tree.sight? names := by
  obtain ⟨holder, entries, name, found, proper, -, missing, rfl⟩ := exists_of_makeDirectory made
  rw [location_of_findHolder found proper]
  refine sight?_put (at?_of_findHolder found) bare_empty fun old present => ?_
  rw [missing] at present
  cases present

theorem sight?_eq_none_of_makeDirectory (made : tree.makeDirectory path = .ok after) :
    tree.sight? path.location = none := by
  obtain ⟨holder, entries, name, found, proper, -, missing, rfl⟩ := exists_of_makeDirectory made
  rw [location_of_findHolder found proper, sight?, at?_snoc (at?_of_findHolder found), missing]
  rfl

end FileTree

end JackCompiler
