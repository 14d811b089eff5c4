import JackCompiler.Files.Source
import JackCompiler.Proofs.Files.Follow

/-!
# Walks through a tree of files

In a file system the entries of a directory have different names, none of which is dots or holds a
slash (`FileTree.WellFormed`). Then a walk comes to everything that is seen in the tree
(`mem_walk`) and to no place twice (`pairwise_walk`), and the same holds of the sources that are
collected on the way (`exists_of_mem_collectSources`, `pairwise_collectSources`).
-/

set_option autoImplicit false

namespace JackCompiler

namespace FileTree

/-- Induction on a tree of files. -/
@[induction_eliminator]
theorem induct {motive : FileTree → Prop} (file : ∀ content, motive (.file content))
    (directory : ∀ entries, (∀ entry ∈ entries, motive entry.2) → motive (.directory entries))
    (tree : FileTree) : motive tree :=
  @FileTree.rec motive (fun entries => ∀ entry ∈ entries, motive entry.2)
    (fun entry => motive entry.2) file directory (by simp)
    (fun _ _ head tail => List.forall_mem_cons.mpr ⟨head, tail⟩) (fun _ _ tree => tree) tree

/-- Whether a tree can be one of a file system. -/
inductive WellFormed : FileTree → Prop
  | file (content : ByteArray) : WellFormed (file content)
  | directory {entries : List (String × FileTree)} (areNames : ∀ entry ∈ entries, IsName entry.1)
      (distinct : (entries.map (·.1)).Nodup) (inner : ∀ entry ∈ entries, WellFormed entry.2) :
      WellFormed (directory entries)

/-- What stands in a well-formed tree is well-formed. -/
theorem WellFormed.at? {tree found : FileTree} {names : List String} (wellFormed : tree.WellFormed)
    (stands : tree.at? names = some found) : found.WellFormed := by
  induction names generalizing tree with
  | nil => exact Option.some.inj stands ▸ wellFormed
  | cons name later ih =>
    cases wellFormed with
    | file content => cases stands
    | @directory entries areNames distinct inner =>
      obtain ⟨entry, present, stands⟩ := Option.bind_eq_some_iff.mp stands
      exact ih (inner _ (mem_of_lookup present)) stands

/-- Only names lead to what stands in a well-formed tree. -/
theorem WellFormed.areNames_of_sight? {tree : FileTree} {names : List String} {sight : Sight}
    (wellFormed : tree.WellFormed) (seen : tree.sight? names = some sight) :
    ∀ name ∈ names, IsName name := by
  induction names generalizing tree with
  | nil => nofun
  | cons name later ih =>
    cases wellFormed with
    | file content => cases seen
    | @directory entries areNames distinct inner =>
      obtain ⟨found, stands, look⟩ := Option.map_eq_some_iff.mp seen
      obtain ⟨entry, present, stands⟩ := Option.bind_eq_some_iff.mp stands
      have present := mem_of_lookup present
      refine List.forall_mem_cons.mpr ⟨areNames _ present, ih (inner _ present) ?_⟩
      rw [sight?, stands, Option.map_some, look]

/-! ## Walking -/

/-- The path of a stop. -/
def Stop.path : Stop → Path
  | file path _ => path
  | directory path => path

/-- The entries of a directory in the order of their names. -/
def sortedEntries (entries : List (String × FileTree)) : List (String × FileTree) :=
  entries.mergeSort fun a b => decide (a.1 ≤ b.1)

theorem sortedEntries_perm (entries : List (String × FileTree)) :
    (sortedEntries entries).Perm entries := List.mergeSort_perm _ _

theorem walkEntries_eq_map (path : Path) (entries : List (String × FileTree)) :
    walkEntries path entries =
      entries.map fun entry => (entry.1, entry.2.walk (path.join ⟨entry.1⟩)) := by
  induction entries with
  | nil => rfl
  | cons entry later ih => rw [walkEntries, ih, List.map_cons]

/-- A directory comes first, and then its entries in their order. -/
theorem walk_directory (path : Path) (entries : List (String × FileTree)) :
    walk path (directory entries) = .directory path ::
      (sortedEntries entries).flatMap fun entry => entry.2.walk (path.join ⟨entry.1⟩) := by
  have sorted : ((walkEntries path entries).mergeSort fun a b => decide (a.1 ≤ b.1)) =
      (sortedEntries entries).map fun entry => (entry.1, entry.2.walk (path.join ⟨entry.1⟩)) := by
    rw [walkEntries_eq_map, sortedEntries]
    symm
    apply List.map_mergeSort
    intros
    rfl
  rw [walk, sorted, List.flatMap_map]

/-- The stop of a walk that comes to something to see. -/
def Stop.ofSight (path : Path) : Sight → Stop
  | .file content => .file path content
  | .directory => .directory path

theorem Stop.path_ofSight (path : Path) (sight : Sight) : (ofSight path sight).path = path := by
  cases sight <;> rfl

/-- A walk comes to everything that is seen in a tree, and to nothing else. -/
theorem mem_walk {tree : FileTree} {root : Path} {stop : Stop} (wellFormed : tree.WellFormed) :
    stop ∈ tree.walk root ↔
      ∃ names sight, tree.sight? names = some sight ∧ stop = .ofSight (root.below names) sight := by
  induction tree generalizing root with
  | file content =>
    rw [walk, List.mem_singleton]
    constructor
    · rintro rfl
      exact ⟨[], .file content, rfl, rfl⟩
    · rintro ⟨names, sight, seen, rfl⟩
      cases names with
      | nil => cases seen; rfl
      | cons name later => cases seen
  | directory entries ih =>
    cases wellFormed with
    | directory areNames distinct inner =>
      rw [walk_directory, List.mem_cons, List.mem_flatMap]
      constructor
      · rintro (rfl | ⟨entry, present, among⟩)
        · exact ⟨[], .directory, rfl, rfl⟩
        · have present := (sortedEntries_perm entries).mem_iff.mp present
          obtain ⟨names, sight, seen, rfl⟩ := (ih entry present (inner entry present)).mp among
          refine ⟨entry.1 :: names, sight, ?_, rfl⟩
          rw [sight?, at?, lookup_of_mem distinct present]
          exact seen
      · rintro ⟨names, sight, seen, rfl⟩
        cases names with
        | nil => cases seen; exact .inl rfl
        | cons name later =>
          obtain ⟨found, stands, look⟩ := Option.map_eq_some_iff.mp seen
          obtain ⟨entry, present, stands⟩ := Option.bind_eq_some_iff.mp stands
          have present := mem_of_lookup present
          refine .inr ⟨(name, entry), (sortedEntries_perm entries).mem_iff.mpr present, ?_⟩
          refine (ih (name, entry) present (inner _ present)).mpr ⟨later, sight, ?_, rfl⟩
          rw [sight?, stands, Option.map_some, look]

/-- No two stops of a walk lead to one place. -/
theorem pairwise_walk {tree : FileTree} {root : Path} (wellFormed : tree.WellFormed) :
    (tree.walk root).Pairwise fun one two => one.path.location ≠ two.path.location := by
  induction tree generalizing root with
  | file content => exact List.pairwise_singleton _ _
  | directory entries ih =>
    cases wellFormed with
    | directory areNames distinct inner =>
      -- The stops beneath an entry are reached through its name.
      have beneath {entry : String × FileTree} {stop : Stop} (present : entry ∈ entries)
          (among : stop ∈ entry.2.walk (root.join ⟨entry.1⟩)) :
          ∃ names, stop.path.location = root.location ++ entry.1 :: names := by
        obtain ⟨names, sight, seen, rfl⟩ := (mem_walk (inner entry present)).mp among
        have proper := (inner entry present).areNames_of_sight? seen
        refine ⟨names, ?_⟩
        rw [Stop.path_ofSight, Path.location_below proper,
          Path.location_join (areNames entry present), List.append_assoc, List.singleton_append]
      have sorted {entry : String × FileTree} (present : entry ∈ sortedEntries entries) :
          entry ∈ entries := (sortedEntries_perm entries).mem_iff.mp present
      rw [walk_directory, List.pairwise_cons, List.pairwise_flatMap]
      refine ⟨fun stop among => ?_, fun entry present => ?_, ?_⟩
      · obtain ⟨entry, present, among⟩ := List.mem_flatMap.mp among
        obtain ⟨names, reached⟩ := beneath (sorted present) among
        intro same
        rw [reached] at same
        exact List.cons_ne_nil _ _ (List.self_eq_append_right.mp same)
      · exact ih entry (sorted present) (inner entry (sorted present))
      · have apart : (sortedEntries entries).Pairwise fun one two => one.1 ≠ two.1 :=
          ((sortedEntries_perm entries).pairwise_iff fun unequal => unequal.symm).mpr
            (List.pairwise_map.mp distinct)
        refine apart.imp_of_mem fun present present' unequal stop among stop' among' => ?_
        obtain ⟨names, reached⟩ := beneath (sorted present) among
        obtain ⟨names', reached'⟩ := beneath (sorted present') among'
        rw [reached, reached']
        intro same
        exact unequal (List.cons.inj (List.append_cancel_left same)).1

end FileTree

/-! ## Collecting sources -/

open FileTree

/-- The file name of a source ends with the extension of sources. -/
theorem splitExtension_of_isSource {path : Path} {name : String} (isName : IsName name)
    (isSource : (path.join ⟨name⟩).isSource = true) :
    (Path.splitExtension name.toList).2 = some sourceExtension.toList := by
  have ends : (Path.splitExtension name.toList).2.map String.ofList = some sourceExtension := by
    simpa [Path.isSource, Path.extension?, Path.fileName?_join isName] using isSource
  obtain ⟨extension, found, written⟩ := Option.map_eq_some_iff.mp ends
  rw [found, ← written, String.toList_ofList]

/-- Whether a path is that of a source which some names and a last one lead to from another path. -/
structure Path.IsSourceBelow (path root : Path) (names : List String) (name : String) : Prop where
  areNames : ∀ name ∈ names, IsName name
  isName : IsName name
  eq_join : path = (root.below names).join ⟨name⟩
  extension : (Path.splitExtension name.toList).2 = some sourceExtension.toList

theorem Path.IsSourceBelow.location_eq {path root : Path} {names : List String} {name : String}
    (source : path.IsSourceBelow root names name) :
    path.location = root.location ++ names ++ [name] := by
  rw [source.eq_join, Path.location_join source.isName, Path.location_below source.areNames]

/-- Whether a stop is a file that is to be read. -/
def FileTree.Stop.isSource : Stop → Bool
  | .file path _ => path.isSource
  | .directory _ => false

/-- What is read at a stop of a walk: nothing, or one source. -/
def FileTree.Stop.read : Stop → Except SourceError (List SourceFile)
  | .directory path => if path.isTooLong then .error (.opening path .nameTooLong) else .ok []
  | .file path content =>
    if path.isSource then do
      let source ← SourceFile.ofContent path content
      pure [source]
    else .ok []

theorem path_of_ofContent {path : Path} {content : ByteArray} {source : SourceFile}
    (read : SourceFile.ofContent path content = .ok source) : source.path = path := by
  unfold SourceFile.ofContent at read
  split at read
  · cases read
  · split at read
    · cases read
      rfl
    · cases read

section Along

variable {stop : Stop} {stops later : List Stop} {here sources : List SourceFile}
  {source : SourceFile}

/-- A source that is read at a stop is the file that stands there. -/
theorem mem_of_read (reads : stop.read = .ok here) : source ∈ here ↔
    ∃ path content, stop = .file path content ∧ path.isSource = true ∧
      SourceFile.ofContent path content = .ok source := by
  cases stop with
  | directory path =>
    rw [Stop.read] at reads
    split at reads
    · cases reads
    · cases reads
      simp
  | file path content =>
    rw [Stop.read] at reads
    split at reads
    · rename_i isSource
      obtain ⟨own, read, eq⟩ := except_bind_eq_ok.mp reads
      obtain rfl : [own] = here := Except.ok.inj eq
      rw [List.mem_singleton]
      constructor
      · rintro rfl
        exact ⟨path, content, rfl, isSource, read⟩
      · rintro ⟨_, _, ⟨⟩, -, read'⟩
        exact Except.ok.inj (read'.symm.trans read)
    · rename_i noSource
      cases reads
      simp [noSource]

theorem paths_of_read (reads : stop.read = .ok here) :
    here.map (·.path) = ([stop].filter Stop.isSource).map Stop.path := by
  cases stop with
  | directory path =>
    rw [Stop.read] at reads
    split at reads
    · cases reads
    · cases reads
      rfl
  | file path content =>
    rw [Stop.read] at reads
    split at reads
    · rename_i isSource
      obtain ⟨own, read, eq⟩ := except_bind_eq_ok.mp reads
      obtain rfl : [own] = here := Except.ok.inj eq
      rw [List.filter_cons_of_pos (show Stop.isSource (.file path content) from isSource),
        List.map_singleton, path_of_ofContent read]
      rfl
    · rename_i noSource
      cases reads
      rw [List.filter_cons_of_neg (show ¬ Stop.isSource (.file path content) from noSource)]
      rfl

/-- The stops are read one after the other. -/
theorem result_sourcesAlong_cons (stop : Stop) (later : List Stop) :
    (sourcesAlong (stop :: later)).result =
      stop.read >>= fun here => (sourcesAlong later).result.map (here ++ ·) := by
  cases stop with
  | directory path =>
    rw [sourcesAlong, Stop.read]
    split
    · rfl
    · cases (sourcesAlong later).result <;> rfl
  | file path content =>
    rw [sourcesAlong, Stop.read]
    split
    · rw [Logged.result_bind, Logged.result_liftM]
      cases SourceFile.ofContent path content with
      | error error => rfl
      | ok source => exact Logged.result_bind _ _
    · rw [Logged.result_bind, Logged.result_report]
      show (sourcesAlong later).result = _
      cases (sourcesAlong later).result <;> rfl

theorem sourcesAlong_cons_eq_ok :
    (sourcesAlong (stop :: later)).result = .ok sources ↔ ∃ here more, stop.read = .ok here ∧
      (sourcesAlong later).result = .ok more ∧ sources = here ++ more := by
  rw [result_sourcesAlong_cons, except_bind_eq_ok]
  cases (sourcesAlong later).result <;> simp [Except.map, eq_comm]

/-- The sources on the way are the files that are to be read, in their order. -/
theorem paths_of_sourcesAlong (collected : (sourcesAlong stops).result = .ok sources) :
    sources.map (·.path) = (stops.filter Stop.isSource).map Stop.path := by
  induction stops generalizing sources with
  | nil =>
    cases collected
    rfl
  | cons stop later ih =>
    obtain ⟨here, more, reads, along, rfl⟩ := sourcesAlong_cons_eq_ok.mp collected
    rw [← List.singleton_append, List.filter_append, List.map_append, List.map_append,
      paths_of_read reads, ih along]

/-- A walk can be finished exactly if it can go on at each stop. -/
theorem exists_sourcesAlong_iff : (∃ sources, (sourcesAlong stops).result = .ok sources) ↔
    ∀ stop ∈ stops, ∃ here, stop.read = .ok here := by
  induction stops with
  | nil => exact ⟨nofun, fun _ => ⟨[], rfl⟩⟩
  | cons stop later ih =>
    rw [List.forall_mem_cons, ← ih]
    constructor
    · rintro ⟨sources, collected⟩
      obtain ⟨here, more, reads, along, -⟩ := sourcesAlong_cons_eq_ok.mp collected
      exact ⟨⟨here, reads⟩, more, along⟩
    · rintro ⟨⟨here, reads⟩, more, along⟩
      exact ⟨_, sourcesAlong_cons_eq_ok.mpr ⟨here, more, reads, along, rfl⟩⟩

/-- What is collected is read at one of the stops. -/
theorem mem_of_sourcesAlong (collected : (sourcesAlong stops).result = .ok sources) :
    source ∈ sources ↔ ∃ path content, Stop.file path content ∈ stops ∧ path.isSource = true ∧
      SourceFile.ofContent path content = .ok source := by
  induction stops generalizing sources with
  | nil =>
    cases collected
    simp
  | cons stop later ih =>
    obtain ⟨here, more, reads, along, rfl⟩ := sourcesAlong_cons_eq_ok.mp collected
    simp only [List.mem_append, mem_of_read reads, ih along, List.mem_cons, or_and_right, exists_or,
      eq_comm]

end Along

/-- At a file, no other source is collected. -/
theorem collectSources_file_eq_ok {path : Path} {content : ByteArray}
    {sources : List SourceFile} :
    (collectSources path (.ok (.file content))).result = .ok sources ↔
      path.isSource = true ∧ (∃ source, SourceFile.ofContent path content = .ok source ∧
        sources = [source]) ∨ path.isSource = false ∧ sources = [] := by
  rw [collectSources]
  split
  · rename_i isSource
    simp only [isSource, true_and, reduceCtorEq, false_and, or_false, Logged.result_bind_eq_ok,
      Logged.result_liftM, Logged.result_pure_eq_ok]
  · rename_i noSource
    have noSource : path.isSource = false := by simpa using noSource
    simp only [noSource, reduceCtorEq, false_and, false_or, true_and, Logged.result_bind_eq_ok,
      Logged.result_report, Logged.result_pure_eq_ok, exists_const]

theorem eq_nil_or_singleton_of_collectSources {path : Path} {content : ByteArray}
    {sources : List SourceFile}
    (collected : (collectSources path (.ok (.file content))).result = .ok sources) :
    sources = [] ∨ ∃ source, source.path = path ∧ sources = [source] := by
  rcases collectSources_file_eq_ok.mp collected with ⟨-, source, read, rfl⟩ | ⟨-, rfl⟩
  · exact .inr ⟨source, path_of_ofContent read, rfl⟩
  · exact .inl rfl

/-- What is collected at a directory: the sources on the walk through it, in the order of their
paths. -/
theorem result_collectSources_directory (path : Path) (entries : List (String × FileTree)) :
    (collectSources path (.ok (.directory entries))).result =
      (sourcesAlong ((directory entries).walk path)).result.map fun along =>
        along.mergeSort fun a b => a.path.le b.path := by
  unfold collectSources
  rw [Logged.result_bind]
  cases (sourcesAlong ((directory entries).walk path)).result <;> rfl

/-- Sources that a walk comes to in their order are collected as they are. -/
theorem collectSources_of_sorted {path : Path} {entries : List (String × FileTree)}
    {sources : List SourceFile}
    (along : (sourcesAlong ((directory entries).walk path)).result = .ok sources)
    (sorted : sources.Pairwise fun one two => one.path.le two.path = true) :
    (collectSources path (.ok (.directory entries))).result = .ok sources := by
  rw [result_collectSources_directory, along, Except.map, List.mergeSort_of_pairwise sorted]

theorem exists_of_collectSources {path : Path} {entries : List (String × FileTree)}
    {sources : List SourceFile}
    (collected : (collectSources path (.ok (.directory entries))).result = .ok sources) :
    ∃ along, (sourcesAlong ((directory entries).walk path)).result = .ok along ∧
      sources = along.mergeSort fun a b => a.path.le b.path := by
  rw [result_collectSources_directory] at collected
  cases reads : (sourcesAlong ((directory entries).walk path)).result with
  | error error =>
    rw [reads] at collected
    cases collected
  | ok along =>
    rw [reads] at collected
    exact ⟨along, rfl, (Except.ok.inj collected).symm⟩

section Collected

variable {path : Path} {entries : List (String × FileTree)} {sources : List SourceFile}

/-- A source beneath a directory is reached from it by names, and stands where they lead. -/
theorem exists_of_mem_collectSources (wellFormed : (directory entries).WellFormed)
    (collected : (collectSources path (.ok (.directory entries))).result = .ok sources)
    {source : SourceFile} (among : source ∈ sources) :
    ∃ names name, source.path.IsSourceBelow path names name ∧
      ∃ content, (directory entries).sight? (names ++ [name]) = some (.file content) := by
  obtain ⟨along, reads, rfl⟩ := exists_of_collectSources collected
  obtain ⟨there, content, onWalk, isSource, read⟩ :=
    (mem_of_sourcesAlong reads).mp (List.mem_mergeSort.mp among)
  obtain ⟨names, sight, seen, eq⟩ := (mem_walk wellFormed).mp onWalk
  cases sight with
  | directory => cases eq
  | file content' =>
    cases eq
    rcases List.eq_nil_or_concat names with rfl | ⟨names, name, rfl⟩
    · cases seen
    · rw [List.concat_eq_append] at seen read isSource
      have areNames := wellFormed.areNames_of_sight? seen
      rw [List.forall_mem_append, List.forall_mem_singleton] at areNames
      have reached := path_of_ofContent read
      rw [Path.below_concat] at reached isSource
      exact ⟨names, name, ⟨areNames.1, areNames.2, reached,
        splitExtension_of_isSource areNames.2 isSource⟩, content, seen⟩

/-- The sources on a walk stand in different places. -/
theorem pairwise_sourcesAlong {found : FileTree} (wellFormed : found.WellFormed)
    (along : (sourcesAlong (found.walk path)).result = .ok sources) :
    sources.Pairwise fun one two => one.path.location ≠ two.path.location := by
  have walked : (sources.map (·.path)).Pairwise fun one two => one.location ≠ two.location := by
    rw [paths_of_sourcesAlong along, List.pairwise_map]
    exact (pairwise_walk wellFormed).filter _
  rwa [List.pairwise_map] at walked

/-- The sources beneath a directory stand in different places. -/
theorem pairwise_collectSources (wellFormed : (directory entries).WellFormed)
    (collected : (collectSources path (.ok (.directory entries))).result = .ok sources) :
    sources.Pairwise fun one two => one.path.location ≠ two.path.location := by
  obtain ⟨along, reads, rfl⟩ := exists_of_collectSources collected
  exact ((List.mergeSort_perm along _).pairwise_iff fun unequal => unequal.symm).mpr
    (pairwise_sourcesAlong wellFormed reads)

end Collected

end JackCompiler
