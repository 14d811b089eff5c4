import JackCompiler.Proofs.Files.Order
import JackCompiler.Proofs.Files.Slash
import JackCompiler.Proofs.Files.Walk

/-!
# Walks in the order of paths

A walk goes from a directory to its entries in the order of their names, and paths are ordered step
by step. The two orders agree: each path on a walk comes before the next ones (`ascending_walk`), so
sorting the sources that were found on the way changes nothing. A walk can only be stopped by a
directory that cannot be opened or a source that cannot be read (`exists_read_iff`).
-/

set_option autoImplicit false

namespace JackCompiler

open FileTree

/-! ## Which path comes first -/

/-- Whether a path comes strictly before another one. -/
def Path.Before (one two : Path) : Prop := one.le two = true ∧ two.le one = false

namespace Component

variable {a b : Component} {as bs : List Component}

/-- Steps that two lists begin with do not matter to their order. -/
theorem listLe_append (steps as bs : List Component) :
    listLe (steps ++ as) (steps ++ bs) = listLe as bs := by
  induction steps with
  | nil => rfl
  | cons step later ih => rw [List.cons_append, List.cons_append, listLe, if_pos rfl, ih]

theorem listLe_cons_of_ne (unequal : a ≠ b) : listLe (a :: as) (b :: bs) = a.le b := by
  rw [listLe, if_neg unequal]

end Component

section Below

variable {root : Path} {name name' : String} {names names' : List String}

/-- A directory comes before what is beneath it. -/
theorem Path.before_below (areNames : ∀ name ∈ names, IsName name) (nonempty : names ≠ []) :
    root.Before (root.below names) := by
  obtain ⟨name, later, rfl⟩ := List.exists_cons_of_ne_nil nonempty
  have first := Component.listLe_append root.components [] ((name :: later).map .normal)
  have second := Component.listLe_append root.components ((name :: later).map .normal) []
  rw [List.append_nil] at first second
  rw [Before, le, le, components_below areNames, first, second]
  exact ⟨rfl, rfl⟩

/-- What is beneath one entry comes before what is beneath an entry with a greater name. -/
theorem Path.below_before_below (areNames : ∀ step ∈ name :: names, IsName step)
    (areNames' : ∀ step ∈ name' :: names', IsName step) (less : name < name') :
    (root.below (name :: names)).Before (root.below (name' :: names')) := by
  have unequal : name ≠ name' := String.ne_of_lt less
  have unequal' : Component.normal name ≠ .normal name' := mt Component.normal.inj unequal
  rw [Before, le, le, components_below areNames, components_below areNames',
    Component.listLe_append, Component.listLe_append, List.map_cons, List.map_cons,
    Component.listLe_cons_of_ne unequal', Component.listLe_cons_of_ne unequal'.symm, Component.le,
    Component.le, decide_eq_true_eq, decide_eq_false_iff_not]
  have notGreater := String.not_le.mpr less
  exact ⟨(String.le_total name name').resolve_right notGreater, notGreater⟩

end Below

namespace FileTree

/-- The entries of a directory with different names are sorted strictly. -/
theorem pairwise_sortedEntries {entries : List (String × FileTree)}
    (distinct : (entries.map (·.1)).Nodup) :
    (sortedEntries entries).Pairwise fun one two => one.1 < two.1 := by
  have sorted : (sortedEntries entries).Pairwise fun one two => decide (one.1 ≤ two.1) = true := by
    apply List.pairwise_mergeSort
    · intro one two three first second
      rw [decide_eq_true_eq] at first second ⊢
      exact String.le_trans first second
    · intro one two
      simpa using String.le_total one.1 two.1
  have apart : (sortedEntries entries).Pairwise fun one two => one.1 ≠ two.1 :=
    ((sortedEntries_perm entries).pairwise_iff fun unequal => unequal.symm).mpr
      (List.pairwise_map.mp distinct)
  refine (sorted.and apart).imp fun both => ?_
  rw [decide_eq_true_eq] at both
  apply String.not_le.mp
  intro notLess
  exact both.2 (String.le_antisymm both.1 notLess)

/-- Each path on a walk comes before the next ones. -/
theorem ascending_walk {tree : FileTree} (wellFormed : tree.WellFormed) (root : Path) :
    (tree.walk root).Pairwise fun one two => one.path.Before two.path := by
  induction tree generalizing root with
  | file content => exact List.pairwise_singleton _ _
  | directory entries ih =>
    cases wellFormed with
    | directory areNames distinct inner =>
      have sorted {entry : String × FileTree} (present : entry ∈ sortedEntries entries) :
          entry ∈ entries := (sortedEntries_perm entries).mem_iff.mp present
      -- the stops beneath an entry are reached through its name
      have beneath {entry : String × FileTree} {stop : Stop}
          (present : entry ∈ sortedEntries entries)
          (among : stop ∈ entry.2.walk (root.join ⟨entry.1⟩)) :
          ∃ names, (∀ step ∈ entry.1 :: names, IsName step) ∧
            stop.path = root.below (entry.1 :: names) := by
        have present := sorted present
        obtain ⟨names, sight, seen, rfl⟩ := (mem_walk (inner entry present)).mp among
        have proper := (inner entry present).areNames_of_sight? seen
        exact ⟨names, List.forall_mem_cons.mpr ⟨areNames entry present, proper⟩,
          Stop.path_ofSight _ _⟩
      rw [walk_directory, List.pairwise_cons, List.pairwise_flatMap]
      refine ⟨fun stop among => ?_, fun entry present => ?_, ?_⟩
      · obtain ⟨entry, present, among⟩ := List.mem_flatMap.mp among
        obtain ⟨names, proper, eq⟩ := beneath present among
        rw [eq]
        exact Path.before_below proper (List.cons_ne_nil _ _)
      · exact ih entry (sorted present) (inner entry (sorted present)) _
      · apply (pairwise_sortedEntries distinct).imp_of_mem
        intro one two present present' less stop among stop' among'
        obtain ⟨names, proper, eq⟩ := beneath present among
        obtain ⟨names', proper', eq'⟩ := beneath present' among'
        rw [eq, eq']
        exact Path.below_before_below proper proper' less

end FileTree

/-! ## What stops a walk -/

/-- Whether what is seen at a path is in the way of a search: a directory whose path is too long to
be opened, or a source that cannot be read because its path is too long or it is no text. -/
def Sight.Obstructs (path : Path) : Sight → Prop
  | .directory => path.isTooLong = true
  | .file content =>
    path.isSource = true ∧ (path.isTooLong = true ∨ String.fromUTF8? content = none)

instance (path : Path) : (sight : Sight) → Decidable (sight.Obstructs path)
  | .directory => inferInstanceAs (Decidable (path.isTooLong = true))
  | .file content => inferInstanceAs (Decidable (path.isSource = true ∧
      (path.isTooLong = true ∨ String.fromUTF8? content = none)))

theorem ofContent_eq_ok {path : Path} {content : ByteArray} {source : SourceFile} :
    SourceFile.ofContent path content = .ok source ↔ path.isTooLong = false ∧
      source.path = path ∧ String.fromUTF8? content = some source.contents := by
  unfold SourceFile.ofContent
  cases path.isTooLong with
  | true => simp
  | false =>
    rw [if_neg Bool.false_ne_true]
    cases String.fromUTF8? content with
    | none => simp
    | some contents =>
      obtain ⟨path', contents'⟩ := source
      simp [eq_comm]

/-- A walk goes on at everything that does not obstruct it. -/
theorem exists_read_iff (path : Path) (sight : Sight) :
    (∃ here, (Stop.ofSight path sight).read = .ok here) ↔ ¬ sight.Obstructs path := by
  cases sight with
  | directory =>
    rw [Stop.ofSight, Stop.read, Sight.Obstructs]
    cases path.isTooLong <;> simp
  | file content =>
    rw [Stop.ofSight, Stop.read, Sight.Obstructs]
    cases path.isSource with
    | false => simp
    | true =>
      rw [if_pos rfl]
      cases long : path.isTooLong with
      | true => simp [SourceFile.ofContent, long, bind, Except.bind]
      | false =>
        cases text : String.fromUTF8? content with
        | none => simp [SourceFile.ofContent, long, text, bind, Except.bind]
        | some contents =>
          simp [SourceFile.ofContent, long, text, bind, Except.bind, pure, Except.pure]

/-- A walk can be finished exactly if nothing that is seen in the tree obstructs it. -/
theorem exists_sourcesAlong_walk_iff {tree : FileTree} (wellFormed : tree.WellFormed)
    (root : Path) : (∃ sources, (sourcesAlong (tree.walk root)).result = .ok sources) ↔
      ∀ names sight, tree.sight? names = some sight → ¬ sight.Obstructs (root.below names) := by
  rw [exists_sourcesAlong_iff]
  constructor
  · intro goesOn names sight seen
    apply (exists_read_iff _ _).mp
    exact goesOn _ ((mem_walk wellFormed).mpr ⟨names, sight, seen, rfl⟩)
  · intro clear stop among
    obtain ⟨names, sight, seen, rfl⟩ := (mem_walk wellFormed).mp among
    exact (exists_read_iff _ _).mpr (clear names sight seen)

/-! ## What a walk finds -/

/-- Whether a stop is a file that is not to be read. -/
def FileTree.Stop.isOther : Stop → Bool
  | .file path _ => !path.isSource
  | .directory _ => false

/-- Exactly the files that are not to be read are reported, in their order. -/
theorem events_sourcesAlong {stops : List Stop} {sources : List SourceFile}
    (collected : (sourcesAlong stops).result = .ok sources) :
    (sourcesAlong stops).events = ((stops.filter Stop.isOther).map Stop.path).map .skipped := by
  induction stops generalizing sources with
  | nil => rfl
  | cons stop later ih =>
    obtain ⟨here, more, reads, along, -⟩ := sourcesAlong_cons_eq_ok.mp collected
    have behind := ih along
    cases stop with
    | directory path =>
      rw [Stop.read] at reads
      split at reads
      · cases reads
      · rename_i short
        rw [sourcesAlong, if_neg short, behind]
        rfl
    | file path content =>
      rw [sourcesAlong]
      rw [Stop.read] at reads
      split at reads
      · rename_i isSource
        obtain ⟨source, read, -⟩ := except_bind_eq_ok.mp reads
        have noOther : ¬ Stop.isOther (.file path content) = true := by
          simp [Stop.isOther, isSource]
        rw [if_pos isSource, read, List.filter_cons_of_neg noOther, ← behind]
        show [] ++ ((sourcesAlong later) >>= fun more => pure (source :: more)).events = _
        rw [Logged.events_bind, along]
        exact List.append_nil _
      · rename_i noSource
        have other : Stop.isOther (.file path content) = true := by
          simpa [Stop.isOther] using noSource
        rw [if_neg noSource, List.filter_cons_of_pos other, List.map_cons, List.map_cons, ← behind]
        rfl

/-- What a search finds in a directory: the sources and the other files, those that are seen and no
others, each once and in the order of their paths. The walk comes to them in that order. -/
structure FileTree.Yields (searched : FileTree) (root : Path) (sources : List SourceFile)
    (others : List Path) : Prop where
  mem_sources : ∀ path contents, ⟨path, contents⟩ ∈ sources ↔ ∃ names content,
    searched.sight? names = some (.file content) ∧ path = root.below names ∧
      path.isSource = true ∧ String.fromUTF8? content = some contents
  mem_others : ∀ path, path ∈ others ↔ ∃ names content,
    searched.sight? names = some (.file content) ∧ path = root.below names ∧ path.isSource = false
  ascending : sources.Pairwise fun one two => one.path.Before two.path
  ascending_others : others.Pairwise Path.Before
  along : sources.map (·.path) = ((searched.walk root).filter Stop.isSource).map Stop.path
  along_others : others = ((searched.walk root).filter Stop.isOther).map Stop.path

theorem yields_of_sourcesAlong {tree : FileTree} {root : Path} {sources : List SourceFile}
    (wellFormed : tree.WellFormed)
    (collected : (sourcesAlong (tree.walk root)).result = .ok sources) :
    tree.Yields root sources (((tree.walk root).filter Stop.isOther).map Stop.path) where
  mem_sources path contents := by
    have clear := (exists_sourcesAlong_walk_iff wellFormed root).mp ⟨sources, collected⟩
    rw [mem_of_sourcesAlong collected]
    constructor
    · rintro ⟨there, content, among, isSource, read⟩
      obtain ⟨-, rfl, text⟩ := ofContent_eq_ok.mp read
      obtain ⟨names, ⟨content'⟩ | _, seen, ⟨⟩⟩ := (mem_walk wellFormed).mp among
      exact ⟨names, content, seen, rfl, isSource, text⟩
    · rintro ⟨names, content, seen, rfl, isSource, text⟩
      have among : Stop.file (root.below names) content ∈ tree.walk root :=
        (mem_walk wellFormed).mpr ⟨names, _, seen, rfl⟩
      have short : (root.below names).isTooLong = false := by
        apply Bool.eq_false_iff.mpr
        intro long
        exact clear names _ seen ⟨isSource, .inl long⟩
      exact ⟨_, content, among, isSource, ofContent_eq_ok.mpr ⟨short, rfl, text⟩⟩
  mem_others path := by
    rw [List.mem_map]
    constructor
    · rintro ⟨stop, among, rfl⟩
      rw [List.mem_filter, mem_walk wellFormed] at among
      obtain ⟨⟨names, ⟨content⟩ | _, seen, rfl⟩, other⟩ := among
      · exact ⟨names, content, seen, rfl, by
          simpa [Stop.ofSight, Stop.isOther, Stop.path] using other⟩
      · cases other
    · rintro ⟨names, content, seen, rfl, noSource⟩
      refine ⟨.file (root.below names) content, ?_, rfl⟩
      rw [List.mem_filter, mem_walk wellFormed]
      exact ⟨⟨names, _, seen, rfl⟩, by simp [Stop.isOther, noSource]⟩
  ascending := by
    have walked := (ascending_walk wellFormed root).filter Stop.isSource
    rw [← List.pairwise_map (f := Stop.path), ← paths_of_sourcesAlong collected,
      List.pairwise_map] at walked
    exact walked
  ascending_others := List.pairwise_map.mpr ((ascending_walk wellFormed root).filter _)
  along := paths_of_sourcesAlong collected
  along_others := rfl

section Search

variable {tree : FileTree} {root : Path} {entries : List (String × FileTree)}

/-- What a search reports it reports on its walk. -/
theorem events_collectSources_directory (path : Path) (entries : List (String × FileTree)) :
    (collectSources path (.ok (.directory entries))).events =
      (sourcesAlong ((directory entries).walk path)).events := by
  unfold collectSources
  rw [Logged.events_bind]
  cases (sourcesAlong ((directory entries).walk path)).result <;> simp

theorem exists_error_of_obstructs (wellFormed : (directory entries).WellFormed)
    {names : List String} {sight : Sight} (seen : (directory entries).sight? names = some sight)
    (obstructs : sight.Obstructs (root.below names)) :
    ∃ error, (collectSources root (.ok (.directory entries))).result = .error error := by
  rw [result_collectSources_directory]
  cases collected : (sourcesAlong ((directory entries).walk root)).result with
  | error error => exact ⟨error, rfl⟩
  | ok sources =>
    have clear := (exists_sourcesAlong_walk_iff wellFormed root).mp ⟨sources, collected⟩
    exact absurd obstructs (clear names sight seen)

/-- Collecting the sources at a directory finds all of them, and sorting them changes nothing. It
fails exactly if something beneath the directory is in its way. -/
theorem collectSources_finds (wellFormed : tree.WellFormed)
    (found : tree.find root = .ok (.directory entries)) :
    ((∀ names sight, (directory entries).sight? names = some sight →
          ¬ sight.Obstructs (root.below names)) →
        ∃ sources others, (collectSources root (tree.find root)).result = .ok sources ∧
          (collectSources root (tree.find root)).events = others.map .skipped ∧
          (directory entries).Yields root sources others ∧
          (sourcesAlong ((directory entries).walk root)).result = .ok sources) ∧
      ∀ names sight, (directory entries).sight? names = some sight →
        sight.Obstructs (root.below names) →
        ∃ error, (collectSources root (tree.find root)).result = .error error := by
  have wellFormed : (directory entries).WellFormed := wellFormed.at? (at?_location_of_find found)
  rw [found]
  refine ⟨fun clear => ?_, fun names sight seen => exists_error_of_obstructs wellFormed seen⟩
  obtain ⟨sources, collected⟩ := (exists_sourcesAlong_walk_iff wellFormed root).mpr clear
  have yields := yields_of_sourcesAlong wellFormed collected
  refine ⟨sources, _, collectSources_of_sorted collected ?_, ?_, yields, collected⟩
  · exact yields.ascending.imp And.left
  · rw [events_collectSources_directory, events_sourcesAlong collected]

end Search

section Seen

variable {P : List String → Sight → Prop}

/-- What holds of a file holds of everything that is seen of it. -/
theorem FileTree.forall_sight_file {content : ByteArray} (here : P [] (.file content)) :
    ∀ names sight, (file content).sight? names = some sight → P names sight := by
  rintro (_ | ⟨name, names⟩) sight seen
  · cases seen
    exact here
  · cases seen

/-- What holds of a directory and of everything that is seen of its entries holds of everything that
is seen of it. -/
theorem FileTree.forall_sight_directory {entries : List (String × FileTree)}
    (here : P [] .directory)
    (inner : ∀ entry ∈ entries, ∀ names sight, entry.2.sight? names = some sight →
      P (entry.1 :: names) sight) :
    ∀ names sight, (directory entries).sight? names = some sight → P names sight := by
  rintro (_ | ⟨name, names⟩) sight seen
  · cases seen
    exact here
  · obtain ⟨found, stands, look⟩ := Option.map_eq_some_iff.mp seen
    obtain ⟨entry, present, stands⟩ := Option.bind_eq_some_iff.mp stands
    apply inner _ (mem_of_lookup present)
    rw [sight?, stands, Option.map_some, look]

end Seen

/-- Beneath `d` the source in `a` comes before `a-b.jack`, although a hyphen comes before a
slash. -/
theorem collectSources_finds_nestedSource :
    let nested : FileTree := .directory [("c.jack", .file "class C".toUTF8)]
    let searched : FileTree :=
      .directory [("a-b.jack", .file "class B".toUTF8), ("a", nested), ("n.txt", .file ⟨#[255]⟩)]
    let tree : FileTree := .directory [("d", searched)]
    tree.WellFormed ∧ tree.find ⟨"d"⟩ = .ok searched ∧
      ∃ (sources : List SourceFile) (others : List Path),
        (collectSources ⟨"d"⟩ (tree.find ⟨"d"⟩)).result = .ok sources ∧
        (collectSources ⟨"d"⟩ (tree.find ⟨"d"⟩)).events = others.map .skipped ∧
        ⟨⟨"d/a/c.jack"⟩, "class C"⟩ ∈ sources ∧ ⟨⟨"d/a-b.jack"⟩, "class B"⟩ ∈ sources ∧
        ⟨"d/n.txt"⟩ ∈ others := by
  intro nested searched tree
  have isFile (content : ByteArray) : (FileTree.file content).WellFormed := .file content
  have wellFormed : tree.WellFormed := by
    have inner : nested.WellFormed :=
      .directory (by decide +kernel) (by simp) (by simp [isFile])
    have middle : searched.WellFormed :=
      .directory (by decide +kernel) (by decide +kernel) (by simp [isFile, inner])
    exact .directory (by decide +kernel) (by simp) (by simp [middle])
  have found : tree.find ⟨"d"⟩ = .ok searched := rfl
  let Passes (names : List String) (sight : Sight) : Prop :=
    ¬ sight.Obstructs ((⟨"d"⟩ : Path).below names)
  have clear : ∀ names sight, searched.sight? names = some sight → Passes names sight := by
    have source : Passes ["a-b.jack"] (.file "class B".toUTF8) := by decide +kernel
    have inner : ∀ names sight, nested.sight? names = some sight → Passes ("a" :: names) sight := by
      refine forall_sight_directory (P := fun names => Passes ("a" :: names)) (by decide +kernel)
        (List.forall_mem_singleton.mpr (forall_sight_file ?_))
      decide +kernel
    have other : Passes ["n.txt"] (.file ⟨#[255]⟩) := by decide +kernel
    refine forall_sight_directory (P := Passes) (by decide +kernel) ?_
    rw [List.forall_mem_cons, List.forall_mem_cons, List.forall_mem_singleton]
    exact ⟨forall_sight_file source, inner, forall_sight_file other⟩
  obtain ⟨sources, others, collected, events, yields, -⟩ :=
    (collectSources_finds wellFormed found).1 clear
  refine ⟨wellFormed, found, sources, others, collected, events, ?_, ?_, ?_⟩
  · exact (yields.mem_sources _ _).mpr ⟨["a", "c.jack"], _, rfl, by decide +kernel,
      by decide +kernel, by decide +kernel⟩
  · exact (yields.mem_sources _ _).mpr ⟨["a-b.jack"], _, rfl, by decide +kernel,
      by decide +kernel, by decide +kernel⟩
  · exact (yields.mem_others _).mpr ⟨["n.txt"], _, rfl, by decide +kernel, by decide +kernel⟩

/-- A source whose path is one byte too long because of slashes behind the path of the searched
directory. -/
theorem collectSources_slashed :
    let searched : FileTree := .directory [("A.jack", .file "class A \x7b \x7d".toUTF8)]
    let tree : FileTree := .directory [("s", searched)]
    tree.WellFormed ∧ tree.find (slashed 4089) = .ok searched ∧
      (∀ names content, searched.sight? names = some (.file content) →
        ∃ contents, String.fromUTF8? content = some contents) ∧
      ∃ error,
        (collectSources (slashed 4089) (tree.find (slashed 4089))).result = .error error := by
  obtain ⟨count, many, full⟩ : ∃ count, 4089 = count + 1 ∧ count + 7 = maxPathBytes :=
    ⟨4088, rfl, rfl⟩
  rw [many]
  intro searched tree
  have wellFormed : searched.WellFormed :=
    .directory (by decide +kernel) (by simp) (by simp [WellFormed.file])
  have found : tree.find (slashed (count + 1)) = .ok searched := find_slashed (by omega) rfl
  have isName : IsName "A.jack" := by decide +kernel
  have isSource : ((slashed (count + 1)).join ⟨"A.jack"⟩).isSource = true := by
    rw [Path.isSource, Path.extension?, Path.fileName?_join isName]
    decide +kernel
  have long : ((slashed (count + 1)).join ⟨"A.jack"⟩).isTooLong = true := by
    have size : "A.jack".utf8ByteSize = 6 := by decide
    rw [Path.isTooLong, utf8ByteSize_join_slashed rfl, decide_eq_true_eq, size]
    omega
  have seen : searched.sight? ["A.jack"] = some (.file "class A \x7b \x7d".toUTF8) := rfl
  have isText : String.fromUTF8? "class A \x7b \x7d".toUTF8 = some "class A \x7b \x7d" := by
    decide +kernel
  refine ⟨.directory (by decide +kernel) (by simp) (by simpa using wellFormed), found, ?_, ?_⟩
  · intro names content file
    have onlyText : ∀ names sight, searched.sight? names = some sight →
        ∀ content, sight = .file content →
          ∃ contents, String.fromUTF8? content = some contents := by
      refine forall_sight_directory ?_ (List.forall_mem_singleton.mpr (forall_sight_file ?_))
      · rintro _ ⟨⟩
      · rintro _ ⟨⟩
        exact ⟨_, isText⟩
    exact onlyText names _ file content rfl
  · rw [found]
    exact exists_error_of_obstructs wellFormed seen ⟨isSource, .inl long⟩

end JackCompiler
