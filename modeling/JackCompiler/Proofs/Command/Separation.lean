import JackCompiler.Proofs.Command.Prefix
import JackCompiler.Proofs.Files.Stem

/-!
# Outputs, sources and other outputs

Whether the searched path is a directory or a single file, the output of a source keeps the stem of
the source, and below an output directory the directories that lead to it (`Options.Mirrors`). Its
extension is another one than that of sources, so no path of a source leads to it. A source has
nowhere to go exactly if its stem is a dot (`hasPlace_iff`). So a run leaves every source as it was,
and every output that it has written (`destinations_apart`).
-/

set_option autoImplicit false

namespace JackCompiler

open FileTree

/-- The stem of the file name of a path. -/
def Path.stem? (path : Path) : Option String :=
  path.fileName?.map fun name => String.ofList (Path.splitExtension name.toList).1

/-- The directories that lead from a path down to another one that begins with it. -/
def Path.directoriesBelow? (path base : Path) : Option (List Component) :=
  (path.relativeTo? base).map fun place => place.components.dropLast

namespace Path

variable {path root : Path} {names : List String} {name : String}

theorem components_ofSteps (areNames : ∀ name ∈ names, IsName name) :
    (ofSteps (names.map .normal)).components = names.map .normal := by
  by_cases nonempty : names = []
  · rw [nonempty]
    rfl
  · have joined : (Path.mk "").join (ofSteps (names.map .normal)) = (Path.mk "").below names :=
      join_ofSteps areNames nonempty
    have same : (Path.mk "").join (ofSteps (names.map .normal)) = ofSteps (names.map .normal) := by
      obtain ⟨first, later, rfl⟩ := List.exists_cons_of_ne_nil nonempty
      rw [List.forall_mem_cons] at areNames
      refine eq_of_toList ?_
      rw [text_join _ (isAbsolute_ofSteps areNames.1 later)]
      rfl
    rw [← same, joined, components_below areNames]
    rfl

/-- The directories below a path that lead to a name. -/
theorem directoriesBelow?_join (areNames : ∀ name ∈ names, IsName name) (isName : IsName name) :
    ((root.below names).join ⟨name⟩).directoriesBelow? root = some (names.map .normal) := by
  have all : ∀ part ∈ names ++ [name], IsName part :=
    List.forall_mem_append.mpr ⟨areNames, List.forall_mem_singleton.mpr isName⟩
  rw [directoriesBelow?, ← below_concat, relativeTo?_below all, Option.map_some,
    components_ofSteps all, List.map_append]
  simp

/-- A file is found under a path that ends with a name of its own. -/
theorem exists_eq_join_of_find {tree : FileTree} {content : ByteArray}
    (finds : tree.find path = .ok (.file content)) (isSource : path.isSource = true) :
    ∃ root, path.IsSourceBelow root [] path.lastPiece := by
  obtain ⟨holder, entries, place, -, proper, -⟩ := exists_entry_of_find finds
  have isName : IsName path.lastPiece := ⟨proper, path.plain_lastPiece⟩
  obtain ⟨before, eq⟩ := path.exists_eq_join
  rw [eq] at isSource
  exact ⟨before, by simp, isName, eq, splitExtension_of_isSource isName isSource⟩

end Path

namespace Options

variable {options : Options}

theorem long_extension : 2 ≤ options.extension.length ∧ '.' ∉ options.extension.toList ∧
    options.extension ≠ sourceExtension := by
  unfold extension
  split <;> decide

/-- Where a source stands and where its output goes: the same names lead to both, from the searched
path and from the output directory, or the source is the searched path itself. -/
structure Reaches (options : Options) (source root : Path) (names : List String) (name : String) :
    Prop where
  below : source.IsSourceBelow root names name
  destination_eq : options.destination source =
    ((options.outDir?.getD root).below names).join ⟨nameWithExtension name options.extension⟩
  directories : source.directoriesBelow? options.path = some (names.map .normal)

theorem reaches_of_below {source : Path} {names : List String} {name : String}
    (below : source.IsSourceBelow options.path names name) :
    options.Reaches source options.path names name where
  below := below
  destination_eq := destination_eq below
  directories := by rw [below.eq_join, Path.directoriesBelow?_join below.areNames below.isName]

/-- A source with nothing behind the searched path has its output called by its file name. -/
theorem reaches_of_nothing {source root : Path} {name : String}
    (below : source.IsSourceBelow root [] name)
    (nothing : source.relativeTo? options.path = some (Path.ofSteps [])) :
    options.Reaches source root [] name where
  below := below
  destination_eq := by
    have named : source.fileName? = some name := by
      rw [below.eq_join, Path.fileName?_join below.isName]
    unfold destination
    cases options.outDir? with
    | none =>
      rw [below.eq_join]
      exact Path.withExtension_join below.isName options.plain_extension
    | some directory =>
      rw [nothing, named]
      exact Path.withExtension_join below.isName options.plain_extension
  directories := by
    rw [Path.directoriesBelow?, nothing]
    rfl

/-- Every source of a run is reached from the searched path, or is what stands there. -/
theorem exists_reaches {tree : FileTree} {sources : List SourceFile}
    (wellFormed : tree.WellFormed)
    (collected : (collectSources options.path (tree.find options.path)).result = .ok sources)
    {source : SourceFile} (among : source ∈ sources) :
    ∃ root names name, options.Reaches source.path root names name := by
  cases finds : tree.find options.path with
  | error error =>
    rw [finds] at collected
    cases collected
  | ok found =>
    rw [finds] at collected
    cases found with
    | directory entries =>
      have inside := wellFormed.at? (at?_location_of_find finds)
      obtain ⟨names, name, below, -⟩ := exists_of_mem_collectSources inside collected among
      exact ⟨options.path, names, name, reaches_of_below below⟩
    | file content =>
      rcases collectSources_file_eq_ok.mp collected with ⟨isSource, own, read, rfl⟩ | ⟨-, rfl⟩
      · obtain rfl := List.mem_singleton.mp among
        obtain ⟨root, below⟩ := Path.exists_eq_join_of_find finds isSource
        have nothing : options.path.relativeTo? options.path = some (Path.ofSteps []) :=
          @Path.relativeTo?_below options.path [] (List.forall_mem_nil IsName)
        rw [path_of_ofContent read]
        exact ⟨root, [], _, reaches_of_nothing below nothing⟩
      · cases among

namespace Reaches

variable {source root : Path} {names : List String} {name : String}

theorem stem?_eq (reaches : options.Reaches source root names name) :
    source.stem? = some (String.ofList (Path.splitExtension name.toList).1) := by
  rw [Path.stem?, reaches.below.eq_join, Path.fileName?_join reaches.below.isName]
  rfl

theorem noDot_iff (reaches : options.Reaches source root names name) :
    source.stem? ≠ some "." ↔ (Path.splitExtension name.toList).1 ≠ ['.'] := by
  rw [reaches.stem?_eq, ne_eq, ne_eq, Option.some.injEq, ← String.toList_inj, String.toList_ofList]
  rfl

/-- A source has a place for its output exactly if its stem is no dot. -/
theorem hasPlace_iff (reaches : options.Reaches source root names name) :
    options.HasPlace source ↔ source.stem? ≠ some "." := by
  have plain := plain_nameWithExtension reaches.below.isName.plain options.plain_extension
  rw [HasPlace, reaches.destination_eq, Path.lastPiece_join plain, reaches.noDot_iff]
  constructor
  · intro proper dot
    have hasOld : (Path.splitExtension name.toList).2.isSome = true := by
      rw [reaches.below.extension]
      rfl
    unfold nameWithExtension at proper
    dsimp only at proper
    rw [if_pos ⟨dot, hasOld⟩] at proper
    cases proper
  · exact isDots_nameWithExtension long_extension.1

theorem isName_output (reaches : options.Reaches source root names name)
    (noDot : source.stem? ≠ some ".") : IsName (nameWithExtension name options.extension) where
  proper := isDots_nameWithExtension long_extension.1 (reaches.noDot_iff.mp noDot)
  plain := plain_nameWithExtension reaches.below.isName.plain options.plain_extension

/-- The file name of an output has the stem of the source and an extension of its own. -/
theorem splitExtension_output (reaches : options.Reaches source root names name)
    (noDot : source.stem? ≠ some ".") :
    Path.splitExtension (nameWithExtension name options.extension).toList =
      ((Path.splitExtension name.toList).1, some options.extension.toList) :=
  splitExtension_nameWithExtension options.extension_ne_empty long_extension.2.1
    reaches.below.extension (reaches.noDot_iff.mp noDot)

theorem fileName?_destination (reaches : options.Reaches source root names name)
    (noDot : source.stem? ≠ some ".") :
    (options.destination source).fileName? = some (nameWithExtension name options.extension) := by
  rw [reaches.destination_eq, Path.fileName?_join (reaches.isName_output noDot)]

end Reaches

/-- What an output has of its source: its stem, and below an output directory the directories that
lead to it. Its extension is its own. -/
structure Mirrors (options : Options) (source : Path) : Prop where
  stem : (options.destination source).stem? = source.stem?
  extension : (options.destination source).extension? = some options.extension
  directories : ∀ outDir, options.outDir? = some outDir →
    ∃ directories, source.directoriesBelow? options.path = some directories ∧
      (options.destination source).directoriesBelow? outDir = some directories

section Reached

variable {source root : Path} {names : List String} {name : String}

theorem Reaches.mirrors (reaches : options.Reaches source root names name)
    (noDot : source.stem? ≠ some ".") : options.Mirrors source where
  stem := by
    rw [reaches.stem?_eq, Path.stem?, reaches.fileName?_destination noDot, Option.map_some,
      reaches.splitExtension_output noDot]
  extension := by
    rw [Path.extension?, reaches.fileName?_destination noDot, Option.bind_some,
      reaches.splitExtension_output noDot, Option.map_some, String.ofList_toList]
  directories := by
    intro outDir given
    refine ⟨_, reaches.directories, ?_⟩
    rw [reaches.destination_eq, given, Option.getD_some,
      Path.directoriesBelow?_join reaches.below.areNames (reaches.isName_output noDot)]

/-- No path of a source leads to the place of an output: the names there end differently. -/
theorem Reaches.location_ne (reaches : options.Reaches source root names name)
    (noDot : source.stem? ≠ some ".") {other : Path} (isSource : other.isSource = true) :
    (options.destination source).location ≠ other.location := by
  intro same
  have ends : other.extension? = some sourceExtension := by simpa [Path.isSource] using isSource
  obtain ⟨own, named, ends⟩ := Option.bind_eq_some_iff.mp ends
  obtain ⟨front, eq⟩ := Path.exists_location_of_fileName? named
  obtain ⟨front', eq'⟩ :=
    Path.exists_location_of_fileName? (reaches.fileName?_destination noDot)
  rw [eq, eq'] at same
  have name : nameWithExtension name options.extension = own :=
    (List.cons.inj (List.append_inj' same rfl).2).1
  rw [← name, reaches.splitExtension_output noDot, Option.map_some, Option.some.injEq,
    String.ofList_toList] at ends
  exact long_extension.2.2 ends

end Reached

end Options

/-! ## Runs -/

variable {options : Options} {tree : FileTree} {sources : List SourceFile}

/-- Behind a run the tree is the one that the plan for its sources leaves behind. -/
theorem run_tree_eq {arguments : List String}
    (accepted : Request.ofArguments arguments = .compile options)
    (collected : (collectSources options.path (tree.find options.path)).result = .ok sources) :
    (run arguments tree).2 = (performSources options sources tree).2 := by
  rw [run_eq accepted, Plan.ofFound, collected]
  cases sources <;> rfl

/-- No source is written over, and no file comes where a source could be. -/
theorem sight?_source_iff {after : FileTree} {done : List (SourceFile × String)}
    (wellFormed : tree.WellFormed)
    (collected : (collectSources options.path (tree.find options.path)).result = .ok sources)
    (completes : options.Completes tree done after) (listed : ∀ pair ∈ done, pair.1 ∈ sources)
    {path : Path} (isSource : path.isSource = true) (content : ByteArray) :
    after.sight? path.location = some (.file content) ↔
      tree.sight? path.location = some (.file content) := by
  refine completes.sight?_eq_file (fun stores pair among => ?_) content
  obtain ⟨root, names, name, reaches⟩ :=
    Options.exists_reaches wellFormed collected (listed pair among)
  have noDot := reaches.hasPlace_iff.mp (completes.hasPlace stores pair among)
  exact (reaches.location_ne noDot isSource).symm

/-- The outputs of the sources that a run finds go to different places, each with the stem and the
directories of its source, and none to a place that a path of a source leads to. So a run leaves the
sources as they were, and the outputs that it has written. -/
theorem destinations_apart (options : Options) (tree : FileTree) (sources : List SourceFile)
    (wellFormed : tree.WellFormed)
    (collected : (collectSources options.path (tree.find options.path)).result = .ok sources) :
    (sources.Pairwise fun one two => one.path.stem? ≠ some "." → two.path.stem? ≠ some "." →
      (options.destination one.path).components ≠ (options.destination two.path).components ∧
        (options.destination one.path).location ≠ (options.destination two.path).location) ∧
    (∀ source ∈ sources, source.path.stem? ≠ some "." →
      options.Mirrors source.path ∧ (options.destination source.path).isSource = false ∧
        ∀ other : Path, other.isSource = true →
          (options.destination source.path).location ≠ other.location) ∧
    ∀ arguments, Request.ofArguments arguments = .compile options →
      (∀ path content, path.isSource = true → tree.find path = .ok (.file content) →
        (run arguments tree).2.find path = .ok (.file content)) ∧
      ∃ done rest middle, sources = done.map Prod.fst ++ rest ∧
        options.Completes tree done middle ∧
        (∀ source ∈ rest.head?, options.StopsAt middle source) ∧
        (options.toOutput = false → ∀ pair ∈ done, (run arguments tree).2.find
          (options.destination pair.1.path) = .ok (.file pair.2.toUTF8)) := by
  have apart := pairwise_of_find wellFormed collected
  have hasPlace {source : SourceFile} (among : source ∈ sources) :
      options.HasPlace source.path ↔ source.path.stem? ≠ some "." := by
    obtain ⟨root, names, name, reaches⟩ := Options.exists_reaches wellFormed collected among
    exact reaches.hasPlace_iff
  refine ⟨?_, ?_, ?_⟩
  · refine apart.imp_of_mem fun among among' different noDot noDot' => ?_
    have different := different ((hasPlace among).mpr noDot) ((hasPlace among').mpr noDot')
    refine ⟨fun same => different ?_, different⟩
    rw [Path.location_eq_foldl_components, same, ← Path.location_eq_foldl_components]
  · intro source among noDot
    obtain ⟨root, names, name, reaches⟩ := Options.exists_reaches wellFormed collected among
    have mirrors := reaches.mirrors noDot
    refine ⟨mirrors, ?_, fun other => reaches.location_ne noDot⟩
    rw [Path.isSource, mirrors.extension]
    simpa using Options.long_extension.2.2
  · intro arguments accepted
    rw [run_tree_eq accepted collected]
    obtain ⟨done, rest, middle, through⟩ := exists_getsThrough options sources tree
    refine ⟨?_, done, rest, middle, through.sources_eq, through.completes, through.stops, ?_⟩
    · intro path content isSource finds
      have keeps := through.completes.keepsDirectories.trans through.grows.keepsDirectories
      have listed : ∀ pair ∈ done, pair.1 ∈ sources := fun pair among => by
        rw [through.sources_eq]
        exact List.mem_append_left _ (List.mem_map_of_mem among)
      refine find_file_of_keeps finds keeps ?_
      rw [through.grows.sight?_eq_file,
        sight?_source_iff wellFormed collected through.completes listed isSource]
      exact sight?_eq_file.mpr (at?_location_of_find finds)
    · intro stores
      rw [through.sources_eq, List.pairwise_append] at apart
      exact through.completes.find_eq_file stores apart.1 through.grows

/-- Two classes of one name in different directories, compiled into an output directory. -/
theorem destinations_apart_sameName :
    let class_ := "class X \x7b \x7d"
    let tree : FileTree := .directory [("src", .directory [
      ("a", .directory [("X.jack", .file class_.toUTF8)]),
      ("b", .directory [("X.jack", .file class_.toUTF8)])])]
    let options : Options := ⟨⟨"src"⟩, false, false, some ⟨"out"⟩, 0⟩
    tree.WellFormed ∧
      (collectSources options.path (tree.find options.path)).result =
        .ok [⟨⟨"src/a/X.jack"⟩, class_⟩, ⟨⟨"src/b/X.jack"⟩, class_⟩] ∧
      (options.destination ⟨"src/a/X.jack"⟩).location ≠
        (options.destination ⟨"src/b/X.jack"⟩).location ∧
      options.Mirrors ⟨"src/b/X.jack"⟩ ∧
      (run ["src", "--out-dir", "out"] tree).2.find ⟨"src/a/X.jack"⟩ =
        .ok (.file class_.toUTF8) := by
  intro class_ tree options
  have accepted : Request.ofArguments ["src", "--out-dir", "out"] = .compile options := by
    decide +kernel
  have wellFormed : tree.WellFormed := by
    refine .directory (by decide +kernel) (by simp) (List.forall_mem_singleton.mpr ?_)
    refine .directory (by decide +kernel) (by simp) ?_
    simp only [List.mem_cons, List.not_mem_nil, or_false, forall_eq_or_imp, forall_eq]
    have inner : (FileTree.directory [("X.jack", .file class_.toUTF8)]).WellFormed :=
      .directory (by decide +kernel) (by simp) (by simp [WellFormed.file])
    exact ⟨inner, inner⟩
  have found : tree.find ⟨"src"⟩ = .ok (.directory [
      ("a", .directory [("X.jack", .file class_.toUTF8)]),
      ("b", .directory [("X.jack", .file class_.toUTF8)])]) := by rfl
  have joined : (Path.mk "src").join ⟨"a"⟩ = ⟨"src/a"⟩ ∧ (Path.mk "src").join ⟨"b"⟩ = ⟨"src/b"⟩ ∧
      (Path.mk "src/a").join ⟨"X.jack"⟩ = ⟨"src/a/X.jack"⟩ ∧
      (Path.mk "src/b").join ⟨"X.jack"⟩ = ⟨"src/b/X.jack"⟩ := by decide +kernel
  have along : (sourcesAlong [.directory ⟨"src"⟩, .directory ⟨"src/a"⟩,
      .file ⟨"src/a/X.jack"⟩ class_.toUTF8, .directory ⟨"src/b"⟩,
      .file ⟨"src/b/X.jack"⟩ class_.toUTF8]).result =
      .ok [⟨⟨"src/a/X.jack"⟩, class_⟩, ⟨⟨"src/b/X.jack"⟩, class_⟩] := by decide +kernel
  have collected : (collectSources options.path (tree.find options.path)).result =
      .ok [⟨⟨"src/a/X.jack"⟩, class_⟩, ⟨⟨"src/b/X.jack"⟩, class_⟩] := by
    show (collectSources ⟨"src"⟩ (tree.find ⟨"src"⟩)).result = _
    rw [found]
    refine collectSources_of_sorted ?_ (by decide +kernel)
    rw [walk_directory, sortedEntries, List.mergeSort_of_pairwise (by decide)]
    simp only [List.flatMap_cons, List.flatMap_nil, walk_directory, sortedEntries,
      List.mergeSort_singleton, joined]
    simp only [walk, List.cons_append, List.nil_append, List.append_nil]
    exact along
  obtain ⟨different, each, runs⟩ := destinations_apart options tree _ wellFormed collected
  have noDot : (Path.mk "src/a/X.jack").stem? ≠ some "." ∧
      (Path.mk "src/b/X.jack").stem? ≠ some "." := by decide +kernel
  refine ⟨wellFormed, collected, ?_, ?_, ?_⟩
  · exact ((List.pairwise_pair.mp different) noDot.1 noDot.2).2
  · exact (each ⟨⟨"src/b/X.jack"⟩, class_⟩ (by simp) noDot.2).1
  · exact (runs _ accepted).1 _ _ (by decide +kernel) (by rfl)

end JackCompiler
