import JackCompiler.Proofs.Files.Parent
import JackCompiler.Proofs.Command.Separation

/-!
# Outputs beside their sources

Without an output directory, an output goes into the directory that holds its source
(`Options.Reaches.dropLast_pieces`). The way there is one of directories, so none are made
(`prepare_of_standsAlong`), and a run has the same directories before it and behind it
(`Options.Completes.sight?_directory_iff`).
-/

set_option autoImplicit false

namespace JackCompiler

open FileTree

variable {options : Options} {tree middle after : FileTree} {path : Path} {text : String}

/-! ## Storing where the directories are -/

/-- Where directories stand along the way to a path, none are made for it. -/
theorem prepare_of_standsAlong (along : tree.StandsAlong path.pieces.dropLast) :
    (disk.prepare (path.parent?.getD ⟨""⟩) tree).2 = tree := by
  cases has : path.parent? with
  | none => rfl
  | some inner =>
    exact (making_prepare inner tree).eq_of_directories (along.parent has).sight?_ancestor

/-- A file that is stored where the directories are adds none. -/
theorem sight?_directory_of_store (stored : disk.store path text tree = (.ok (), after))
    (along : tree.StandsAlong path.pieces.dropLast) {names : List String}
    (seen : after.sight? names = some .directory) : tree.sight? names = some .directory := by
  obtain ⟨middle, prepared, wrote⟩ := store_eq_ok.mp stored
  have same := prepare_of_standsAlong along
  rw [prepared] at same
  subst same
  rw [sight?_write wrote] at seen
  split at seen
  · cases seen
  · exact seen

/-! ## Runs without an output directory -/

namespace Options

/-- Sources that are done add no directories if their outputs go where directories are. -/
theorem Completes.sight?_directory_iff {done : List (SourceFile × String)}
    (completes : options.Completes tree done after)
    (along : ∀ pair ∈ done, tree.StandsAlong (options.destination pair.1.path).pieces.dropLast)
    (names : List String) :
    after.sight? names = some .directory ↔ tree.sight? names = some .directory := by
  refine ⟨fun seen => ?_, completes.keepsDirectories names⟩
  induction completes with
  | nil tree => exact seen
  | print _ _ _ ih => exact ih (List.forall_mem_cons.mp along).2 seen
  | @store tree middle after source text later _ _ stored rest ih =>
    rw [List.forall_mem_cons] at along
    have keeps := keepsDirectories_of_store stored
    refine sight?_directory_of_store stored along.1 ?_
    exact ih (fun pair among => (along.2 pair among).keeps keeps) seen

/-- Beside a source is where the directories are that lead to it. -/
theorem Reaches.dropLast_pieces {source root : Path} {names : List String} {name : String}
    (reaches : options.Reaches source root names name) (beside : options.outDir? = none) :
    (options.destination source).pieces.dropLast = source.pieces.dropLast := by
  have plain := plain_nameWithExtension reaches.below.isName.plain options.plain_extension
  rw [reaches.destination_eq, reaches.below.eq_join, beside, Option.getD_none,
    Path.pieces_join plain, Path.pieces_join reaches.below.isName.plain, List.dropLast_concat,
    List.dropLast_concat]

/-- Directories stand along the way to each source. -/
theorem standsAlong_of_mem {sources : List SourceFile} (wellFormed : tree.WellFormed)
    (collected : (collectSources options.path (tree.find options.path)).result = .ok sources)
    {source : SourceFile} (among : source ∈ sources) :
    tree.StandsAlong source.path.pieces.dropLast := by
  cases finds : tree.find options.path with
  | error error =>
    rw [finds] at collected
    cases collected
  | ok found =>
    rw [finds] at collected
    have stands := at?_location_of_find finds
    cases found with
    | file content =>
      rcases collectSources_file_eq_ok.mp collected with ⟨-, own, read, rfl⟩ | ⟨-, rfl⟩
      · obtain rfl := List.mem_singleton.mp among
        rw [path_of_ofContent read]
        exact standsAlong_of_find finds
      · cases among
    | directory entries =>
      obtain ⟨names, name, below, content, seen⟩ :=
        exists_of_mem_collectSources (wellFormed.at? stands) collected among
      have here : tree.sight? (options.path.location ++ names ++ [name]) =
          some (.file content) := by
        rw [List.append_assoc, sight?_append stands, seen]
      rw [below.eq_join]
      exact standsAlong_below finds below.areNames below.isName here

/-- Without an output directory, a run that succeeds makes no directories. -/
theorem Completes.sight?_directory_of_beside {done : List (SourceFile × String)}
    (wellFormed : tree.WellFormed)
    (collected : (collectSources options.path (tree.find options.path)).result =
      .ok (done.map Prod.fst))
    (completes : options.Completes tree done after) (beside : options.outDir? = none)
    (names : List String) :
    after.sight? names = some .directory ↔ tree.sight? names = some .directory := by
  refine completes.sight?_directory_iff (fun pair among => ?_) names
  have listed := List.mem_map_of_mem (f := Prod.fst) among
  obtain ⟨root, names, name, reaches⟩ := exists_reaches wellFormed collected listed
  rw [reaches.dropLast_pieces beside]
  exact standsAlong_of_mem wellFormed collected listed

end Options

end JackCompiler
