import JackCompiler.Command.Plan
import JackCompiler.Proofs.Files.Walk

/-!
# Where outputs go

An output stands where its source stands, with another extension, and below the output directory if
there is one (`destination_eq`). So the outputs of different sources go to different places
(`pairwise_destination`), but for those with nowhere to go: a source `..jack` has the stem `.`, and
the output of it would be `..`.
-/

set_option autoImplicit false

namespace JackCompiler

namespace Options

variable (options : Options)

/-- The directory that stands for the searched path where outputs go. -/
def outputRoot : Path := options.outDir?.getD options.path

theorem plain_extension : '/' ∉ options.extension.toList := by
  unfold extension
  split <;> decide

theorem extension_ne_empty : options.extension ≠ "" := by
  unfold extension
  split <;> decide

/-- Whether there is a place for the output of a source: its path ends with a name. -/
def HasPlace (source : Path) : Prop :=
  FileTree.isDots (options.destination source).lastPiece = false

variable {options}

section Below

variable {source source' : Path} {names names' : List String} {name name' : String}

/-- The output of a source stands where the source stands, with its own extension. -/
theorem destination_eq (below : source.IsSourceBelow options.path names name) :
    options.destination source =
      (options.outputRoot.below names).join ⟨nameWithExtension name options.extension⟩ := by
  rw [below.eq_join]
  unfold destination outputRoot
  cases options.outDir? with
  | none => exact Path.withExtension_join below.isName options.plain_extension
  | some directory =>
    have areNames : ∀ part ∈ names ++ [name], IsName part :=
      List.forall_mem_append.mpr ⟨below.areNames, List.forall_mem_singleton.mpr below.isName⟩
    have nonempty : names ++ [name] ≠ [] := by simp
    rw [← Path.below_concat]
    dsimp only
    rw [Path.relativeTo?_below areNames]
    dsimp only
    rw [if_neg (Path.text_ofSteps_ne_empty areNames nonempty), Path.join_ofSteps areNames nonempty,
      Path.below_concat]
    exact Path.withExtension_join below.isName options.plain_extension

theorem plain_output (below : source.IsSourceBelow options.path names name) :
    '/' ∉ (nameWithExtension name options.extension).toList :=
  plain_nameWithExtension below.isName.plain options.plain_extension

theorem isName_output (below : source.IsSourceBelow options.path names name)
    (hasPlace : options.HasPlace source) : IsName (nameWithExtension name options.extension) := by
  rw [HasPlace, destination_eq below, Path.lastPiece_join (plain_output below)] at hasPlace
  exact ⟨hasPlace, plain_output below⟩

theorem location_destination (below : source.IsSourceBelow options.path names name)
    (hasPlace : options.HasPlace source) :
    (options.destination source).location =
      options.outputRoot.location ++ names ++ [nameWithExtension name options.extension] := by
  rw [destination_eq below, Path.location_join (isName_output below hasPlace),
    Path.location_below below.areNames]

/-- Only one source has its output in a place. -/
theorem location_eq_of_destination (below : source.IsSourceBelow options.path names name)
    (below' : source'.IsSourceBelow options.path names' name')
    (hasPlace : options.HasPlace source) (hasPlace' : options.HasPlace source')
    (same : (options.destination source).location = (options.destination source').location) :
    source.location = source'.location := by
  rw [location_destination below hasPlace, location_destination below' hasPlace', List.append_assoc,
    List.append_assoc] at same
  obtain ⟨sameNames, sameName⟩ := List.append_inj' (List.append_cancel_left same) rfl
  have sameName : name = name' :=
    nameWithExtension_inj options.extension_ne_empty below.extension below'.extension
      (isName_output below hasPlace).proper (List.cons.inj sameName).1
  rw [below.location_eq, below'.location_eq, sameNames, sameName]

end Below

/-- The outputs of the sources of a run go to different places. -/
theorem pairwise_destination {found : FileTree} {sources : List SourceFile}
    (wellFormed : found.WellFormed)
    (collected : (collectSources options.path (.ok found)).result = .ok sources) :
    sources.Pairwise fun one two => options.HasPlace one.path → options.HasPlace two.path →
      (options.destination one.path).location ≠ (options.destination two.path).location := by
  cases found with
  | file content =>
    rcases eq_nil_or_singleton_of_collectSources collected with rfl | ⟨source, -, rfl⟩
    · exact .nil
    · exact List.pairwise_singleton _ _
  | directory entries =>
    refine (pairwise_collectSources wellFormed collected).imp_of_mem
      fun among among' apart hasPlace hasPlace' same => apart ?_
    obtain ⟨names, name, below, -⟩ := exists_of_mem_collectSources wellFormed collected among
    obtain ⟨names', name', below', -⟩ := exists_of_mem_collectSources wellFormed collected among'
    exact location_eq_of_destination below below' hasPlace hasPlace' same

end Options

end JackCompiler
