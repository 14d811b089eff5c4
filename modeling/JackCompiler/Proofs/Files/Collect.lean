import JackCompiler.Proofs.Files.Order
import JackCompiler.Proofs.Files.Walk

/-!
# What is collected

Which sources are collected at a directory depends on the source files that are seen in it and on
whether every directory can be opened. So a collection that has succeeded finds the same sources in
another directory with the same source files, as long as nothing there is in its way
(`collectSources_eq_ok_of_same`), and no directory was in its way (`isTooLong_of_collectSources`).
-/

set_option autoImplicit false

namespace JackCompiler

open FileTree

section Same

variable {path : Path} {entries entries' : List (String × FileTree)} {sources : List SourceFile}

/-- A directory that was searched has no directory in it whose path is too long. -/
theorem isTooLong_of_collectSources (wellFormed : (directory entries).WellFormed)
    (collected : (collectSources path (.ok (.directory entries))).result = .ok sources)
    {names : List String} (seen : (directory entries).sight? names = some .directory) :
    (path.below names).isTooLong = false := by
  obtain ⟨along, reads, -⟩ := exists_of_collectSources collected
  have among : Stop.directory (path.below names) ∈ (directory entries).walk path :=
    (mem_walk wellFormed).mpr ⟨names, .directory, seen, rfl⟩
  obtain ⟨here, read⟩ := exists_sourcesAlong_iff.mp ⟨along, reads⟩ _ among
  rw [Stop.read] at read
  split at read
  · cases read
  · rename_i short
    simpa using short

/-- Where the same source files are seen, the same sources are collected. -/
theorem collectSources_eq_ok_of_same (wellFormed : (directory entries).WellFormed)
    (wellFormed' : (directory entries').WellFormed)
    (collected : (collectSources path (.ok (.directory entries))).result = .ok sources)
    (same : ∀ names content, (∀ name ∈ names, IsName name) → (path.below names).isSource = true →
      ((directory entries').sight? names = some (.file content) ↔
        (directory entries).sight? names = some (.file content)))
    (opens : ∀ names, (directory entries').sight? names = some .directory →
      (path.below names).isTooLong = false) :
    (collectSources path (.ok (.directory entries'))).result = .ok sources := by
  obtain ⟨along, reads, rfl⟩ := exists_of_collectSources collected
  -- A source file is on one walk exactly if it is on the other one.
  have onBoth (there : Path) (content : ByteArray) (isSource : there.isSource = true) :
      Stop.file there content ∈ (directory entries').walk path ↔
        Stop.file there content ∈ (directory entries).walk path := by
    rw [mem_walk wellFormed', mem_walk wellFormed]
    constructor
    · rintro ⟨names, ⟨content'⟩ | _, seen, ⟨⟩⟩
      have areNames := wellFormed'.areNames_of_sight? seen
      exact ⟨names, _, (same names content areNames isSource).mp seen, rfl⟩
    · rintro ⟨names, ⟨content'⟩ | _, seen, ⟨⟩⟩
      have areNames := wellFormed.areNames_of_sight? seen
      exact ⟨names, _, (same names content areNames isSource).mpr seen, rfl⟩
  have readable : ∀ stop ∈ (directory entries').walk path, ∃ here, stop.read = .ok here := by
    intro stop among
    cases stop with
    | directory there =>
      obtain ⟨names, sight, seen, eq⟩ := (mem_walk wellFormed').mp among
      cases sight with
      | file content => cases eq
      | directory =>
        cases eq
        exact ⟨[], if_neg (by simp [opens names seen])⟩
    | file there content =>
      by_cases isSource : there.isSource = true
      · exact exists_sourcesAlong_iff.mp ⟨along, reads⟩ _ ((onBoth there content isSource).mp among)
      · exact ⟨[], if_neg isSource⟩
  obtain ⟨along', reads'⟩ := exists_sourcesAlong_iff.mpr readable
  rw [result_collectSources_directory, reads']
  refine congrArg Except.ok (mergeSort_eq_of_mem_iff (pairwise_sourcesAlong wellFormed' reads')
    (pairwise_sourcesAlong wellFormed reads) fun source => ?_)
  rw [mem_of_sourcesAlong reads', mem_of_sourcesAlong reads]
  constructor
  · rintro ⟨there, content, among, isSource, read⟩
    exact ⟨there, content, (onBoth there content isSource).mp among, isSource, read⟩
  · rintro ⟨there, content, among, isSource, read⟩
    exact ⟨there, content, (onBoth there content isSource).mpr among, isSource, read⟩

end Same

end JackCompiler
