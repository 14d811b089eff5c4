import JackCompiler.Proofs.Files.Path

/-!
# Stems and extensions

A file name falls into a stem and an extension. What `Path.withExtension` writes falls into the same
stem and the new extension, unless the stem is a single dot (`splitExtension_nameWithExtension`). A
path is its last piece joined to a path (`exists_eq_join`), and a path with a file name leads to an
entry of that name (`exists_location_of_fileName?`).
-/

set_option autoImplicit false

namespace JackCompiler

/-! ## Cutting a name at its last dot -/

theorem cutAtLastDot?_of_notMem {text : List Char} (plain : '.' ∉ text) :
    Path.cutAtLastDot? text = none := by
  induction text with
  | nil => rfl
  | cons c rest ih =>
    rw [List.mem_cons, not_or] at plain
    rw [Path.cutAtLastDot?, ih plain.2]
    exact if_neg (Ne.symm plain.1)

theorem cutAtLastDot?_append (before : List Char) {behind : List Char} (plain : '.' ∉ behind) :
    Path.cutAtLastDot? (before ++ '.' :: behind) = some (before, behind) := by
  induction before with
  | nil =>
    rw [List.nil_append, Path.cutAtLastDot?, cutAtLastDot?_of_notMem plain]
    exact if_pos rfl
  | cons c rest ih => rw [List.cons_append, Path.cutAtLastDot?, ih]

theorem splitExtension_append {stem extension : List Char} (nonempty : stem ≠ [])
    (plain : '.' ∉ extension) :
    Path.splitExtension (stem ++ '.' :: extension) = (stem, some extension) := by
  obtain ⟨c, rest, rfl⟩ := List.exists_cons_of_ne_nil nonempty
  rw [Path.splitExtension, cutAtLastDot?_append _ plain]

section NameWithExtension

variable {name old new : String}

/-- A stem that is no dot gets the new extension behind a dot. -/
theorem nameWithExtension_eq (nonempty : new ≠ "")
    (noDot : (Path.splitExtension name.toList).1 ≠ ['.']) :
    (nameWithExtension name new).toList =
      (Path.splitExtension name.toList).1 ++ '.' :: new.toList := by
  unfold nameWithExtension
  dsimp only
  rw [if_neg fun h => noDot h.1, if_neg nonempty, String.toList_ofList]

/-- The stem stays and the extension is the new one. -/
theorem splitExtension_nameWithExtension (nonempty : new ≠ "") (plain : '.' ∉ new.toList)
    (hasOld : (Path.splitExtension name.toList).2 = some old.toList)
    (noDot : (Path.splitExtension name.toList).1 ≠ ['.']) :
    Path.splitExtension (nameWithExtension name new).toList =
      ((Path.splitExtension name.toList).1, some new.toList) := by
  rw [nameWithExtension_eq nonempty noDot]
  exact splitExtension_append (splitExtension_eq_some (Prod.ext rfl hasOld)).1 plain

/-- A name with an extension of several characters is no dots. -/
theorem isDots_nameWithExtension (long : 2 ≤ new.length)
    (noDot : (Path.splitExtension name.toList).1 ≠ ['.']) :
    FileTree.isDots (nameWithExtension name new) = false := by
  have nonempty : new ≠ "" := by
    rintro rfl
    cases long
  have count : 3 ≤ (nameWithExtension name new).length := by
    rw [← String.length_toList, nameWithExtension_eq nonempty noDot, List.length_append,
      List.length_cons, String.length_toList]
    omega
  rw [isDots_eq_false]
  refine ⟨?_, ?_⟩
  · rintro (empty | dot)
    · rw [empty] at count
      cases count
    · rw [dot] at count
      exact absurd count (by decide)
  · intro dots
    rw [dots] at count
    exact absurd count (by decide)

end NameWithExtension

/-! ## The name at the end of a path -/

theorem slash_notMem_of_mem_splitAtSlashes {text piece : List Char}
    (among : piece ∈ splitAtSlashes text) : '/' ∉ piece := by
  induction text generalizing piece with
  | nil =>
    obtain rfl := List.mem_singleton.mp among
    exact List.not_mem_nil
  | cons c rest ih =>
    rw [splitAtSlashes] at among
    split at among
    · rcases List.mem_cons.mp among with rfl | among
      · exact List.not_mem_nil
      · exact ih among
    · rename_i noSlash
      cases pieces : splitAtSlashes rest with
      | nil => exact absurd pieces (splitAtSlashes_ne_nil rest)
      | cons first later =>
        rw [pieces] at among
        rcases List.mem_cons.mp among with rfl | among
        · rw [List.mem_cons, not_or]
          exact ⟨Ne.symm noSlash, ih (pieces ▸ List.mem_cons_self)⟩
        · exact ih (pieces ▸ List.mem_cons_of_mem _ among)

/-- A text is its last piece behind nothing or behind a slash. -/
theorem exists_eq_append_getLast (text : List Char) :
    ∃ before, text = before ++ (splitAtSlashes text).getLast (splitAtSlashes_ne_nil text) ∧
      (before = [] ∨ ∃ start, before = start ++ ['/']) := by
  by_cases slash : '/' ∈ text
  · -- the last slash
    obtain ⟨behind, start, eq, plain⟩ :=
      List.eq_append_cons_of_mem (List.mem_reverse.mpr slash)
    have whole : text = start.reverse ++ '/' :: behind.reverse := by
      rw [← List.reverse_reverse text, eq]
      simp
    have plain : '/' ∉ behind.reverse := by simpa using plain
    refine ⟨start.reverse ++ ['/'], ?_, .inr ⟨start.reverse, rfl⟩⟩
    have last : (splitAtSlashes text).getLast (splitAtSlashes_ne_nil text) = behind.reverse := by
      simp [whole, splitAtSlashes_append, splitAtSlashes_of_notMem plain]
    rw [last]
    simpa using whole
  · refine ⟨[], ?_, .inl rfl⟩
    simp [splitAtSlashes_of_notMem slash]

namespace Path

variable {path : Path} {name : String}

theorem plain_lastPiece (path : Path) : '/' ∉ path.lastPiece.toList := by
  have among : path.lastPiece ∈ path.pieces := List.getLast_mem path.pieces_ne_nil
  obtain ⟨piece, inside, same⟩ := List.mem_map.mp among
  rw [← same, String.toList_ofList]
  exact slash_notMem_of_mem_splitAtSlashes inside

/-- A path is its last piece joined to a path. -/
theorem exists_eq_join (path : Path) : ∃ before : Path, path = before.join ⟨path.lastPiece⟩ := by
  obtain ⟨before, whole, ends⟩ := exists_eq_append_getLast path.text.toList
  have last : path.lastPiece.toList =
      (splitAtSlashes path.text.toList).getLast (splitAtSlashes_ne_nil _) := by
    rw [lastPiece]
    simp only [pieces, List.getLast_map, String.toList_ofList]
  refine ⟨⟨String.ofList before⟩, eq_of_toList ?_⟩
  have opens : (Path.mk (String.ofList before)).opening = before := by
    rcases ends with rfl | ⟨start, rfl⟩
    · rfl
    · simp [opening]
  rw [text_join _ (isAbsolute_of_plain path.plain_lastPiece), opens, last]
  exact whole

/-! ## Steps and locations -/

/-- Where a step leads from a directory that is given by its names from the top. -/
def namesBehindStep (names : List String) : Component → List String
  | .root | .current => names
  | .parent => names.dropLast
  | .normal name => names ++ [name]

/-- A path leads where its steps do. -/
theorem location_eq_foldl_components (path : Path) :
    path.location = path.components.foldl namesBehindStep [] := by
  have steps (pieces : List String) (names : List String) : pieces.foldl namesBehind names =
      (pieces.filterMap Component.ofPiece?).foldl namesBehindStep names := by
    induction pieces generalizing names with
    | nil => rfl
    | cons piece later ih =>
      rw [List.foldl_cons, ih, namesBehind, List.filterMap_cons, Component.ofPiece?]
      by_cases stays : piece = "" ∨ piece = "."
      · rw [if_pos stays, if_pos stays]
      · rw [if_neg stays, if_neg stays]
        by_cases up : piece = ".."
        · rw [if_pos up, if_pos up]
          rfl
        · rw [if_neg up, if_neg up]
          rfl
  rw [location, steps, components]
  split
  · rfl
  · split <;> rfl

/-- A path with a file name leads to an entry of that name. -/
theorem exists_location_of_fileName? (named : path.fileName? = some name) :
    ∃ names, path.location = names ++ [name] := by
  unfold fileName? at named
  split at named
  · rename_i own last
    cases named
    obtain ⟨front, eq⟩ := List.getLast?_eq_some_iff.mp last
    refine ⟨front.foldl namesBehindStep [], ?_⟩
    rw [location_eq_foldl_components, eq, List.foldl_append]
    rfl
  · cases named

end Path

end JackCompiler
