import JackCompiler.Files.FileTree

/-!
# Names below a path

A name that an entry of a directory can have is no dots and holds no slash (`IsName`). Joining such
a name to a path, whatever the path looks like, adds one piece behind what its pieces mean
(`pieces_join`), one step (`components_join`) and one name to where it leads (`location_join`). Its
extension is replaced by replacing the name (`withExtension_join`), and what remains behind a path
of the names below it is those names (`relativeTo?_below`).
-/

set_option autoImplicit false

namespace JackCompiler

/-! ## Pieces -/

theorem splitAtSlashes_ne_nil (text : List Char) : splitAtSlashes text ≠ [] := by
  cases text with
  | nil => exact List.cons_ne_nil _ _
  | cons c rest =>
    unfold splitAtSlashes
    split
    · exact List.cons_ne_nil _ _
    · split <;> exact List.cons_ne_nil _ _

theorem splitAtSlashes_append (text later : List Char) :
    splitAtSlashes (text ++ '/' :: later) = splitAtSlashes text ++ splitAtSlashes later := by
  induction text with
  | nil => rfl
  | cons c rest ih =>
    rw [List.cons_append, splitAtSlashes, splitAtSlashes, ih]
    split
    · rfl
    · cases pieces : splitAtSlashes rest with
      | nil => exact absurd pieces (splitAtSlashes_ne_nil rest)
      | cons piece more => rfl

theorem splitAtSlashes_of_notMem {text : List Char} (plain : '/' ∉ text) :
    splitAtSlashes text = [text] := by
  induction text with
  | nil => rfl
  | cons c rest ih =>
    rw [List.mem_cons, not_or] at plain
    rw [splitAtSlashes, if_neg (Ne.symm plain.1), ih plain.2]

/-- An empty text, a text that ends with a slash, or another one. -/
theorem text_cases (text : List Char) :
    text = [] ∨ (∃ before, text = before ++ ['/']) ∨
      ¬ (text.getLast? = none ∨ text.getLast? = some '/') := by
  rcases List.eq_nil_or_concat text with rfl | ⟨before, last, rfl⟩
  · exact .inl rfl
  · by_cases slash : last = '/'
    · exact .inr (.inl ⟨before, by rw [slash, List.concat_eq_append]⟩)
    · refine .inr (.inr ?_)
      simp [slash]

namespace Path

variable (path : Path)

theorem pieces_ne_nil : path.pieces ≠ [] := fun empty =>
  splitAtSlashes_ne_nil _ (List.map_eq_nil_iff.mp empty)

/-- The last piece of a path. -/
def lastPiece : String := path.pieces.getLast path.pieces_ne_nil

theorem pieces_eq_dropLast_append : path.pieces = path.pieces.dropLast ++ [path.lastPiece] :=
  (List.dropLast_concat_getLast path.pieces_ne_nil).symm

/-- What the name of an entry is written behind: the path with a slash at the end, if it is not
empty. -/
def opening : List Char :=
  if path.text.toList.getLast? = none ∨ path.text.toList.getLast? = some '/' then path.text.toList
  else path.text.toList ++ ['/']

/-- The pieces of a path, but for an empty one at the end. -/
def front : List String :=
  if path.text.toList.getLast? = none ∨ path.text.toList.getLast? = some '/' then
    path.pieces.dropLast
  else path.pieces

theorem opening_cases : path.opening = [] ∨ ∃ before, path.opening = before ++ ['/'] := by
  unfold opening
  rcases text_cases path.text.toList with empty | ⟨before, slash⟩ | other
  · exact .inl (by simp [empty])
  · exact .inr ⟨before, by simp [slash]⟩
  · exact .inr ⟨path.text.toList, if_neg other⟩

/-- An empty piece at the end means nothing. -/
theorem pieces_eq_front : path.pieces = path.front ∨ path.pieces = path.front ++ [""] := by
  unfold front
  rcases text_cases path.text.toList with empty | ⟨before, slash⟩ | other
  · exact .inr (by simp [pieces, empty, splitAtSlashes])
  · exact .inr (by simp [pieces, slash, splitAtSlashes_append, splitAtSlashes])
  · exact .inl (if_neg other).symm

/-- An entry that is not absolute is written behind the opening. -/
theorem text_join {entry : Path} (relative : entry.isAbsolute = false) :
    (path.join entry).text.toList = path.opening ++ entry.text.toList := by
  unfold join opening
  rw [if_neg (by simp [relative])]
  split <;> simp [String.toList_append]

end Path

/-! ## Where a path leads -/

/-- Where a piece of a path leads from a directory that is given by its names from the top. -/
def namesBehind (names : List String) (piece : String) : List String :=
  if piece = "" ∨ piece = "." then names
  else if piece = ".." then names.dropLast
  else names ++ [piece]

/-- The names that a path leads along from the top of a tree. -/
def Path.location (path : Path) : List String := path.pieces.foldl namesBehind []

theorem namesBehind_empty (names : List String) : namesBehind names "" = names :=
  if_pos (Or.inl rfl)

theorem Path.location_eq_foldl_front (path : Path) :
    path.location = path.front.foldl namesBehind [] := by
  unfold location
  rcases path.pieces_eq_front with same | longer
  · rw [same]
  · rw [longer, List.foldl_append, List.foldl_cons, List.foldl_nil, namesBehind_empty]

theorem isDots_eq_false {piece : String} :
    FileTree.isDots piece = false ↔ ¬ (piece = "" ∨ piece = ".") ∧ piece ≠ ".." := by
  simp [FileTree.isDots]

/-- A piece that is no dots is a name. -/
theorem namesBehind_of_not_isDots {names : List String} {piece : String}
    (proper : FileTree.isDots piece = false) : namesBehind names piece = names ++ [piece] := by
  obtain ⟨moves, down⟩ := isDots_eq_false.mp proper
  rw [namesBehind, if_neg moves, if_neg down]

/-! ## A name behind a path -/

/-- Whether an entry of a directory can have a name. -/
structure IsName (name : String) : Prop where
  proper : FileTree.isDots name = false
  plain : '/' ∉ name.toList

instance (name : String) : Decidable (IsName name) :=
  decidable_of_iff (FileTree.isDots name = false ∧ '/' ∉ name.toList)
    ⟨fun ⟨proper, plain⟩ => ⟨proper, plain⟩, fun ⟨proper, plain⟩ => ⟨proper, plain⟩⟩

namespace Path

variable {path : Path} {name : String}

theorem isAbsolute_of_plain (plain : '/' ∉ name.toList) : isAbsolute ⟨name⟩ = false := by
  have notFirst : name.toList.head? ≠ some '/' := fun first => plain (List.mem_of_head? first)
  simpa [isAbsolute] using notFirst

theorem eq_of_toList {one two : Path} (same : one.text.toList = two.text.toList) : one = two :=
  congrArg Path.mk (String.toList_inj.mp same)

/-- A slash is written between a name and what comes behind it. -/
theorem opening_join (isName : IsName name) :
    (path.join ⟨name⟩).opening = path.opening ++ name.toList ++ ['/'] := by
  obtain ⟨moves, -⟩ := isDots_eq_false.mp isName.proper
  have plain := isName.plain
  rw [opening, text_join _ (isAbsolute_of_plain plain)]
  rcases List.eq_nil_or_concat name.toList with empty | ⟨start, c, text⟩
  · exact absurd (Or.inl (String.toList_eq_nil_iff.mp empty)) moves
  · rw [text, List.concat_eq_append] at plain ⊢
    have noSlash : c ≠ '/' := by
      rintro rfl
      simp at plain
    rw [if_neg]
    simp [← List.append_assoc, noSlash]

/-- One piece more. -/
theorem pieces_join (plain : '/' ∉ name.toList) :
    (path.join ⟨name⟩).pieces = path.front ++ [name] := by
  have single : (splitAtSlashes name.toList).map String.ofList = [name] := by
    rw [splitAtSlashes_of_notMem plain]
    simp
  rw [pieces, text_join _ (isAbsolute_of_plain plain), opening, front]
  rcases text_cases path.text.toList with empty | ⟨before, slash⟩ | other
  · rw [pieces, empty]
    simp [splitAtSlashes, single]
  · rw [pieces, slash]
    simp [splitAtSlashes_append, single, splitAtSlashes]
  · rw [if_neg other, if_neg other, List.append_assoc, List.singleton_append,
      splitAtSlashes_append, List.map_append, single]
    rfl

theorem lastPiece_join (plain : '/' ∉ name.toList) : (path.join ⟨name⟩).lastPiece = name := by
  simp [lastPiece, pieces_join plain]

/-- One name more. -/
theorem location_join (isName : IsName name) :
    (path.join ⟨name⟩).location = path.location ++ [name] := by
  rw [location, pieces_join isName.plain, List.foldl_append, ← location_eq_foldl_front,
    List.foldl_cons, List.foldl_nil, namesBehind_of_not_isDots isName.proper]

theorem isAbsolute_join (isName : IsName name) :
    (path.join ⟨name⟩).isAbsolute = path.isAbsolute := by
  have relative := isAbsolute_of_plain isName.plain
  rw [isAbsolute, isAbsolute, text_join _ relative, opening]
  rw [isAbsolute] at relative
  rcases text_cases path.text.toList with empty | ⟨before, slash⟩ | other
  · simpa [empty] using relative
  · simp [slash, List.head?_append]
  · rw [if_neg other]
    cases text : path.text.toList with
    | nil => simp [text] at other
    | cons c rest => rfl

/-- One step more. -/
theorem components_join (isName : IsName name) :
    (path.join ⟨name⟩).components = path.components ++ [.normal name] := by
  obtain ⟨moves, down⟩ := isDots_eq_false.mp isName.proper
  have step : Component.ofPiece? name = some (.normal name) := by
    rw [Component.ofPiece?, if_neg moves, if_neg down]
  have steps : path.pieces.filterMap Component.ofPiece? =
      path.front.filterMap Component.ofPiece? := by
    rcases path.pieces_eq_front with same | longer
    · rw [same]
    · rw [longer, List.filterMap_append]
      exact List.append_nil _
  have begins : (path.front ++ [name]).head? = some "." ↔ path.pieces.head? = some "." := by
    rcases path.pieces_eq_front with same | longer
    · cases front : path.front with
      | nil => exact absurd (same.trans front) path.pieces_ne_nil
      | cons piece later => simp [same, front]
    · cases front : path.front with
      | nil =>
        rw [not_or] at moves
        simp [longer, front, moves.2]
      | cons piece later => simp [longer, front]
  rw [components, components, isAbsolute_join isName, pieces_join isName.plain]
  simp only [begins, List.filterMap_append, ← steps]
  have last : [name].filterMap Component.ofPiece? = [.normal name] := by simp [step]
  rw [last]
  split
  · rfl
  · split <;> rfl

theorem fileName?_join (isName : IsName name) : (path.join ⟨name⟩).fileName? = some name := by
  rw [fileName?, components_join isName, List.getLast?_concat]

/-! ## Another extension -/

/-- Nothing is dropped from the end of a text that ends with a name. -/
theorem dropTrailing_reverse (before : List Char) (isName : IsName name) :
    dropTrailing (before ++ name.toList).reverse = (before ++ name.toList).reverse := by
  obtain ⟨moves, -⟩ := isDots_eq_false.mp isName.proper
  rw [not_or] at moves
  have plain := isName.plain
  rcases List.eq_nil_or_concat name.toList with empty | ⟨start, c, text⟩
  · exact absurd (String.toList_eq_nil_iff.mp empty) moves.1
  · rw [text, List.concat_eq_append] at plain ⊢
    have noSlash : c ≠ '/' := by
      rintro rfl
      simp at plain
    rcases List.eq_nil_or_concat start with rfl | ⟨start, d, rfl⟩
    · have noDot : c ≠ '.' := by
        rintro rfl
        exact moves.2 (String.toList_inj.mp text)
      simp [dropTrailing, noSlash, noDot]
    · have noSlash' : d ≠ '/' := by
        rintro rfl
        simp at plain
      simp [dropTrailing, noSlash, noSlash']

theorem trimmed_join (isName : IsName name) :
    (path.join ⟨name⟩).trimmed = (path.join ⟨name⟩).text.toList := by
  rw [trimmed, text_join _ (isAbsolute_of_plain isName.plain), dropTrailing_reverse _ isName,
    List.reverse_reverse]

theorem base_join (isName : IsName name) : (path.join ⟨name⟩).base = path.opening := by
  have stops : path.opening.reverse.dropWhile (· ≠ '/') = path.opening.reverse := by
    rcases path.opening_cases with empty | ⟨before, slash⟩
    · simp [empty]
    · simp [slash]
  have passes : ∀ c ∈ name.toList.reverse, decide (c ≠ '/') = true := by
    intro c among
    rw [List.mem_reverse] at among
    exact decide_eq_true fun same => isName.plain (same ▸ among)
  rw [base, trimmed_join isName, text_join _ (isAbsolute_of_plain isName.plain),
    List.reverse_append, List.dropWhile_append_of_pos passes, stops, List.reverse_reverse]

end Path

theorem cutAtLastDot?_eq_some {text before behind : List Char}
    (cut : Path.cutAtLastDot? text = some (before, behind)) : text = before ++ '.' :: behind := by
  induction text generalizing before with
  | nil => cases cut
  | cons c rest ih =>
    rw [Path.cutAtLastDot?] at cut
    split at cut
    · rename_i inner
      cases cut
      rw [ih inner, List.cons_append]
    · split at cut
      · rename_i dot
        cases cut
        rw [dot, List.nil_append]
      · cases cut

theorem splitExtension_eq_some {text stem extension : List Char}
    (split : Path.splitExtension text = (stem, some extension)) :
    stem ≠ [] ∧ text = stem ++ '.' :: extension := by
  unfold Path.splitExtension at split
  split at split
  · rename_i c start behind cut
    cases split
    exact ⟨List.cons_ne_nil _ _, cutAtLastDot?_eq_some cut⟩
  · cases split

/-- A name with another extension. A stem that is a dot becomes two of them. -/
def nameWithExtension (name extension : String) : String :=
  let parts := Path.splitExtension name.toList
  if parts.1 = ['.'] ∧ parts.2.isSome then ".."
  else if extension = "" then String.ofList parts.1
  else String.ofList (parts.1 ++ '.' :: extension.toList)

/-- The characters of a stem are those of the name. -/
theorem mem_stem {text : List Char} {c : Char} (among : c ∈ (Path.splitExtension text).1) :
    c ∈ text := by
  cases parts : Path.splitExtension text with
  | mk stem old =>
    rw [parts] at among
    cases old with
    | none =>
      unfold Path.splitExtension at parts
      split at parts <;> cases parts
      exact among
    | some extension =>
      rw [(splitExtension_eq_some parts).2]
      exact List.mem_append_left _ among

theorem plain_nameWithExtension {name extension : String} (plain : '/' ∉ name.toList)
    (plain' : '/' ∉ extension.toList) : '/' ∉ (nameWithExtension name extension).toList := by
  have stem : '/' ∉ (Path.splitExtension name.toList).1 := fun among => plain (mem_stem among)
  unfold nameWithExtension
  dsimp only
  split
  · decide
  · split <;> simp [stem, plain']

/-- The extension of a path that ends in a name is replaced in that name. -/
theorem Path.withExtension_join {path : Path} {name extension : String} (isName : IsName name)
    (plain : '/' ∉ extension.toList) :
    (path.join ⟨name⟩).withExtension extension =
      path.join ⟨nameWithExtension name extension⟩ := by
  have relative := isAbsolute_of_plain (plain_nameWithExtension isName.plain plain)
  refine eq_of_toList ?_
  rw [text_join _ relative, withExtension, fileName?_join isName]
  dsimp only
  simp only [base_join isName, trimmed_join isName, nameWithExtension, and_true]
  split
  · rw [String.toList_ofList]
    rfl
  · split
    · rw [String.toList_ofList, String.toList_ofList]
    · rw [String.toList_ofList, String.toList_ofList, List.append_assoc]

/-- Names with the same extension have different names with another one, unless a stem is a dot. -/
theorem nameWithExtension_inj {one two old new : String} (nonempty : new ≠ "")
    (hasOld : (Path.splitExtension one.toList).2 = some old.toList)
    (hasOld' : (Path.splitExtension two.toList).2 = some old.toList)
    (proper : FileTree.isDots (nameWithExtension one new) = false)
    (same : nameWithExtension one new = nameWithExtension two new) : one = two := by
  have unlike (name : String) (hasOld : (Path.splitExtension name.toList).2 = some old.toList)
      (proper : FileTree.isDots (nameWithExtension name new) = false) :
      nameWithExtension name new =
        String.ofList ((Path.splitExtension name.toList).1 ++ '.' :: new.toList) ∧
      name.toList = (Path.splitExtension name.toList).1 ++ '.' :: old.toList := by
    refine ⟨?_, (splitExtension_eq_some (Prod.ext rfl hasOld)).2⟩
    unfold nameWithExtension at proper ⊢
    dsimp only at proper ⊢
    split at proper
    · cases proper
    · rename_i noDot
      rw [if_neg noDot, if_neg nonempty]
  obtain ⟨written, whole⟩ := unlike one hasOld proper
  obtain ⟨written', whole'⟩ := unlike two hasOld' (same ▸ proper)
  rw [written, written', String.ofList_inj] at same
  rw [← String.toList_inj, whole, whole', List.append_cancel_right same]

/-! ## Names behind a path -/

namespace Path

/-- The path that some names lead to from another one. -/
def below (path : Path) (names : List String) : Path :=
  names.foldl (fun path name => path.join ⟨name⟩) path

variable {path : Path} {names : List String} {name : String}

theorem below_concat (path : Path) (names : List String) (name : String) :
    path.below (names ++ [name]) = (path.below names).join ⟨name⟩ := by
  simp [below]

theorem location_below (areNames : ∀ name ∈ names, IsName name) :
    (path.below names).location = path.location ++ names := by
  induction names generalizing path with
  | nil => exact (List.append_nil _).symm
  | cons name later ih =>
    rw [List.forall_mem_cons] at areNames
    show ((path.join ⟨name⟩).below later).location = _
    rw [ih areNames.2, location_join areNames.1, List.append_assoc, List.singleton_append]

theorem components_below (areNames : ∀ name ∈ names, IsName name) :
    (path.below names).components = path.components ++ names.map .normal := by
  induction names generalizing path with
  | nil => exact (List.append_nil _).symm
  | cons name later ih =>
    rw [List.forall_mem_cons] at areNames
    show ((path.join ⟨name⟩).below later).components = _
    rw [ih areNames.2, components_join areNames.1, List.append_assoc, List.map_cons,
      List.singleton_append]

/-- What remains behind a path of names below it is those names. -/
theorem relativeTo?_below (areNames : ∀ name ∈ names, IsName name) :
    (path.below names).relativeTo? path = some (ofSteps (names.map .normal)) := by
  have whole (steps more : List Component) : steps.isPrefixOf? (steps ++ more) = some more := by
    induction steps with
    | nil => rfl
    | cons step later ih =>
      show (if step == step then later.isPrefixOf? (later ++ more) else none) = some more
      rw [if_pos (by simp), ih]
  rw [relativeTo?, components_below areNames, whole, Option.map_some]

theorem text_ofSteps_cons (name second : String) (later : List String) :
    (ofSteps ((name :: second :: later).map .normal)).text =
      name ++ "/" ++ (ofSteps ((second :: later).map .normal)).text := by
  simp [ofSteps, Component.piece]

theorem text_ofSteps_ne_empty (areNames : ∀ name ∈ names, IsName name) (nonempty : names ≠ []) :
    (ofSteps (names.map .normal)).text ≠ "" := by
  cases names with
  | nil => exact absurd rfl nonempty
  | cons name later =>
    obtain ⟨moves, -⟩ := isDots_eq_false.mp (areNames name (List.mem_cons_self ..)).proper
    cases later with
    | nil =>
      simp only [ofSteps, Component.piece, List.map_cons, List.map_nil,
        String.intercalate_singleton]
      exact fun empty => moves (.inl empty)
    | cons second later =>
      rw [text_ofSteps_cons]
      simp

theorem isAbsolute_ofSteps (isName : IsName name) (later : List String) :
    (ofSteps ((name :: later).map .normal)).isAbsolute = false := by
  obtain ⟨moves, -⟩ := isDots_eq_false.mp isName.proper
  have begins : (ofSteps ((name :: later).map .normal)).text.toList.head? = name.toList.head? := by
    cases later with
    | nil => simp [ofSteps, Component.piece]
    | cons second later =>
      rw [text_ofSteps_cons]
      cases text : name.toList with
      | nil => exact absurd (Or.inl (String.toList_eq_nil_iff.mp text)) moves
      | cons c rest => simp [text]
  rw [isAbsolute, begins]
  exact isAbsolute_of_plain isName.plain

/-- Names written with slashes between them are joined like one after the other. -/
theorem join_ofSteps (areNames : ∀ name ∈ names, IsName name) (nonempty : names ≠ []) :
    path.join (ofSteps (names.map .normal)) = path.below names := by
  induction names generalizing path with
  | nil => exact absurd rfl nonempty
  | cons name later ih =>
    rw [List.forall_mem_cons] at areNames
    cases later with
    | nil => simp [ofSteps, Component.piece, below]
    | cons second later =>
      show _ = (path.join ⟨name⟩).below (second :: later)
      have relative : (ofSteps ((second :: later).map .normal)).isAbsolute = false :=
        isAbsolute_ofSteps (areNames.2 second (List.mem_cons_self ..)) later
      rw [← ih areNames.2 (List.cons_ne_nil _ _)]
      refine eq_of_toList ?_
      rw [text_join _ relative, text_join _ (isAbsolute_ofSteps areNames.1 (second :: later)),
        opening_join areNames.1, text_ofSteps_cons]
      simp

end Path

end JackCompiler
