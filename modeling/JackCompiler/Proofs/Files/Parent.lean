import JackCompiler.Proofs.Files.Walk

/-!
# The directories around a path

The directory that holds the last step of a path is written at the beginning of the path
(`Path.parent?_cases`). So where directories stand all along the way that a path describes
(`FileTree.StandsAlong`), they stand at all of its ancestors (`StandsAlong.sight?_ancestor`). They
stand along the way to everything that is found in a tree, and to every name below it
(`standsAlong_of_find`, `standsAlong_below`).
-/

set_option autoImplicit false

namespace JackCompiler

/-! ## The text of a parent -/

/-- What is dropped from the end of a text begins with a slash there. -/
theorem exists_eq_append_dropTrailing (text : List Char) :
    ∃ dropped, text = dropped ++ Path.dropTrailing text ∧
      (dropped = [] ∨ ∃ start, dropped = start ++ ['/']) := by
  induction text using Path.dropTrailing.induct with
  | case1 rest ih =>
    obtain ⟨dropped, eq, rfl | ⟨start, rfl⟩⟩ := ih
    · exact ⟨['/'], congrArg _ eq, .inr ⟨[], rfl⟩⟩
    · exact ⟨'/' :: (start ++ ['/']), congrArg _ eq, .inr ⟨'/' :: start, rfl⟩⟩
  | case2 rest ih =>
    obtain ⟨dropped, eq, rfl | ⟨start, rfl⟩⟩ := ih
    · exact ⟨['.', '/'], congrArg _ (congrArg _ eq), .inr ⟨['.'], rfl⟩⟩
    · exact ⟨'.' :: '/' :: (start ++ ['/']), congrArg _ (congrArg _ eq),
        .inr ⟨'.' :: '/' :: start, rfl⟩⟩
  | case3 rest noSlash noDot =>
    refine ⟨[], ?_, .inl rfl⟩
    rw [Path.dropTrailing]
    · rfl
    · exact noSlash
    · exact noDot

namespace Path

variable {path parent : Path}

/-- The beginning of a path up to its last step is the beginning of its text. -/
theorem exists_eq_base_append (path : Path) : ∃ rest, path.text.toList = path.base ++ rest := by
  obtain ⟨dropped, eq, -⟩ := exists_eq_append_dropTrailing path.text.toList.reverse
  have trimmed : path.text.toList = path.trimmed ++ dropped.reverse := by
    rw [Path.trimmed, ← List.reverse_append, ← eq, List.reverse_reverse]
  have name := List.takeWhile_append_dropWhile (p := (· ≠ '/')) (l := path.trimmed.reverse)
  refine ⟨(path.trimmed.reverse.takeWhile (· ≠ '/')).reverse ++ dropped.reverse, ?_⟩
  rw [← List.append_assoc, base, ← List.reverse_append, name, List.reverse_reverse, ← trimmed]

/-- A text without what is dropped from its end has a slash behind it, unless nothing is left. -/
theorem exists_eq_append_slash (text : List Char)
    (ends : text.head? = some '/' ∨ text = []) (left : dropTrailing text ≠ []) :
    ∃ start, text = start ++ '/' :: dropTrailing text := by
  obtain ⟨dropped, eq, rfl | ⟨start, rfl⟩⟩ := exists_eq_append_dropTrailing text
  · rcases ends with slash | rfl
    · -- a slash at the end is dropped
      obtain ⟨rest, rfl⟩ := List.head?_eq_some_iff.mp slash
      obtain ⟨dropped, eq', -⟩ := exists_eq_append_dropTrailing rest
      rw [dropTrailing, List.nil_append] at eq
      have length := congrArg List.length eq
      have length' := congrArg List.length eq'
      rw [List.length_cons] at length
      rw [List.length_append] at length'
      omega
    · exact absurd rfl left
  · exact ⟨start, by rw [List.append_assoc] at eq; exact eq⟩

/-- A parent is written at the beginning of its path, or it is the top. -/
theorem parent?_cases (has : path.parent? = some parent) :
    parent.text = "" ∨ parent.text = "/" ∨
      ∃ rest, path.text.toList = parent.text.toList ++ '/' :: rest := by
  unfold parent? at has
  split at has
  · cases has
  · dsimp only at has
    split at has
    · obtain rfl : Path.mk "/" = parent := Option.some.inj has
      exact .inr (.inl rfl)
    · obtain rfl := Option.some.inj has
      by_cases top : dropTrailing path.base.reverse = []
      · refine .inl ?_
        rw [top]
        rfl
      · obtain ⟨behind, whole⟩ := path.exists_eq_base_append
        have ends : path.base.reverse.head? = some '/' ∨ path.base.reverse = [] := by
          rw [base, List.reverse_reverse]
          cases rest : path.trimmed.reverse.dropWhile (· ≠ '/') with
          | nil => exact .inr rfl
          | cons c later =>
            have slash := List.head?_dropWhile_not (· ≠ '/') path.trimmed.reverse
            rw [rest] at slash
            exact .inl (by simpa using slash)
        obtain ⟨start, eq⟩ := exists_eq_append_slash _ ends top
        have base := congrArg List.reverse eq
        rw [List.reverse_reverse, List.reverse_append] at base
        refine .inr (.inr ⟨start.reverse ++ behind, ?_⟩)
        rw [String.toList_ofList]
        calc path.text.toList
            = path.base ++ behind := whole
          _ = ('/' :: dropTrailing path.base.reverse).reverse ++ start.reverse ++ behind :=
            congrArg (· ++ behind) base
          _ = _ := by simp

end Path

/-! ## Directories along a way -/

namespace FileTree

/-- Whether a directory stands wherever the first pieces of a way lead, and where all of them do. -/
def StandsAlong (tree : FileTree) (pieces : List String) : Prop :=
  ∀ front, front <+: pieces → tree.sight? (front.foldl namesBehind []) = some .directory

variable {tree after found : FileTree} {pieces front names : List String} {name : String}
  {path inner : Path} {place : Place}

theorem foldl_namesBehind_of_empty (empty : ∀ piece ∈ pieces, piece = "") (names : List String) :
    pieces.foldl namesBehind names = names := by
  induction pieces with
  | nil => rfl
  | cons piece later ih =>
    rw [List.forall_mem_cons] at empty
    rw [List.foldl_cons, empty.1, namesBehind_empty, ih empty.2]

namespace StandsAlong

theorem mono (along : tree.StandsAlong pieces) (first : front <+: pieces) :
    tree.StandsAlong front := fun _ earlier => along _ (earlier.trans first)

theorem of_empty (top : tree.sight? [] = some .directory) (empty : ∀ piece ∈ pieces, piece = "") :
    tree.StandsAlong pieces := by
  intro front first
  rw [foldl_namesBehind_of_empty fun piece among => empty piece (first.subset among)]
  exact top

theorem keeps (along : tree.StandsAlong pieces) (keeps : tree.KeepsDirectories after) :
    after.StandsAlong pieces := fun front first => keeps _ (along front first)

/-- Where directories stand along the way to the last piece of a path, they do along the way of its
parent. -/
theorem parent (along : tree.StandsAlong path.pieces.dropLast)
    (has : path.parent? = some inner) : tree.StandsAlong inner.pieces := by
  have top : tree.sight? [] = some .directory := along [] List.nil_prefix
  rcases Path.parent?_cases has with empty | root | ⟨rest, eq⟩
  · refine of_empty top fun piece among => ?_
    rw [Path.pieces, empty] at among
    simpa [splitAtSlashes] using among
  · refine of_empty top fun piece among => ?_
    rw [Path.pieces, root] at among
    simpa [splitAtSlashes] using among
  · have pieces : path.pieces = inner.pieces ++ Path.pieces ⟨String.ofList rest⟩ := by
      rw [Path.pieces, eq, splitAtSlashes_append, List.map_append, Path.pieces, Path.pieces,
        String.toList_ofList]
    refine along.mono ?_
    rw [pieces, List.dropLast_append_of_ne_nil (Path.pieces_ne_nil _)]
    exact List.prefix_append _ _

/-- Where directories stand along the whole way of a path, they stand at all of its ancestors. -/
theorem sight?_ancestor (along : tree.StandsAlong path.pieces) :
    ∀ outer ∈ path.ancestors, tree.sight? outer.location = some .directory := by
  unfold Path.ancestors
  generalize path.components.length = count
  induction count generalizing path with
  | zero => nofun
  | succ count ih =>
    rw [Path.ancestorsUpTo, List.forall_mem_cons]
    refine ⟨along _ List.prefix_rfl, ?_⟩
    cases has : path.parent? with
    | none => nofun
    | some inner => exact ih ((along.mono (List.dropLast_prefix _)).parent has)

/-- Names that lead from a directory to further ones are a way, too. -/
theorem append (along : tree.StandsAlong front) (areNames : ∀ name ∈ names, IsName name)
    (below : ∀ more, more <+: names →
      tree.sight? (front.foldl namesBehind [] ++ more) = some .directory) :
    tree.StandsAlong (front ++ names) := by
  have behind (more : List String) (areNames : ∀ name ∈ more, IsName name) (start : List String) :
      more.foldl namesBehind start = start ++ more := by
    induction more generalizing start with
    | nil => exact (List.append_nil start).symm
    | cons name later ih =>
      rw [List.forall_mem_cons] at areNames
      rw [List.foldl_cons, namesBehind_of_not_isDots areNames.1.proper, ih areNames.2,
        List.append_assoc, List.singleton_append]
  intro first within
  rcases List.prefix_or_prefix_of_prefix within (List.prefix_append front names) with
    shorter | ⟨more, rfl⟩
  · exact along first shorter
  · have within : more <+: names := (List.prefix_append_right_inj front).mp within
    rw [List.foldl_append, behind more fun name among => areNames name (within.subset among)]
    exact below more within

end StandsAlong

/-- Directories stand along a way that leads to one. -/
theorem standsAlong_of_follow (leads : Place.follow ⟨[], tree⟩ pieces = .ok place)
    (ends : place.here.sight = .directory) : tree.StandsAlong pieces := by
  rintro front ⟨later, rfl⟩
  rw [Place.follow_append] at leads
  obtain ⟨middle, first, leads⟩ := except_bind_eq_ok.mp leads
  obtain ⟨of, names⟩ := Place.Of.top.follow first
  rw [show front.foldl namesBehind [] = middle.names from names.symm, sight?, of.at?_names,
    Option.map_some, Place.isDirectory_of_follow leads ends]

/-- Directories stand along the way to the last piece of a path that is found. -/
theorem standsAlong_of_find (finds : tree.find path = .ok found) :
    tree.StandsAlong path.pieces.dropLast := by
  obtain ⟨holder, entries, held, -⟩ := exists_holder_of_find finds
  obtain ⟨-, leads, here, -⟩ := findHolder_eq_ok.mp held
  exact standsAlong_of_follow leads (by rw [here]; rfl)

theorem standsAlong_of_find_directory {entries : List (String × FileTree)}
    (finds : tree.find path = .ok (directory entries)) : tree.StandsAlong path.pieces := by
  obtain ⟨pieces, admitted, finds⟩ := except_bind_eq_ok.mp finds
  obtain rfl := eq_pieces_of_admitted admitted
  obtain ⟨place, leads, found⟩ := except_bind_eq_ok.mp finds
  exact standsAlong_of_follow leads (by rw [Except.ok.inj found]; rfl)

/-- Above what is seen in a tree there are directories. -/
theorem sight?_eq_directory_of_append {sight : Sight} {more : List String}
    (seen : tree.sight? (names ++ more) = some sight) (nonempty : more ≠ []) :
    tree.sight? names = some .directory := by
  obtain ⟨here, stands, -⟩ := Option.map_eq_some_iff.mp seen
  rw [at?_append] at stands
  obtain ⟨above, held, stands⟩ := Option.bind_eq_some_iff.mp stands
  obtain ⟨first, later, rfl⟩ := List.exists_cons_of_ne_nil nonempty
  cases above with
  | file content => cases stands
  | directory entries => exact sight?_eq_directory.mpr ⟨entries, held⟩

end FileTree

/-! ## Ways below a path -/

namespace Path

variable {path : Path} {names : List String} {name : String}

theorem front_join (isName : IsName name) : (path.join ⟨name⟩).front = path.front ++ [name] := by
  rcases (path.join ⟨name⟩).pieces_eq_front with same | longer
  · rw [← same, pieces_join isName.plain]
  · rw [pieces_join isName.plain] at longer
    have empty : name = "" := (List.cons.inj (List.append_inj' longer rfl).2).1
    exact absurd (.inl empty) (isDots_eq_false.mp isName.proper).1

theorem front_below (areNames : ∀ name ∈ names, IsName name) :
    (path.below names).front = path.front ++ names := by
  induction names generalizing path with
  | nil => exact (List.append_nil _).symm
  | cons name later ih =>
    rw [List.forall_mem_cons] at areNames
    show ((path.join ⟨name⟩).below later).front = _
    rw [ih areNames.2, front_join areNames.1, List.append_assoc, List.singleton_append]

theorem front_isPrefix (path : Path) : path.front <+: path.pieces := by
  rcases path.pieces_eq_front with same | longer
  · exact same ▸ List.prefix_rfl
  · exact longer ▸ List.prefix_append _ _

end Path

/-- Directories stand along the way to a name below a directory that is found. -/
theorem FileTree.standsAlong_below {tree : FileTree} {path : Path}
    {entries : List (String × FileTree)} {names : List String} {name : String} {sight : Sight}
    (finds : tree.find path = .ok (directory entries)) (areNames : ∀ name ∈ names, IsName name)
    (isName : IsName name) (seen : tree.sight? (path.location ++ names ++ [name]) = some sight) :
    tree.StandsAlong ((path.below names).join ⟨name⟩).pieces.dropLast := by
  rw [Path.pieces_join isName.plain, List.dropLast_concat, Path.front_below areNames]
  refine ((standsAlong_of_find_directory finds).mono path.front_isPrefix).append areNames ?_
  rintro more ⟨rest, rfl⟩
  rw [← Path.location_eq_foldl_front]
  have further : tree.sight? (path.location ++ more ++ (rest ++ [name])) = some sight := by
    rw [← seen]
    simp
  exact sight?_eq_directory_of_append further (by simp)

end JackCompiler
