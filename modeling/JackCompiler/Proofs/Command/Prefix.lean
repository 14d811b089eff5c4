import JackCompiler.Proofs.Command.Storing
import JackCompiler.Proofs.Command.Destination

/-!
# What a run compiles

A run compiles its sources one after the other and prints or writes each output, until a source does
not compile or its output cannot be written. `Options.Completes` relates a tree, the sources that
are done with their outputs, and the tree behind them; `Options.StopsAt` says that a run cannot go
on. Carrying out a plan is of that form (`exists_getsThrough`). Since no two outputs go to one
place, each of them is found when the run ends (`Completes.find_eq_file`), and no other file has
changed (`Completes.sight?_eq_file`). A whole run is settled by that (`run_compilesPrefix`).
-/

set_option autoImplicit false

namespace JackCompiler

open FileTree

/-! ## The sources that are done -/

namespace Options

/-- Whether a run gets from a tree through some sources, each with its output, to another tree. -/
inductive Completes (options : Options) : FileTree → List (SourceFile × String) → FileTree → Prop
  | nil (tree : FileTree) : Completes options tree [] tree
  | print {tree after : FileTree} {source : SourceFile} {text : String}
      {later : List (SourceFile × String)} (prints : options.toOutput = true)
      (compiles : (options.outputOf source.contents).result = .ok text)
      (rest : Completes options tree later after) :
      Completes options tree ((source, text) :: later) after
  | store {tree middle after : FileTree} {source : SourceFile} {text : String}
      {later : List (SourceFile × String)} (stores : options.toOutput = false)
      (compiles : (options.outputOf source.contents).result = .ok text)
      (stored : disk.store (options.destination source.path) text tree = (.ok (), middle))
      (rest : Completes options middle later after) :
      Completes options tree ((source, text) :: later) after

/-- Whether a run cannot go on at a source: it does not compile, or its output is to be written and
cannot be. -/
def StopsAt (options : Options) (tree : FileTree) (source : SourceFile) : Prop :=
  (∃ error, (options.outputOf source.contents).result = .error error) ∨
    options.toOutput = false ∧ ∃ text failure after,
      (options.outputOf source.contents).result = .ok text ∧
        disk.store (options.destination source.path) text tree = (.error failure, after)

variable {options : Options} {tree middle after : FileTree} {done : List (SourceFile × String)}

theorem Completes.eq_of_print (completes : options.Completes tree done after)
    (prints : options.toOutput = true) : after = tree := by
  induction completes with
  | nil tree => rfl
  | print _ _ _ ih => exact ih
  | store stores =>
    rw [prints] at stores
    cases stores

/-- Only outputs that have a place are written. -/
theorem Completes.hasPlace (completes : options.Completes tree done after)
    (stores : options.toOutput = false) : ∀ pair ∈ done, options.HasPlace pair.1.path := by
  induction completes with
  | nil => nofun
  | print prints =>
    rw [stores] at prints
    cases prints
  | store _ _ stored _ ih =>
    obtain ⟨middle, -, wrote⟩ := exists_of_store_eq_ok stored
    exact List.forall_mem_cons.mpr ⟨isDots_lastPiece_of_write wrote, ih⟩

theorem Completes.keepsDirectories (completes : options.Completes tree done after) :
    tree.KeepsDirectories after := by
  induction completes with
  | nil tree => exact .refl tree
  | print _ _ _ ih => exact ih
  | store _ _ stored _ ih => exact (keepsDirectories_of_store stored).trans ih

/-- The files in places where no output went are the same. -/
theorem Completes.sight?_eq_file (completes : options.Completes tree done after)
    {names : List String}
    (elsewhere : options.toOutput = false → ∀ pair ∈ done,
      names ≠ (options.destination pair.1.path).location) (content : ByteArray) :
    after.sight? names = some (.file content) ↔ tree.sight? names = some (.file content) := by
  induction completes with
  | nil tree => rfl
  | print prints _ _ ih => exact ih fun stores => absurd stores (by simp [prints])
  | store stores _ stored _ ih =>
    have apart := List.forall_mem_cons.mp (elsewhere stores)
    obtain ⟨middle, grows, wrote⟩ := exists_of_store_eq_ok stored
    rw [ih fun _ => apart.2, sight?_write wrote, if_neg apart.1, grows.sight?_eq_file]

theorem Completes.find_eq_file_of_apart (completes : options.Completes tree done middle)
    (stores : options.toOutput = false)
    (apart : done.Pairwise fun one two =>
      (options.destination one.1.path).location ≠ (options.destination two.1.path).location)
    (grows : middle.Grows after) :
    ∀ pair ∈ done, after.find (options.destination pair.1.path) = .ok (.file pair.2.toUTF8) := by
  induction completes with
  | nil => nofun
  | print prints =>
    rw [stores] at prints
    cases prints
  | @store tree first middle source text later _ _ stored rest ih =>
    rw [List.pairwise_cons] at apart
    refine List.forall_mem_cons.mpr ⟨?_, ih apart.2 grows⟩
    obtain ⟨made, -, wrote⟩ := exists_of_store_eq_ok stored
    have keeps : made.KeepsDirectories after :=
      (keepsDirectories_of_write wrote).trans
        (rest.keepsDirectories.trans grows.keepsDirectories)
    refine find_of_write wrote keeps ?_
    rw [grows.sight?_eq_file, rest.sight?_eq_file fun _ => apart.1, sight?_write wrote, if_pos rfl]

/-- Each output that was written is found, if they all went to different places. -/
theorem Completes.find_eq_file (completes : options.Completes tree done middle)
    (stores : options.toOutput = false)
    (apart : (done.map Prod.fst).Pairwise fun one two => options.HasPlace one.path →
      options.HasPlace two.path →
        (options.destination one.path).location ≠ (options.destination two.path).location)
    (grows : middle.Grows after) :
    ∀ pair ∈ done, after.find (options.destination pair.1.path) = .ok (.file pair.2.toUTF8) := by
  have hasPlace := completes.hasPlace stores
  rw [List.pairwise_map] at apart
  exact completes.find_eq_file_of_apart stores (apart.imp_of_mem fun among among' different =>
    different (hasPlace _ among) (hasPlace _ among')) grows

end Options

/-! ## Carrying out a plan -/

/-- A text that is printed does not touch the tree. -/
theorem perform_print (ending : Report) (events : List Event) (text : String) (later : List Step)
    (tree : FileTree) :
    disk.perform ending (⟨events, .print text⟩ :: later) tree =
      ((disk.perform ending later tree).1.behind text events,
        (disk.perform ending later tree).2) := rfl

/-- The steps behind a text that is stored are taken only if it could be. -/
theorem perform_store (ending : Report) (events : List Event) (source destination : Path)
    (text : String) (later : List Step) (tree : FileTree) :
    disk.perform ending (⟨events, .store source destination text⟩ :: later) tree =
      match disk.store destination text tree with
      | (.error failure, after) => (⟨"", events, some failure⟩, after)
      | (.ok (), after) =>
        ((disk.perform ending later after).1.behind "" (events ++ [.written source destination]),
          (disk.perform ending later after).2) := by
  rw [Disk.perform, bind_apply]
  rcases disk.store destination text tree with ⟨failure | done, after⟩ <;> rfl

/-- Carrying out the plan for some sources in a tree. -/
def performSources (options : Options) (sources : List SourceFile) (tree : FileTree) :
    Report × FileTree :=
  let plan := Plan.ofSources options sources
  disk.perform ⟨"", plan.closing, plan.failure?⟩ plan.steps tree

section PerformSources

variable {options : Options} {source : SourceFile} {text : String}

theorem performSources_of_error {error : CompileError} (later : List SourceFile) (tree : FileTree)
    (fails : (options.outputOf source.contents).result = .error error) :
    performSources options (source :: later) tree =
      (⟨"", (options.outputOf source.contents).events, some (.compiling source.path error)⟩,
        tree) := by
  unfold performSources
  rw [Plan.ofSources, fails]
  rfl

theorem performSources_of_ok (later : List SourceFile) (tree : FileTree)
    (compiles : (options.outputOf source.contents).result = .ok text) :
    performSources options (source :: later) tree =
      let plan := Plan.ofSources options later
      disk.perform ⟨"", plan.closing, plan.failure?⟩
        (⟨(options.outputOf source.contents).events, options.action source.path text⟩ ::
          plan.steps) tree := by
  unfold performSources
  rw [Plan.ofSources, compiles]

theorem performSources_print (later : List SourceFile) (tree : FileTree)
    (prints : options.toOutput = true)
    (compiles : (options.outputOf source.contents).result = .ok text) :
    performSources options (source :: later) tree =
      ((performSources options later tree).1.behind text (options.outputOf source.contents).events,
        (performSources options later tree).2) := by
  rw [performSources_of_ok later tree compiles, Options.action, if_pos prints, perform_print]
  rfl

theorem performSources_store (later : List SourceFile) (tree : FileTree)
    (stores : options.toOutput = false)
    (compiles : (options.outputOf source.contents).result = .ok text) :
    performSources options (source :: later) tree =
      match disk.store (options.destination source.path) text tree with
      | (.error failure, after) =>
        (⟨"", (options.outputOf source.contents).events, some failure⟩, after)
      | (.ok (), after) =>
        ((performSources options later after).1.behind ""
          ((options.outputOf source.contents).events ++
            [.written source.path (options.destination source.path)]),
          (performSources options later after).2) := by
  rw [performSources_of_ok later tree compiles, Options.action, if_neg (by simp [stores]),
    perform_store]
  rfl

end PerformSources

/-- What carrying out a plan comes to: it gets through the first sources, and stops at the next one
if there is one. -/
structure GetsThrough (options : Options) (tree : FileTree) (sources : List SourceFile)
    (report : Report) (after : FileTree) (done : List (SourceFile × String))
    (rest : List SourceFile) (middle : FileTree) : Prop where
  sources_eq : sources = done.map Prod.fst ++ rest
  completes : options.Completes tree done middle
  stops : ∀ source ∈ rest.head?, options.StopsAt middle source
  grows : middle.Grows after
  unchanged : options.toOutput = true ∨ rest = [] → after = middle
  succeeds : report.failure?.isNone = rest.isEmpty
  output : report.output = if options.toOutput then String.join (done.map Prod.snd) else ""

/-- The induction is on the sources, along the trees that the steps leave behind. -/
theorem exists_getsThrough (options : Options) (sources : List SourceFile) (tree : FileTree) :
    ∃ done rest middle, GetsThrough options tree sources (performSources options sources tree).1
      (performSources options sources tree).2 done rest middle := by
  induction sources generalizing tree with
  | nil => exact ⟨[], [], tree, rfl, .nil tree, nofun, .refl tree, fun _ => rfl, rfl, by
      split <;> rfl⟩
  | cons source later ih =>
    cases compiles : (options.outputOf source.contents).result with
    | error error =>
      rw [performSources_of_error later tree compiles]
      refine ⟨[], source :: later, tree, rfl, .nil tree, ?_, .refl tree, fun _ => rfl, rfl, by
        split <;> rfl⟩
      rintro _ ⟨⟩
      exact .inl ⟨error, compiles⟩
    | ok text =>
      cases mode : options.toOutput with
      | true =>
        obtain ⟨done, rest, middle, through⟩ := ih tree
        rw [performSources_print later tree mode compiles]
        refine ⟨(source, text) :: done, rest, middle, ?_, .print mode compiles through.completes,
          through.stops, through.grows, through.unchanged, through.succeeds, ?_⟩
        · rw [through.sources_eq, List.map_cons, List.cons_append]
        · show text ++ _ = _
          rw [through.output, if_pos mode, if_pos mode, List.map_cons, String.join_cons]
      | false =>
        have printsNothing : ¬ options.toOutput = true := by simp [mode]
        rw [performSources_store later tree mode compiles]
        cases stored : disk.store (options.destination source.path) text tree with
        | mk result next =>
          cases result with
          | error failure =>
            refine ⟨[], source :: later, tree, rfl, .nil tree, ?_, grows_of_store_eq_error stored,
              ?_, rfl, (if_neg printsNothing).symm⟩
            · rintro _ ⟨⟩
              exact .inr ⟨mode, text, failure, next, compiles, stored⟩
            · rintro (prints | empty)
              · exact absurd prints printsNothing
              · cases empty
          | ok stands =>
            obtain ⟨done, rest, middle, through⟩ := ih next
            refine ⟨(source, text) :: done, rest, middle, ?_,
              .store mode compiles stored through.completes, through.stops, through.grows,
              through.unchanged, through.succeeds, ?_⟩
            · rw [through.sources_eq, List.map_cons, List.cons_append]
            · show "" ++ _ = _
              rw [through.output, if_neg printsNothing, if_neg printsNothing]
              rfl

/-! ## Runs -/

/-- How a run ends that has found nothing to compile. -/
structure Fruitless (tree : FileTree) (answer : Answer) (after : FileTree) : Prop where
  code : answer.code = 1
  output : answer.output = ""
  unchanged : after = tree

/-- How a run ends that has found sources: some of them are done, and the run stopped at the first
one of the rest. -/
structure CompilesPrefix (options : Options) (tree : FileTree) (sources : List SourceFile)
    (answer : Answer) (after : FileTree) (done : List (SourceFile × String))
    (rest : List SourceFile) (middle : FileTree) : Prop where
  sources_eq : sources = done.map Prod.fst ++ rest
  completes : options.Completes tree done middle
  stops : ∀ source ∈ rest.head?, options.StopsAt middle source
  code : answer.code = if rest = [] then 0 else 1
  output : answer.output = if options.toOutput then String.join (done.map Prod.snd) else ""
  unchanged : options.toOutput = true → after = tree
  /-- Each output of a source that is done is found at its destination. -/
  written : options.toOutput = false → ∀ pair ∈ done,
    after.find (options.destination pair.1.path) = .ok (.file pair.2.toUTF8)
  /-- No other file has come or gone or changed. -/
  others : options.toOutput = false → ∀ names,
    (∀ pair ∈ done, names ≠ (options.destination pair.1.path).location) →
      ∀ content, after.at? names = some (.file content) ↔ tree.at? names = some (.file content)
  /-- No file has come or gone or changed where the outputs of the rest would have gone. -/
  unwritten : options.toOutput = false → ∀ source ∈ rest, options.HasPlace source.path →
    ∀ content, after.at? (options.destination source.path).location = some (.file content) ↔
      tree.at? (options.destination source.path).location = some (.file content)

section Run

variable {arguments : List String} {options : Options} {tree : FileTree}

/-- A run looks at the tree first and then carries out its plan. -/
theorem run_eq (accepted : Request.ofArguments arguments = .compile options) :
    run arguments tree =
      let plan := Plan.ofFound options (tree.find options.path)
      let (report, after) := disk.perform ⟨"", plan.closing, plan.failure?⟩ plan.steps tree
      ((report.behind "" plan.opening).answer options.verbosity, after) := by
  unfold run Disk.run
  rw [accepted]
  rfl

/-- What a run comes to that has found sources: what carrying out the plan for them comes to. -/
theorem compilesPrefix_of_getsThrough {sources : List SourceFile} {report : Report}
    {after middle : FileTree} {done : List (SourceFile × String)} {rest : List SourceFile}
    {opening : List Event}
    (apart : sources.Pairwise fun one two => options.HasPlace one.path → options.HasPlace two.path →
      (options.destination one.path).location ≠ (options.destination two.path).location)
    (through : GetsThrough options tree sources report after done rest middle) :
    CompilesPrefix options tree sources ((report.behind "" opening).answer options.verbosity) after
      done rest middle := by
  have filesOfAfter (names : List String) (elsewhere : options.toOutput = false → ∀ pair ∈ done,
      names ≠ (options.destination pair.1.path).location) (content : ByteArray) :
      after.at? names = some (.file content) ↔ tree.at? names = some (.file content) := by
    rw [← sight?_eq_file, ← sight?_eq_file, through.grows.sight?_eq_file,
      through.completes.sight?_eq_file elsewhere]
  rw [through.sources_eq, List.pairwise_append] at apart
  obtain ⟨amongDone, -, betweenBoth⟩ := apart
  refine ⟨through.sources_eq, through.completes, through.stops, ?_, ?_, fun prints => ?_,
    fun stores => ?_, fun stores names elsewhere => filesOfAfter names fun _ => elsewhere,
    fun stores source among hasPlace => filesOfAfter _ fun _ pair done same => ?_⟩
  · show (if report.failure?.isNone then 0 else 1) = _
    rw [through.succeeds]
    cases rest <;> rfl
  · show "" ++ report.output = _
    rw [String.empty_append, through.output]
  · rw [through.unchanged (.inl prints), through.completes.eq_of_print prints]
  · exact through.completes.find_eq_file stores amongDone through.grows
  · exact betweenBoth _ (List.mem_map_of_mem done) source among
      (through.completes.hasPlace stores pair done) hasPlace same.symm

/-- The outputs of the sources that a run finds go to different places. -/
theorem pairwise_of_find {sources : List SourceFile} (wellFormed : tree.WellFormed)
    (collected : (collectSources options.path (tree.find options.path)).result = .ok sources) :
    sources.Pairwise fun one two => options.HasPlace one.path → options.HasPlace two.path →
      (options.destination one.path).location ≠ (options.destination two.path).location := by
  cases finds : tree.find options.path with
  | error error =>
    rw [finds] at collected
    cases collected
  | ok found =>
    rw [finds] at collected
    exact Options.pairwise_destination (wellFormed.at? (at?_location_of_find finds)) collected

/-- A run compiles a prefix of its sources and nothing else, and only one that compiles all of them
succeeds. -/
theorem run_compilesPrefix (accepted : Request.ofArguments arguments = .compile options)
    (wellFormed : tree.WellFormed) :
    match (collectSources options.path (tree.find options.path)).result with
    | .ok (source :: later) => ∃ done rest middle,
      CompilesPrefix options tree (source :: later) (run arguments tree).1 (run arguments tree).2
        done rest middle
    | _ => Fruitless tree (run arguments tree).1 (run arguments tree).2 := by
  cases collected : (collectSources options.path (tree.find options.path)).result with
  | error error =>
    rw [run_eq accepted, Plan.ofFound, collected]
    exact ⟨rfl, rfl, rfl⟩
  | ok sources =>
    cases sources with
    | nil =>
      rw [run_eq accepted, Plan.ofFound, collected]
      exact ⟨rfl, rfl, rfl⟩
    | cons source later =>
      have apart := pairwise_of_find wellFormed collected
      obtain ⟨done, rest, middle, through⟩ := exists_getsThrough options (source :: later) tree
      rw [run_eq accepted, Plan.ofFound, collected]
      exact ⟨done, rest, middle, compilesPrefix_of_getsThrough apart through⟩

/-- Of two sources the first one is compiled, and the run stops at the second one, which lacks a
brace. -/
theorem run_compilesPrefix_missingBrace :
    let good := "class A \x7b function void f() \x7b return; \x7d \x7d"
    let bad := "class B \x7b"
    let tree : FileTree := .directory [("src", .directory [("A.jack", .file good.toUTF8),
      ("B.jack", .file bad.toUTF8)])]
    let options : Options := ⟨⟨"src"⟩, false, false, none, 0⟩
    Request.ofArguments ["src"] = .compile options ∧ tree.WellFormed ∧
      ∃ done rest middle, CompilesPrefix options tree
        [⟨⟨"src/A.jack"⟩, good⟩, ⟨⟨"src/B.jack"⟩, bad⟩]
        (run ["src"] tree).1 (run ["src"] tree).2 done rest middle := by
  intro good bad tree options
  have accepted : Request.ofArguments ["src"] = .compile options := by decide +kernel
  have wellFormed : tree.WellFormed := by
    refine .directory (by decide +kernel) (by simp) (List.forall_mem_singleton.mpr ?_)
    refine .directory (by decide +kernel) (by simp) (by simp [WellFormed.file])
  have found : tree.find ⟨"src"⟩ = .ok (.directory [("A.jack", .file good.toUTF8),
      ("B.jack", .file bad.toUTF8)]) := by rfl
  have joined : (Path.mk "src").join ⟨"A.jack"⟩ = ⟨"src/A.jack"⟩ ∧
      (Path.mk "src").join ⟨"B.jack"⟩ = ⟨"src/B.jack"⟩ := by decide +kernel
  have along : (sourcesAlong [.directory ⟨"src"⟩, .file ⟨"src/A.jack"⟩ good.toUTF8,
      .file ⟨"src/B.jack"⟩ bad.toUTF8]).result =
      .ok [⟨⟨"src/A.jack"⟩, good⟩, ⟨⟨"src/B.jack"⟩, bad⟩] := by decide +kernel
  have collected : (collectSources options.path (tree.find options.path)).result =
      .ok [⟨⟨"src/A.jack"⟩, good⟩, ⟨⟨"src/B.jack"⟩, bad⟩] := by
    show (collectSources ⟨"src"⟩ (tree.find ⟨"src"⟩)).result = _
    rw [found]
    refine collectSources_of_sorted ?_ (by decide +kernel)
    rw [walk_directory, sortedEntries, List.mergeSort_of_pairwise (by decide)]
    simp only [List.flatMap_cons, List.flatMap_nil, walk, joined, List.cons_append, List.nil_append]
    exact along
  have outcome := run_compilesPrefix accepted wellFormed
  rw [collected] at outcome
  exact ⟨accepted, wellFormed, outcome⟩

end Run

end JackCompiler
