import JackCompiler.Proofs.Files.Collect
import JackCompiler.Proofs.Files.Slash
import JackCompiler.Proofs.Command.Beside

/-!
# Running again

A run that succeeds leaves every output in its place and no new source, so the same run finds the
same sources again (`collected_again`) and stores what is there already, which changes nothing
(`performSources_again`). One thing can be in its way: a directory made below the searched path may
have too long a path to be opened there (`Options.Opens`). A run with that in its way stops before
it does anything (`fruitless_again`).
-/

set_option autoImplicit false

namespace JackCompiler

open FileTree

/-- Whether each directory below the searched path that is new in a later tree can be opened. -/
def Options.Opens (options : Options) (tree after : FileTree) : Prop :=
  ∀ names, tree.sight? (options.path.location ++ names) ≠ some .directory →
    after.sight? (options.path.location ++ names) = some .directory →
      (options.path.below names).isTooLong = false

variable {arguments : List String} {options : Options} {tree middle after later : FileTree}
  {sources : List SourceFile}

/-! ## What a run comes to -/

theorem run_refused (refused : Request.ofArguments arguments = .refused) (tree : FileTree) :
    run arguments tree = (.refusal, tree) := by
  unfold run Disk.run
  rw [refused]
  rfl

theorem run_version (version : Request.ofArguments arguments = .version) (tree : FileTree) :
    run arguments tree = (.version, tree) := by
  unfold run Disk.run
  rw [version]
  rfl

/-- A run that finds sources does what the plan for them says. -/
theorem run_of_collected (accepted : Request.ofArguments arguments = .compile options)
    (collected : (collectSources options.path (tree.find options.path)).result = .ok sources)
    (nonempty : sources ≠ []) :
    ∃ opening, run arguments tree =
      (((performSources options sources tree).1.behind "" opening).answer options.verbosity,
        (performSources options sources tree).2) := by
  rw [run_eq accepted, Plan.ofFound, collected]
  cases sources with
  | nil => exact absurd rfl nonempty
  | cons source later => exact ⟨_, rfl⟩

/-- A run that finds nothing to compile does nothing. -/
theorem fruitless_of_collected (accepted : Request.ofArguments arguments = .compile options)
    (nothing : ∀ sources,
      (collectSources options.path (tree.find options.path)).result = .ok sources → sources = []) :
    Fruitless tree (run arguments tree).1 (run arguments tree).2 := by
  rw [run_eq accepted, Plan.ofFound]
  cases collected : (collectSources options.path (tree.find options.path)).result with
  | error error => exact ⟨rfl, rfl, rfl⟩
  | ok sources =>
    obtain rfl := nothing sources collected
    exact ⟨rfl, rfl, rfl⟩

theorem fruitless_of_error {error : SourceError}
    (accepted : Request.ofArguments arguments = .compile options)
    (fails : (collectSources options.path (tree.find options.path)).result = .error error) :
    Fruitless tree (run arguments tree).1 (run arguments tree).2 :=
  fruitless_of_collected accepted fun sources found => by
    rw [fails] at found
    cases found

/-- What a run has done that succeeds: it has found sources, and all of them are done. -/
structure Succeeds (options : Options) (tree : FileTree) (output : String) (after : FileTree)
    (done : List (SourceFile × String)) : Prop where
  nonempty : done.map Prod.fst ≠ []
  collected :
    (collectSources options.path (tree.find options.path)).result = .ok (done.map Prod.fst)
  completes : options.Completes tree done after
  output_eq : output = if options.toOutput then String.join (done.map Prod.snd) else ""

theorem exists_succeeds (accepted : Request.ofArguments arguments = .compile options)
    (succeeds : (run arguments tree).1.code = 0) :
    ∃ done, Succeeds options tree (run arguments tree).1.output (run arguments tree).2 done := by
  cases collected : (collectSources options.path (tree.find options.path)).result with
  | error error =>
    rw [(fruitless_of_error accepted collected).code] at succeeds
    cases succeeds
  | ok sources =>
    by_cases nonempty : sources = []
    · have fruitless := fruitless_of_collected accepted fun sources' found => by
        rw [collected] at found
        exact (Except.ok.inj found).symm.trans nonempty
      rw [fruitless.code] at succeeds
      cases succeeds
    · obtain ⟨opening, ran⟩ := run_of_collected accepted collected nonempty
      obtain ⟨done, rest, middle, through⟩ := exists_getsThrough options sources tree
      rw [ran] at succeeds ⊢
      have code : (if (performSources options sources tree).1.failure?.isNone then 0 else 1) = 0 :=
        succeeds
      have finished : (performSources options sources tree).1.failure?.isNone = true := by
        split at code
        · assumption
        · cases code
      have all := through.succeeds
      rw [finished] at all
      obtain rfl : rest = [] := List.isEmpty_iff.mp all.symm
      have eq : sources = done.map Prod.fst := through.sources_eq.trans (List.append_nil _)
      have unchanged := through.unchanged (.inr rfl)
      exact ⟨done, eq ▸ nonempty, eq ▸ collected, unchanged ▸ through.completes,
        String.empty_append.trans through.output⟩

/-- A run that finds one source and stores its output succeeds. -/
theorem run_of_stored {source : SourceFile} {text : String}
    (accepted : Request.ofArguments arguments = .compile options)
    (collected : (collectSources options.path (tree.find options.path)).result = .ok [source])
    (stores : options.toOutput = false)
    (compiles : (options.outputOf source.contents).result = .ok text)
    (stored : disk.store (options.destination source.path) text tree = (.ok (), after)) :
    (run arguments tree).1.code = 0 ∧ (run arguments tree).2 = after := by
  obtain ⟨opening, ran⟩ := run_of_collected accepted collected (List.cons_ne_nil _ _)
  rw [ran, performSources_store [] tree stores compiles, stored]
  exact ⟨rfl, rfl⟩

/-- A path is searched as it is written, with all slashes behind it. -/
theorem ofArguments_slashed (count : Nat) :
    Request.ofArguments [(slashed count).text, "--out-dir", "s/outputs"] =
      .compile ⟨slashed count, false, false, some ⟨"s/outputs"⟩, 0⟩ := by
  have unlike {other : String} (first : other.toList.head? ≠ some 's') :
      (slashed count).text ≠ other := by
    rintro rfl
    exact first (by rw [toList_slashed]; rfl)
  have plain : looksLikeOption (slashed count).text = false := by
    simp [looksLikeOption, toList_slashed]
  have taken : ArgumentsSoFar.none.takePath (slashed count).text =
      some { ArgumentsSoFar.none with path? := some (slashed count) } := by
    rw [ArgumentsSoFar.takePath, if_neg]
    rintro (given | empty)
    · cases given
    · exact unlike (by decide) empty
  rw [Request.ofArguments, readArguments, if_neg (unlike (by decide)), if_neg (unlike (by decide)),
    if_neg (unlike (by decide)), if_neg (unlike (by decide)), if_neg (unlike (by decide)),
    if_neg (unlike (by decide)), plain, taken]
  rfl

/-! ## Doing everything again -/

/-- Sources that are done are done again without a change, as long as their outputs are there. -/
theorem performSources_again {done : List (SourceFile × String)}
    (stores : options.toOutput = false) (completes : options.Completes tree done middle)
    (keeps : middle.KeepsDirectories later) (wellFormed : later.WellFormed)
    (finds : ∀ pair ∈ done,
      later.find (options.destination pair.1.path) = .ok (.file pair.2.toUTF8)) :
    ∃ report, performSources options (done.map Prod.fst) later = (report, later) ∧
      report.failure? = none ∧ report.output = "" := by
  induction completes with
  | nil tree => exact ⟨_, rfl, rfl, rfl⟩
  | print prints =>
    rw [stores] at prints
    cases prints
  | store _ compiles stored rest ih =>
    rw [List.forall_mem_cons] at finds
    obtain ⟨report, again, succeeds, output⟩ := ih keeps finds.2
    have here := store_of_find stored (rest.keepsDirectories.trans keeps) wellFormed finds.1
    rw [List.map_cons, performSources_store _ later stores compiles, here]
    dsimp only
    rw [again]
    refine ⟨_, rfl, succeeds, ?_⟩
    show "" ++ report.output = ""
    rw [output, String.empty_append]

theorem wellFormed_performSources (options : Options) (sources : List SourceFile)
    (wellFormed : tree.WellFormed) : (performSources options sources tree).2.WellFormed := by
  induction sources generalizing tree with
  | nil => exact wellFormed
  | cons source later ih =>
    cases compiles : (options.outputOf source.contents).result with
    | error error =>
      rw [performSources_of_error later tree compiles]
      exact wellFormed
    | ok text =>
      cases mode : options.toOutput with
      | true =>
        rw [performSources_print later tree mode compiles]
        exact ih wellFormed
      | false =>
        have stored := wellFormed_store wellFormed (options.destination source.path) text
        rw [performSources_store later tree mode compiles]
        cases next : disk.store (options.destination source.path) text tree with
        | mk result middle =>
          rw [next] at stored
          cases result with
          | error failure => exact stored
          | ok stands => exact ih stored

/-- A run leaves a well-formed tree behind. -/
theorem wellFormed_run (arguments : List String) (wellFormed : tree.WellFormed) :
    (run arguments tree).2.WellFormed := by
  cases request : Request.ofArguments arguments with
  | refused =>
    rw [run_refused request]
    exact wellFormed
  | version =>
    rw [run_version request]
    exact wellFormed
  | compile options =>
    cases collected : (collectSources options.path (tree.find options.path)).result with
    | error error =>
      rw [(fruitless_of_error request collected).unchanged]
      exact wellFormed
    | ok sources =>
      rw [run_tree_eq request collected]
      exact wellFormed_performSources options sources wellFormed

/-! ## Finding the same sources again -/

/-- As long as the sources and the directories stay, they are found again if each directory that
has come can be opened. -/
theorem collected_again (wellFormed : tree.WellFormed) (wellFormed' : after.WellFormed)
    (keeps : tree.KeepsDirectories after)
    (same : ∀ path : Path, path.isSource = true → ∀ content,
      after.sight? path.location = some (.file content) ↔
        tree.sight? path.location = some (.file content))
    (collected : (collectSources options.path (tree.find options.path)).result = .ok sources)
    (nonempty : sources ≠ []) (opens : options.Opens tree after) :
    (collectSources options.path (after.find options.path)).result = .ok sources := by
  cases finds : tree.find options.path with
  | error error =>
    rw [finds] at collected
    cases collected
  | ok found =>
    rw [finds] at collected
    have stands := at?_location_of_find finds
    cases found with
    | file content =>
      rcases collectSources_file_eq_ok.mp collected with ⟨isSource, -⟩ | ⟨-, empty⟩
      · have seen := (same _ isSource content).mpr (sight?_eq_file.mpr stands)
        rw [find_file_of_keeps finds keeps seen]
        exact collected
      · exact absurd empty nonempty
    | directory entries =>
      obtain ⟨entries', finds'⟩ := find_directory_of_keeps finds keeps
      have stands' := at?_location_of_find finds'
      rw [finds']
      refine collectSources_eq_ok_of_same (wellFormed.at? stands) (wellFormed'.at? stands')
        collected (fun names content areNames isSource => ?_) fun names seen => ?_
      · rw [← sight?_append stands, ← sight?_append stands', ← Path.location_below areNames]
        exact same _ isSource content
      · by_cases old : (FileTree.directory entries).sight? names = some .directory
        · exact isTooLong_of_collectSources (wellFormed.at? stands) collected old
        · rw [← sight?_append stands] at old
          rw [← sight?_append stands'] at seen
          exact opens names old seen

/-- Where sources are found, each directory that has come can be opened. -/
theorem opens_of_collected (wellFormed' : after.WellFormed)
    (collected' : (collectSources options.path (after.find options.path)).result = .ok sources) :
    options.Opens tree after := by
  intro names _ seen
  cases finds' : after.find options.path with
  | error error =>
    rw [finds'] at collected'
    cases collected'
  | ok found =>
    have stands' := at?_location_of_find finds'
    rw [sight?_append stands'] at seen
    cases found with
    | file content => cases names <;> cases seen
    | directory entries =>
      rw [finds'] at collected'
      exact isTooLong_of_collectSources (wellFormed'.at? stands') collected' seen

/-! ## Both runs -/

section Both

variable (accepted : Request.ofArguments arguments = .compile options)
  (wellFormed : tree.WellFormed) (succeeds : (run arguments tree).1.code = 0)

include accepted wellFormed succeeds

/-- A run that has succeeded does everything again if it can open what it has made. -/
theorem run_again_of_opens (opens : options.Opens tree (run arguments tree).2) :
    (run arguments (run arguments tree).2).2 = (run arguments tree).2 ∧
      (run arguments (run arguments tree).2).1.code = 0 ∧
      (run arguments (run arguments tree).2).1.output = (run arguments tree).1.output := by
  obtain ⟨done, first⟩ := exists_succeeds accepted succeeds
  cases mode : options.toOutput with
  | true =>
    have unchanged := first.completes.eq_of_print mode
    rw [unchanged]
    exact ⟨unchanged, succeeds, rfl⟩
  | false =>
    have wellFormed' := wellFormed_run arguments wellFormed
    have collected' := collected_again wellFormed wellFormed' first.completes.keepsDirectories
      (fun path isSource => sight?_source_iff wellFormed first.collected first.completes
        (fun pair among => List.mem_map_of_mem among) isSource)
      first.collected first.nonempty opens
    have finds := first.completes.find_eq_file mode
      (pairwise_of_find wellFormed first.collected) (.refl _)
    obtain ⟨report, second, finished, output⟩ :=
      performSources_again mode first.completes (.refl _) wellFormed' finds
    obtain ⟨opening, ran⟩ := run_of_collected accepted collected' first.nonempty
    rw [ran, second, first.output_eq, if_neg (by simp [mode])]
    refine ⟨rfl, ?_, ?_⟩
    · show (if report.failure?.isNone then 0 else 1) = 0
      rw [finished]
      rfl
    · show "" ++ report.output = ""
      rw [output, String.empty_append]

omit succeeds in
/-- A run does nothing again if it cannot open what it has made. -/
theorem fruitless_again (closed : ¬ options.Opens tree (run arguments tree).2) :
    Fruitless (run arguments tree).2 (run arguments (run arguments tree).2).1
      (run arguments (run arguments tree).2).2 :=
  fruitless_of_collected accepted fun _ collected' =>
    absurd (opens_of_collected (wellFormed_run arguments wellFormed) collected') closed

/-- Nothing is made that cannot be opened if outputs are printed, or stored beside the sources. -/
theorem opens_of_beside (beside : options.toOutput = true ∨ options.outDir? = none) :
    options.Opens tree (run arguments tree).2 := by
  obtain ⟨done, first⟩ := exists_succeeds accepted succeeds
  intro names new seen
  rcases beside with prints | beside
  · rw [first.completes.eq_of_print prints] at seen
    exact absurd seen new
  · rw [first.completes.sight?_directory_of_beside wellFormed first.collected beside] at seen
    exact absurd seen new

end Both

/-- A run that has succeeded changes nothing when it is repeated. It succeeds again, with the same
output, unless it has made a directory below the searched path that cannot be opened there; then it
fails and prints nothing. Only a run with an output directory can have made one. -/
theorem run_again (arguments : List String) (tree : FileTree) (wellFormed : tree.WellFormed)
    (succeeds : (run arguments tree).1.code = 0) :
    let after := (run arguments tree).2
    let again := run arguments after
    again.2 = after ∧
      (Request.ofArguments arguments = .version → again.1 = (run arguments tree).1) ∧
      ∀ options, Request.ofArguments arguments = .compile options →
        (options.Opens tree after →
          again.1.code = 0 ∧ again.1.output = (run arguments tree).1.output) ∧
        (¬ options.Opens tree after → again.1.code = 1 ∧ again.1.output = "") ∧
        (options.toOutput = true ∨ options.outDir? = none → options.Opens tree after) := by
  intro after again
  cases request : Request.ofArguments arguments with
  | refused =>
    rw [run_refused request] at succeeds
    cases succeeds
  | version =>
    refine ⟨?_, fun _ => ?_, nofun⟩
    · simp only [again, run_version request]
    · simp only [again, run_version request]
  | compile options =>
    have fruitless := fruitless_again request wellFormed
    have opens := run_again_of_opens request wellFormed succeeds
    refine ⟨?_, nofun, ?_⟩
    · by_cases can : options.Opens tree after
      · exact (opens can).1
      · exact (fruitless can).unchanged
    · rintro _ ⟨⟩
      exact ⟨fun can => (opens can).2, fun closed => ⟨(fruitless closed).code,
        (fruitless closed).output⟩, opens_of_beside request wellFormed succeeds⟩

/-- Outputs that go into a new directory below the searched one. -/
theorem run_again_outputsInside :
    let class_ := "class A \x7b function void f() \x7b return; \x7d \x7d"
    let tree : FileTree := .directory [("src", .directory [("A.jack", .file class_.toUTF8)])]
    let arguments := ["src", "--out-dir", "src/out"]
    tree.WellFormed ∧ (run arguments tree).1.code = 0 ∧
      (run arguments (run arguments tree).2).2 = (run arguments tree).2 ∧
      (run arguments (run arguments tree).2).1.code = 0 := by
  intro class_ tree arguments
  let options : Options := ⟨⟨"src"⟩, false, false, some ⟨"src/out"⟩, 0⟩
  let code := "function A.f 0\npush constant 0\nreturn\n"
  let after : FileTree := .directory [("src", .directory [("A.jack", .file class_.toUTF8),
    ("out", .directory [("A.vm", .file code.toUTF8)])])]
  have accepted : Request.ofArguments arguments = .compile options := by decide +kernel
  have wellFormed : tree.WellFormed := by
    refine .directory (by decide +kernel) (by simp) (List.forall_mem_singleton.mpr ?_)
    exact .directory (by decide +kernel) (by simp) (by simp [WellFormed.file])
  have joined : (Path.mk "src").join ⟨"A.jack"⟩ = ⟨"src/A.jack"⟩ ∧
      (Path.mk "src").join ⟨"out"⟩ = ⟨"src/out"⟩ ∧
      (Path.mk "src/out").join ⟨"A.vm"⟩ = ⟨"src/out/A.vm"⟩ := by decide +kernel
  have collected : (collectSources ⟨"src"⟩ (tree.find ⟨"src"⟩)).result =
      .ok [⟨⟨"src/A.jack"⟩, class_⟩] := by
    have found : tree.find ⟨"src"⟩ = .ok (.directory [("A.jack", .file class_.toUTF8)]) := by rfl
    have along : (sourcesAlong [.directory ⟨"src"⟩, .file ⟨"src/A.jack"⟩ class_.toUTF8]).result =
        .ok [⟨⟨"src/A.jack"⟩, class_⟩] := by decide +kernel
    rw [found]
    refine collectSources_of_sorted ?_ (List.pairwise_singleton _ _)
    rw [walk_directory, sortedEntries, List.mergeSort_singleton]
    simp only [List.flatMap_cons, List.flatMap_nil, walk, joined, List.append_nil]
    exact along
  have collected' : (collectSources ⟨"src"⟩ (after.find ⟨"src"⟩)).result =
      .ok [⟨⟨"src/A.jack"⟩, class_⟩] := by
    have found : after.find ⟨"src"⟩ = .ok (.directory [("A.jack", .file class_.toUTF8),
        ("out", .directory [("A.vm", .file code.toUTF8)])]) := by rfl
    have along : (sourcesAlong [.directory ⟨"src"⟩, .file ⟨"src/A.jack"⟩ class_.toUTF8,
        .directory ⟨"src/out"⟩, .file ⟨"src/out/A.vm"⟩ code.toUTF8]).result =
        .ok [⟨⟨"src/A.jack"⟩, class_⟩] := by decide +kernel
    rw [found]
    refine collectSources_of_sorted ?_ (List.pairwise_singleton _ _)
    rw [walk_directory, sortedEntries, List.mergeSort_of_pairwise (by decide)]
    simp only [List.flatMap_cons, List.flatMap_nil, walk_directory, sortedEntries,
      List.mergeSort_singleton, joined]
    simp only [walk, List.cons_append, List.nil_append, List.append_nil]
    exact along
  have compiles : (options.outputOf class_).result = .ok code := by decide +kernel
  have stored : disk.store (options.destination ⟨"src/A.jack"⟩) code tree = (.ok (), after) := by
    have destination : options.destination ⟨"src/A.jack"⟩ = ⟨"src/out/A.vm"⟩ := by decide +kernel
    rw [destination]
    rfl
  obtain ⟨succeeds, eq⟩ := run_of_stored accepted collected rfl compiles stored
  have opens : options.Opens tree (run arguments tree).2 := by
    have wellFormed' := wellFormed_run arguments wellFormed
    rw [eq] at wellFormed' ⊢
    exact opens_of_collected wellFormed' collected'
  obtain ⟨unchanged, -, again⟩ := run_again arguments tree wellFormed succeeds
  exact ⟨wellFormed, succeeds, unchanged, ((again options accepted).1 opens).1⟩

/-- A directory for outputs whose path has one byte too much when it is written behind the searched
path with all its slashes. -/
theorem run_again_slashed :
    let class_ := "class A \x7b function void f() \x7b return; \x7d \x7d"
    let tree : FileTree := .directory [("s", .directory [("A.jack", .file class_.toUTF8)])]
    let arguments := [(slashed 4088).text, "--out-dir", "s/outputs"]
    tree.WellFormed ∧ (run arguments tree).1.code = 0 ∧
      (run arguments (run arguments tree).2).1.code = 1 := by
  -- the searched path leaves room for the source, and one byte less for the outputs
  obtain ⟨count, many, full⟩ : ∃ count, 4088 = count + 1 ∧ count + 8 = maxPathBytes :=
    ⟨4087, rfl, rfl⟩
  rw [many]
  intro class_ tree arguments
  let options : Options := ⟨slashed (count + 1), false, false, some ⟨"s/outputs"⟩, 0⟩
  let code := "function A.f 0\npush constant 0\nreturn\n"
  let after : FileTree := .directory [("s", .directory [("A.jack", .file class_.toUTF8),
    ("outputs", .directory [("A.vm", .file code.toUTF8)])])]
  let source : Path := (slashed (count + 1)).join ⟨"A.jack"⟩
  have accepted : Request.ofArguments arguments = .compile options := ofArguments_slashed _
  have wellFormed : tree.WellFormed := by
    refine .directory (by decide +kernel) (by simp) (List.forall_mem_singleton.mpr ?_)
    exact .directory (by decide +kernel) (by simp) (by simp [WellFormed.file])
  have isName : IsName "A.jack" := by decide +kernel
  have extension : (Path.splitExtension "A.jack".toList).2 = some sourceExtension.toList := by
    decide +kernel
  have below : source.IsSourceBelow options.path [] "A.jack" :=
    ⟨List.forall_mem_nil _, isName, rfl, extension⟩
  have searched : (slashed (count + 1)).isTooLong = false := by
    rw [Path.isTooLong, utf8ByteSize_slashed, decide_eq_false_iff_not]
    omega
  have fits : source.isTooLong = false := by
    have size : "A.jack".utf8ByteSize = 6 := by decide
    rw [Path.isTooLong, utf8ByteSize_join_slashed rfl, decide_eq_false_iff_not, size]
    omega
  have collected : (collectSources options.path (tree.find options.path)).result =
      .ok [⟨source, class_⟩] := by
    have found : tree.find (slashed (count + 1)) =
        .ok (.directory [("A.jack", .file class_.toUTF8)]) := find_slashed (by omega) rfl
    have isSource : source.isSource = true := by
      rw [Path.isSource, Path.extension?, Path.fileName?_join isName]
      decide +kernel
    have text : String.fromUTF8? class_.toUTF8 = some class_ := by decide +kernel
    have read : Stop.read (.file source class_.toUTF8) = .ok [⟨source, class_⟩] := by
      rw [Stop.read, if_pos isSource, SourceFile.ofContent, fits, text]
      rfl
    have along : (sourcesAlong
        [.directory (slashed (count + 1)), .file source class_.toUTF8]).result =
        .ok [⟨source, class_⟩] :=
      sourcesAlong_cons_eq_ok.mpr ⟨[], _, if_neg (by simp [searched]),
        sourcesAlong_cons_eq_ok.mpr ⟨_, [], read, rfl, rfl⟩, rfl⟩
    show (collectSources (slashed (count + 1)) (tree.find (slashed (count + 1)))).result = _
    rw [found]
    refine collectSources_of_sorted ?_ (List.pairwise_singleton _ _)
    rw [walk_directory, sortedEntries, List.mergeSort_singleton]
    simp only [List.flatMap_cons, List.flatMap_nil, walk, List.append_nil]
    exact along
  have compiles : (options.outputOf class_).result = .ok code := by
    show (compileToText class_).result = .ok code
    decide +kernel
  have stored : disk.store (options.destination source) code tree = (.ok (), after) := by
    have destination : options.destination source = ⟨"s/outputs/A.vm"⟩ := by
      rw [Options.destination_eq below]
      show (Path.mk "s/outputs").join ⟨nameWithExtension "A.jack" "vm"⟩ = _
      decide +kernel
    rw [destination]
    rfl
  obtain ⟨succeeds, eq⟩ := run_of_stored accepted collected rfl compiles stored
  have closed : ¬ options.Opens tree (run arguments tree).2 := by
    intro opens
    have location : options.path.location = ["s"] := location_slashed _
    have unseen : tree.sight? (options.path.location ++ ["outputs"]) ≠ some .directory := by
      rw [location]
      exact (Option.some_ne_none _).symm
    have short := opens ["outputs"] unseen (by rw [location, eq]; rfl)
    have size : "outputs".utf8ByteSize = 7 := by decide
    have long : ((slashed (count + 1)).join ⟨"outputs"⟩).isTooLong = false := short
    rw [Path.isTooLong, utf8ByteSize_join_slashed rfl, decide_eq_false_iff_not, size] at long
    omega
  exact ⟨wellFormed, succeeds, (fruitless_again accepted wellFormed closed).code⟩

end JackCompiler
