import JackCompiler.Proofs.Code.Steering
import JackCompiler.Proofs.Scope.Label

/-!
# Pieces of statements among jumps

`Layout` says how the pieces of statements lie, with the numbers of their labels. `Ahead` says which
statements are done by going on at a position; jumps and labels on the way count as nothing, so the
end of a loop's block has the loop itself ahead. Each step of structured execution is answered from
a position with its statements ahead (`Ahead.answer`), so laid out pieces implement the statements
(`Layout.simulates`).
-/

set_option autoImplicit false

namespace JackCompiler

/-- The pieces of statements: a label number to begin with, the statements, their pieces and the
next free number. -/
inductive Layout (scope : Scope) : Nat → List Tree → List Piece → Nat → Prop
  | nil (next : Nat) : Layout scope next [] [] next
  | act {next free : Nat} {statement : Tree} {later : List Tree} {more : List Piece}
      (code : List Instruction) (acts : statement.control? = some .act)
      (rest : Layout scope next later more free) :
      Layout scope next (statement :: later) (.act statement code :: more) free
  | leave {next free : Nat} {statement : Tree} {later : List Tree} {more : List Piece}
      (code : List Instruction) (leaves : statement.control? = some .leave)
      (rest : Layout scope next later more free) :
      Layout scope next (statement :: later) (.leave statement code :: more) free
  | when {next middle free : Nat} {statement condition : Tree} {yes later : List Tree}
      {inner more : List Piece} (code : List Instruction)
      (chooses : statement.control? = some (.choose condition yes []))
      (block : Layout scope (next + 1) yes inner middle)
      (rest : Layout scope middle later more free) :
      Layout scope next (statement :: later)
        ([.test condition code, .steer (.operate .not), .steer (.ifGoto (scope.label next))] ++
          inner ++ .steer (.label (scope.label next)) :: more) free
  | choose {next middle last free : Nat} {statement condition : Tree} {yes no later : List Tree}
      {first second more : List Piece} (code : List Instruction)
      (chooses : statement.control? = some (.choose condition yes no))
      (blockYes : Layout scope (next + 3) yes first middle)
      (blockNo : Layout scope middle no second last)
      (rest : Layout scope last later more free) :
      Layout scope next (statement :: later)
        ([.test condition code, .steer (.ifGoto (scope.label next)),
            .steer (.goto (scope.label (next + 1))), .steer (.label (scope.label next))] ++
          first ++ [.steer (.goto (scope.label (next + 2))),
            .steer (.label (scope.label (next + 1)))] ++
          second ++ .steer (.goto (scope.label (next + 2))) ::
            .steer (.label (scope.label (next + 2))) :: more) free
  | loop {next middle free : Nat} {statement condition : Tree} {block later : List Tree}
      {inner more : List Piece} (code : List Instruction)
      (loops : statement.control? = some (.loop condition block))
      (body : Layout scope (next + 2) block inner middle)
      (rest : Layout scope middle later more free) :
      Layout scope next (statement :: later)
        ([.steer (.label (scope.label next)), .test condition code, .steer (.operate .not),
            .steer (.ifGoto (scope.label (next + 1)))] ++
          inner ++ .steer (.goto (scope.label next)) ::
            .steer (.label (scope.label (next + 1))) :: more) free

/-! ## Labels -/

/-- Whether the labels of pieces are different, and all of them have numbers of some sort. -/
structure Numbered (scope : Scope) (sort : Nat → Prop) (pieces : List Piece) : Prop where
  nodup : (Piece.labels pieces).Nodup
  numbers : ∀ name ∈ Piece.labels pieces, ∃ number, sort number ∧ name = scope.label number

namespace Numbered

variable {scope : Scope} {sort sort' : Nat → Prop} {first second : List Piece}

theorem nil : Numbered scope sort [] := by
  constructor
  · exact List.nodup_nil
  · intro name among
    cases among

theorem skip (unlabelled : Piece.labels first = []) (numbered : Numbered scope sort second) :
    Numbered scope sort (first ++ second) := by
  have behind : Piece.labels (first ++ second) = Piece.labels second := by
    rw [Piece.labels, List.filterMap_append]
    show Piece.labels first ++ Piece.labels second = _
    rw [unlabelled, List.nil_append]
  constructor
  · rw [behind]
    exact numbered.nodup
  · rw [behind]
    exact numbered.numbers

theorem label (number : Nat) :
    Numbered scope (· = number) [.steer (.label (scope.label number))] := by
  constructor
  · exact List.nodup_cons.mpr ⟨List.not_mem_nil, List.nodup_nil⟩
  · intro name among
    exact ⟨number, rfl, List.mem_singleton.mp among⟩

/-- Pieces with numbers of different sorts may stand together, since a label determines its
number. -/
theorem append (one : Numbered scope sort first) (two : Numbered scope sort' second)
    (apart : ∀ number, sort number → ¬ sort' number) :
    Numbered scope (fun number => sort number ∨ sort' number) (first ++ second) := by
  have both : Piece.labels (first ++ second) = Piece.labels first ++ Piece.labels second :=
    List.filterMap_append
  constructor
  · rw [both, List.nodup_append]
    refine ⟨one.nodup, two.nodup, ?_⟩
    rintro name among name' among' rfl
    obtain ⟨number, ofSort, eq⟩ := one.numbers name among
    obtain ⟨number', ofSort', eq'⟩ := two.numbers name among'
    have same : number = number' := Scope.label_inj (eq.symm.trans eq')
    exact apart number ofSort (same ▸ ofSort')
  · intro name among
    rw [both] at among
    rcases List.mem_append.mp among with among | among
    · obtain ⟨number, ofSort, eq⟩ := one.numbers name among
      exact ⟨number, .inl ofSort, eq⟩
    · obtain ⟨number, ofSort, eq⟩ := two.numbers name among
      exact ⟨number, .inr ofSort, eq⟩

theorem mono {pieces : List Piece} (numbered : Numbered scope sort pieces)
    (weaker : ∀ number, sort number → sort' number) : Numbered scope sort' pieces := by
  refine ⟨numbered.nodup, ?_⟩
  intro name among
  obtain ⟨number, ofSort, eq⟩ := numbered.numbers name among
  exact ⟨number, weaker number ofSort, eq⟩

end Numbered

/-- The labels of laid out statements have the numbers from the first one to the next free one, each
at most once. -/
theorem Layout.numbered {scope : Scope} {next free : Nat} {todo : List Tree} {pieces : List Piece}
    (layout : Layout scope next todo pieces free) :
    next ≤ free ∧ Numbered scope (fun number => next ≤ number ∧ number < free) pieces := by
  induction layout with
  | nil next => exact ⟨Nat.le_refl next, .nil⟩
  | @act next free statement later more code acts rest ih =>
    exact ⟨ih.1, @Numbered.skip _ _ [.act statement code] _ rfl ih.2⟩
  | @leave next free statement later more code leaves rest ih =>
    exact ⟨ih.1, @Numbered.skip _ _ [.leave statement code] _ rfl ih.2⟩
  | @when next middle free statement condition yes later inner more code chooses block rest ihBlock
      ihRest =>
    obtain ⟨le, inside⟩ := ihBlock
    obtain ⟨le', behind⟩ := ihRest
    refine ⟨by omega, ?_⟩
    rw [List.append_assoc]
    have end_ := (Numbered.label next).append behind (by intros; omega)
    have whole := inside.append end_ (by intros; omega)
    exact .skip rfl (whole.mono (by intros; omega))
  | @choose next middle last free statement condition yes no later first second more code chooses
      blockYes blockNo rest ihYes ihNo ihRest =>
    obtain ⟨le, insideYes⟩ := ihYes
    obtain ⟨le', insideNo⟩ := ihNo
    obtain ⟨le'', behind⟩ := ihRest
    refine ⟨by omega, ?_⟩
    have end_ := (Numbered.label (next + 2)).append behind (by intros; omega)
    have blockNo := insideNo.append (@Numbered.skip _ _
      [.steer (.goto (scope.label (next + 2)))] _ rfl end_) (by intros; omega)
    have onNo := (Numbered.label (next + 1)).append blockNo (by intros; omega)
    have blockYes := insideYes.append (@Numbered.skip _ _
      [.steer (.goto (scope.label (next + 2)))] _ rfl onNo) (by intros; omega)
    have onYes := (Numbered.label next).append blockYes (by intros; omega)
    have whole := @Numbered.skip _ _ [.test condition code, .steer (.ifGoto (scope.label next)),
      .steer (.goto (scope.label (next + 1)))] _ rfl onYes
    simpa only [List.append_assoc, List.cons_append, List.nil_append] using
      whole.mono (by intros; omega)
  | @loop next middle free statement condition block later inner more code loops body rest ihBody
      ihRest =>
    obtain ⟨le, inside⟩ := ihBody
    obtain ⟨le', behind⟩ := ihRest
    refine ⟨by omega, ?_⟩
    have end_ := (Numbered.label (next + 1)).append behind (by intros; omega)
    have body := inside.append (@Numbered.skip _ _ [.steer (.goto (scope.label next))] _ rfl end_)
      (by intros; omega)
    have test := @Numbered.skip _ _ [.test condition code, .steer (.operate .not),
      .steer (.ifGoto (scope.label (next + 1)))] _ rfl body
    have whole := (Numbered.label next).append test (by intros; omega)
    simpa only [List.append_assoc, List.cons_append, List.nil_append] using
      whole.mono (by intros; omega)

/-! ## Statements ahead -/

/-- Whether pieces lie among others from a position on. -/
def Lies (pieces : List Piece) (position : Nat) (segment : List Piece) : Prop :=
  segment <+: pieces.drop position

namespace Lies

variable {pieces first second : List Piece} {piece : Piece} {position : Nat}

theorem head (lies : Lies pieces position (piece :: first)) : pieces[position]? = some piece := by
  obtain ⟨others, eq⟩ := lies
  rw [← List.head?_drop, ← eq, List.cons_append, List.head?_cons]

theorem tail (lies : Lies pieces position (piece :: first)) : Lies pieces (position + 1) first := by
  obtain ⟨others, eq⟩ := lies
  refine ⟨others, ?_⟩
  rw [← List.tail_drop, ← eq, List.cons_append, List.tail_cons]

theorem left (lies : Lies pieces position (first ++ second)) : Lies pieces position first :=
  (List.prefix_append first second).trans lies

theorem right (lies : Lies pieces position (first ++ second)) :
    Lies pieces (position + first.length) second := by
  obtain ⟨others, eq⟩ := lies
  refine ⟨others, ?_⟩
  rw [← List.drop_drop, ← eq, List.append_assoc, List.drop_left]

end Lies

/-- Whether going on at a position does these statements. Labels are passed and jumps are followed
on the way. -/
inductive Ahead (scope : Scope) (pieces : List Piece) : Nat → List Tree → Prop
  | done : Ahead scope pieces pieces.length []
  | block {position next free : Nat} {todo later : List Tree} {segment : List Piece}
      (lies : Lies pieces position segment) (layout : Layout scope next todo segment free)
      (behind : Ahead scope pieces (position + segment.length) later) :
      Ahead scope pieces position (todo ++ later)
  | label {position : Nat} {todo : List Tree} {name : String}
      (here : pieces[position]? = some (.steer (.label name)))
      (behind : Ahead scope pieces (position + 1) todo) : Ahead scope pieces position todo
  | goto {position target : Nat} {todo : List Tree} {name : String}
      (here : pieces[position]? = some (.steer (.goto name)))
      (there : pieces[target]? = some (.steer (.label name)))
      (behind : Ahead scope pieces target todo) : Ahead scope pieces position todo

namespace Ahead

variable {scope : Scope} {pieces : List Piece} {position position' : Nat}

theorem of_eq {todo : List Tree} (ahead : Ahead scope pieces position todo)
    (eq : position = position') : Ahead scope pieces position' todo := by
  subst eq
  exact ahead

/-- A jump by the outcome of a condition leads to the block that the outcome selects. -/
theorem select {yes no later : List Tree} (onYes : Ahead scope pieces position (yes ++ later))
    (onNo : Ahead scope pieces position' (no ++ later)) (holds : Bool) :
    Ahead scope pieces (if holds then position else position')
      ((if holds then yes else no) ++ later) := by
  cases holds with
  | true => exact onYes
  | false => exact onNo

end Ahead

/-- A state of flat execution that has ahead of it what a state of structured execution has still to
do. -/
inductive Related (scope : Scope) (pieces : List Piece) : StructuredState → FlatState → Prop
  | running {position asked : Nat} {todo : List Tree} (ahead : Ahead scope pieces position todo) :
      Related scope pieces (.running todo asked) (.running position [] asked)
  | left : Related scope pieces .left .left

/-- Where flat execution ends: behind the last piece if all statements are done. -/
inductive Final (pieces : List Piece) : StructuredState → FlatState → Prop
  | done (asked : Nat) : Final pieces (.running [] asked) (.running pieces.length [] asked)
  | left : Final pieces .left .left

section Answer

variable {scope : Scope} {pieces segment : List Piece} {oracle : Nat → Bool}
  {position next free asked : Nat} {todo later : List Tree} {event : Tree}
  {state : StructuredState}

/-- A step of structured execution is answered from the front of the pieces of its statement. -/
theorem Layout.answer {statement : Tree}
    (layout : Layout scope next (statement :: todo) segment free)
    (nodup : (Piece.labels pieces).Nodup) (lies : Lies pieces position segment)
    (behind : Ahead scope pieces (position + segment.length) later)
    (step : (structured oracle).step (.running (statement :: todo ++ later) asked) =
      some (some event, state)) :
    ∃ there, (flat pieces oracle).Run (.running position [] asked) [event] there ∧
      Related scope pieces state there := by
  have ahead : Ahead scope pieces position (statement :: todo ++ later) := .block lies layout behind
  rw [List.cons_append] at step ahead
  cases layout with
  | @act _ _ _ _ more code acts rest =>
    rw [Structured.step_act acts] at step
    cases step
    have others : Ahead scope pieces (position + 1) (todo ++ later) := by
      apply Ahead.block lies.tail rest
      exact behind.of_eq (by rw [List.length_cons]; omega)
    exact ⟨_, .event (Flat.step_act lies.head) (.nil _), .running others⟩
  | @leave _ _ _ _ more code leaves rest =>
    rw [Structured.step_leave leaves] at step
    cases step
    exact ⟨_, .event (Flat.step_leave lies.head) (.nil _), .left⟩
  | @when _ middle _ _ condition yes _ inner more code chooses block rest =>
    rw [Structured.step_choose chooses] at step
    cases step
    have front := lies.left.left
    have end_ := lies.right
    have others := Ahead.block end_.tail rest (behind.of_eq (by
      rw [List.length_append, List.length_cons]; omega))
    have onNo := Ahead.label end_.head others
    have onYes := Ahead.block lies.left.right block (onNo.of_eq (by
      rw [List.length_append]; omega))
    exact ⟨_, Flat.run_jumpUnless nodup front.head front.tail.head front.tail.tail.head end_.head,
      .running (onYes.select onNo (oracle asked))⟩
  | @choose _ middle last _ _ condition yes no _ first second more code chooses blockYes blockNo
      rest =>
    rw [Structured.step_choose chooses] at step
    cases step
    have front := lies.left.left.left.left
    have between := lies.left.left.right
    have end_ := lies.right
    have others := Ahead.block end_.tail.tail rest (behind.of_eq (by
      rw [List.length_append, List.length_cons, List.length_cons]; omega))
    have joined := Ahead.label end_.tail.head others
    have second_ := Ahead.block lies.left.right blockNo ((Ahead.goto end_.head end_.tail.head
      joined).of_eq (by simp only [List.length_append]; omega))
    have first_ := Ahead.block lies.left.left.left.right blockYes ((Ahead.goto between.head
      end_.tail.head joined).of_eq (by simp only [List.length_append]; omega))
    have onYes := Ahead.label front.tail.tail.tail.head first_
    have onNo := Ahead.goto front.tail.tail.head between.tail.head
      (Ahead.label between.tail.head (second_.of_eq (by simp only [List.length_append]; rfl)))
    exact ⟨_, Flat.run_jumpIf nodup front.head front.tail.head front.tail.tail.tail.head,
      .running (onYes.select onNo (oracle asked))⟩
  | @loop _ middle _ _ condition block _ inner more code loops body rest =>
    rw [Structured.step_loop loops] at step
    cases step
    have front := lies.left.left
    have end_ := lies.right
    have others := Ahead.block end_.tail.tail rest (behind.of_eq (by
      rw [List.length_append, List.length_cons, List.length_cons]; omega))
    have onNo := Ahead.label end_.tail.head others
    -- behind its block the loop itself is ahead again
    have again := Ahead.goto end_.head front.head ahead
    have onYes := Ahead.block lies.left.right body (again.of_eq (by
      rw [List.length_append]; omega))
    refine ⟨_, .silent (Flat.step_label front.head) (Flat.run_jumpUnless nodup front.tail.head
      front.tail.tail.head front.tail.tail.tail.head end_.tail.head), .running ?_⟩
    cases oracle asked with
    | true => exact onYes
    | false => exact onNo

/-- Each step of structured execution is answered from a position with its statements ahead. -/
theorem Ahead.answer {whole : List Tree} (ahead : Ahead scope pieces position whole)
    (nodup : (Piece.labels pieces).Nodup)
    (step : (structured oracle).step (.running whole asked) = some (some event, state)) :
    ∃ there, (flat pieces oracle).Run (.running position [] asked) [event] there ∧
      Related scope pieces state there := by
  induction ahead with
  | done => cases step
  | @block position next free todo later segment lies layout behind ih =>
    cases todo with
    | nil =>
      cases layout
      exact ih step
    | cons statement todo => exact layout.answer nodup lies behind step
  | label here _ ih =>
    obtain ⟨there, run, related⟩ := ih step
    exact ⟨there, .silent (Flat.step_label here) run, related⟩
  | goto here target _ ih =>
    obtain ⟨there, run, related⟩ := ih step
    exact ⟨there, .silent (Flat.step_goto nodup here target) run, related⟩

/-- With nothing ahead, flat execution goes to the end of the pieces. -/
theorem Ahead.stop {whole : List Tree} (ahead : Ahead scope pieces position whole)
    (nodup : (Piece.labels pieces).Nodup)
    (stopped : (structured oracle).step (.running whole asked) = none) :
    whole = [] ∧ (flat pieces oracle).Run (.running position [] asked) []
      (.running pieces.length [] asked) := by
  induction ahead with
  | done => exact ⟨rfl, .nil _⟩
  | @block position next free todo later segment lies layout behind ih =>
    cases layout with
    | nil => exact ih stopped
    | act _ acts _ =>
      rw [List.cons_append, Structured.step_act acts] at stopped
      cases stopped
    | leave _ leaves _ =>
      rw [List.cons_append, Structured.step_leave leaves] at stopped
      cases stopped
    | when _ chooses _ _ =>
      rw [List.cons_append, Structured.step_choose chooses] at stopped
      cases stopped
    | choose _ chooses _ _ _ =>
      rw [List.cons_append, Structured.step_choose chooses] at stopped
      cases stopped
    | loop _ loops _ _ =>
      rw [List.cons_append, Structured.step_loop loops] at stopped
      cases stopped
  | label here _ ih =>
    obtain ⟨rfl, run⟩ := ih stopped
    exact ⟨rfl, .silent (Flat.step_label here) run⟩
  | goto here target _ ih =>
    obtain ⟨rfl, run⟩ := ih stopped
    exact ⟨rfl, .silent (Flat.step_goto nodup here target) run⟩

/-- The beginning of laid out pieces has their statements ahead. -/
theorem Layout.ahead (layout : Layout scope next todo pieces free) :
    Ahead scope pieces 0 todo := by
  have behind : Ahead scope pieces (0 + pieces.length) [] := Ahead.done.of_eq (Nat.zero_add _).symm
  have lies : Lies pieces 0 pieces := List.prefix_rfl
  have ahead := Ahead.block lies layout behind
  rwa [List.append_nil] at ahead

/-- Flat execution of laid out pieces implements structured execution. -/
theorem Layout.simulates (layout : Layout scope next todo pieces free) (oracle : Nat → Bool) :
    Process.Simulates (flat pieces oracle) (structured oracle) (Related scope pieces)
      (Final pieces) where
  visible := Structured.step_ne_silent
  answer := by
    intro state next event here related step
    cases related with
    | running ahead => exact ahead.answer layout.numbered.2.nodup step
    | left => cases step
  stop := by
    intro state here related stopped
    cases related with
    | @running position asked todo ahead =>
      obtain ⟨rfl, run⟩ := ahead.stop layout.numbered.2.nodup stopped
      exact ⟨_, run, Flat.step_end, .done asked⟩
    | left => exact ⟨.left, .nil _, rfl, .left⟩

end Answer

end JackCompiler
