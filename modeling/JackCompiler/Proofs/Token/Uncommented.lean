import JackCompiler.Proofs.Token.Comment

/-!
# Texts without comments

Taking comments out of a text keeps its lines (`count_newline_stripFrom`), leaves no comment mark
outside of strings (`not_hasComment_stripFrom`) and takes nothing out of a text that has none
(`stripFrom_eq_self`), so doing it twice is doing it once. `scan` follows the reader through a text
and tells where it is behind it. A text behind which the reader is outside of strings and comments
has no effect on what follows, unless its last character may begin a comment mark
(`stripFrom_append_of_scan`); so a block comment that follows is its newlines and one blank.
-/

set_option autoImplicit false

namespace JackCompiler

/-! ## Comment marks outside of strings -/

/-- Whether the reader of a text that knows of strings only is in one behind it, if it begins inside
of one or outside. A string runs from a double quote to the next double quote or newline. -/
def endsInString : Bool → List Char → Bool
  | inside, [] => inside
  | true, c :: rest => endsInString (decide (c ≠ '"' ∧ c ≠ '\n')) rest
  | false, c :: rest => endsInString (decide (c = '"')) rest

/-- Whether a comment mark begins outside of the strings of a text. -/
def HasComment (inside : Bool) (text : List Char) : Prop :=
  ∃ before behind, text = before ++ behind ∧ endsInString inside before = false ∧
    OpensComment behind

section HasComment

variable {c : Char} {rest : List Char}

theorem not_hasComment_nil (inside : Bool) : ¬ HasComment inside [] := by
  rintro ⟨before, behind, eq, -, opens⟩
  obtain ⟨-, rfl⟩ := List.append_eq_nil_iff.mp eq.symm
  simp [OpensComment] at opens

/-- Inside of a string no mark begins. -/
theorem hasComment_true_cons :
    HasComment true (c :: rest) ↔ HasComment (decide (c ≠ '"' ∧ c ≠ '\n')) rest := by
  constructor
  · rintro ⟨before, behind, eq, outside, opens⟩
    cases before with
    | nil => cases outside
    | cons d before =>
      obtain ⟨rfl, rfl⟩ := List.cons.inj eq
      exact ⟨before, behind, rfl, outside, opens⟩
  · rintro ⟨before, behind, rfl, outside, opens⟩
    exact ⟨c :: before, behind, rfl, outside, opens⟩

theorem hasComment_false_cons :
    HasComment false (c :: rest) ↔
      OpensComment (c :: rest) ∨ HasComment (decide (c = '"')) rest := by
  constructor
  · rintro ⟨before, behind, eq, outside, opens⟩
    cases before with
    | nil =>
      rw [List.nil_append] at eq
      exact .inl (eq ▸ opens)
    | cons d before =>
      obtain ⟨rfl, rfl⟩ := List.cons.inj eq
      exact .inr ⟨before, behind, rfl, outside, opens⟩
  · rintro (opens | ⟨before, behind, rfl, outside, opens⟩)
    · exact ⟨[], c :: rest, rfl, rfl, opens⟩
    · exact ⟨c :: before, behind, rfl, outside, opens⟩

end HasComment

/-! ## What is left of a text -/

/-- The lines of a text stay. -/
theorem count_newline_stripFrom (region : Region) (text : List Char) :
    (stripFrom region text).count '\n' = text.count '\n' := by
  fun_induction stripFrom region text with
  | case4 c rest _ _ _ ih => rw [List.count_cons, List.count_cons, ih]
  | case5 c rest ih => rw [List.count_cons, List.count_cons, ih]
  | _ => simp_all

/-- In front of a character other than a slash nothing is taken out. -/
theorem head?_stripFrom_code {text : List Char} (apart : text.head? ≠ some '/') :
    (stripFrom .code text).head? = text.head? := by
  cases text with
  | nil => rfl
  | cons c rest =>
    have noComment : ¬ OpensComment (c :: rest) := by
      rintro (⟨behind, eq⟩ | ⟨behind, eq⟩)
      · exact apart (by rw [← eq]; rfl)
      · exact apart (by rw [← eq]; rfl)
    rw [stripFrom_code_cons noComment, List.head?_cons, List.head?_cons]

/-- No comment mark is left outside of strings. The reader is in a string of what is left exactly if
it is in one of the text. -/
theorem not_hasComment_stripFrom (region : Region) (text : List Char) :
    ¬ HasComment (decide (region = .string)) (stripFrom region text) := by
  -- a character that is no slash and no quote begins nothing
  have plain {c : Char} {rest : List Char} (noSlash : c ≠ '/') (noQuote : c ≠ '"')
      (clean : ¬ HasComment false rest) : ¬ HasComment false (c :: rest) := by
    rw [hasComment_false_cons, not_or]
    refine ⟨?_, by rwa [decide_eq_false noQuote]⟩
    rintro (⟨behind, eq⟩ | ⟨behind, eq⟩) <;> exact noSlash (List.cons.inj eq).1.symm
  fun_induction stripFrom region text with
  | case1 rest ih => exact ih
  | case2 rest ih => exact ih
  | case3 rest ih =>
    rw [decide_eq_false (by decide), hasComment_false_cons, not_or]
    exact ⟨by simp [OpensComment], ih⟩
  | case4 c rest noLine noBlock noQuote ih =>
    by_cases slash : c = '/'
    · -- what comes behind the slash makes no mark with it, and is left as it is
      subst slash
      have apart : rest.head? ≠ some '/' := fun first => by
        obtain ⟨behind, rfl⟩ := List.head?_eq_some_iff.mp first
        exact noLine behind rfl rfl
      rw [decide_eq_false (by decide), hasComment_false_cons, not_or]
      refine ⟨?_, ih⟩
      rintro (⟨behind, eq⟩ | ⟨behind, eq⟩)
      · apply apart
        rw [← head?_stripFrom_code apart, ← (List.cons.inj eq).2]
        rfl
      · have first : rest.head? = some '*' := by
          rw [← head?_stripFrom_code apart, ← (List.cons.inj eq).2]
          rfl
        obtain ⟨behind', rfl⟩ := List.head?_eq_some_iff.mp first
        exact noBlock behind' rfl rfl
    · exact plain slash noQuote ih
  | case5 c rest ih =>
    rw [decide_eq_true rfl, hasComment_true_cons]
    by_cases ends : c = '"' ∨ c = '\n'
    · rcases ends with rfl | rfl <;> exact ih
    · rw [if_neg ends] at ih ⊢
      rwa [decide_eq_true (not_or.mp ends)]
  | case6 rest ih => exact plain (by decide) (by decide) ih
  | case7 c rest goesOn ih => exact ih
  | case8 rest ih => exact plain (by decide) (by decide) ih
  | case9 rest ih => exact plain (by decide) (by decide) ih
  | case10 c rest goesOn noNewline ih => exact ih
  | case11 => exact plain (by decide) (by decide) (not_hasComment_nil false)
  | case12 region outside => exact not_hasComment_nil _

/-- Nothing is taken out of a text without comment marks outside of strings. -/
theorem stripFrom_eq_self {inside : Bool} {text : List Char} (clean : ¬ HasComment inside text) :
    stripFrom (if inside then .string else .code) text = text := by
  induction text generalizing inside with
  | nil => cases inside <;> rfl
  | cons c rest ih =>
    cases inside with
    | true =>
      rw [hasComment_true_cons] at clean
      have later := ih clean
      rw [if_pos rfl, stripFrom]
      by_cases ends : c = '"' ∨ c = '\n'
      · rw [if_pos ends]
        rcases ends with rfl | rfl <;> exact congrArg _ later
      · rw [decide_eq_true (not_or.mp ends)] at later
        rw [if_neg ends]
        exact congrArg _ later
    | false =>
      rw [hasComment_false_cons, not_or] at clean
      have later := ih clean.2
      rw [if_neg Bool.false_ne_true, stripFrom_code_cons clean.1]
      simpa using later

/-! ## Where the reader is behind a text -/

/-- What is kept of a text that is read from a region on, and the region behind it. -/
def scan : Region → List Char → List Char × Region
  | .code, '/' :: '/' :: rest => scan .lineComment rest
  | .code, '/' :: '*' :: rest => scan .blockComment rest
  | .code, '"' :: rest => ('"' :: (scan .string rest).1, (scan .string rest).2)
  | .code, c :: rest => (c :: (scan .code rest).1, (scan .code rest).2)
  | .string, c :: rest =>
    let next := if c = '"' ∨ c = '\n' then .code else .string
    (c :: (scan next rest).1, (scan next rest).2)
  | .lineComment, '\n' :: rest => ('\n' :: (scan .code rest).1, (scan .code rest).2)
  | .lineComment, _ :: rest => scan .lineComment rest
  | .blockComment, '*' :: '/' :: rest => (' ' :: (scan .code rest).1, (scan .code rest).2)
  | .blockComment, '\n' :: rest =>
    ('\n' :: (scan .blockComment rest).1, (scan .blockComment rest).2)
  | .blockComment, _ :: rest => scan .blockComment rest
  | region, [] => ([], region)

/-- What is left of a text is what is kept of it, and one blank for a block comment that it does not
close. -/
theorem stripFrom_eq_scan (region : Region) (text : List Char) :
    stripFrom region text =
      (scan region text).1 ++ if (scan region text).2 = .blockComment then [' '] else [] := by
  fun_induction scan region text with
  | case5 c rest next ih => rw [stripFrom, ih, List.cons_append]
  | case11 region => cases region <;> rfl
  | _ => simp_all [stripFrom]

/-- What follows changes nothing of what is left of a text behind which the reader is outside of
strings and comments, unless the text ends with a slash. -/
theorem stripFrom_append_of_scan {region : Region} {text : List Char}
    (outside : (scan region text).2 = .code) (ends : text.getLast? ≠ some '/')
    (rest : List Char) :
    stripFrom region (text ++ rest) = stripFrom region text ++ stripFrom .code rest := by
  have shorter {c : Char} {later : List Char} (ends : (c :: later).getLast? ≠ some '/') :
      later.getLast? ≠ some '/' := by
    cases later with
    | nil => nofun
    | cons d later => rwa [List.getLast?_cons_cons] at ends
  fun_induction scan region text with
  | case1 later ih => exact ih outside (shorter (shorter ends))
  | case2 later ih => exact ih outside (shorter (shorter ends))
  | case3 later ih => exact congrArg ('"' :: ·) (ih outside (shorter ends))
  | case4 c later noLine noBlock noQuote ih =>
    have kept (behind : List Char) (noMark : c = '/' → behind.head? ≠ some '/' ∧
        behind.head? ≠ some '*') : stripFrom .code (c :: behind) = c :: stripFrom .code behind := by
      rw [stripFrom_code_cons, if_neg noQuote]
      rintro (⟨more, eq⟩ | ⟨more, eq⟩)
      · obtain ⟨rfl, rfl⟩ := List.cons.inj eq
        exact (noMark rfl).1 rfl
      · obtain ⟨rfl, rfl⟩ := List.cons.inj eq
        exact (noMark rfl).2 rfl
    -- a slash is followed by a character of the text, since the text does not end with it
    have noMark (slash : c = '/') (behind : List Char) :
        (later ++ behind).head? ≠ some '/' ∧ (later ++ behind).head? ≠ some '*' := by
      cases later with
      | nil => exact absurd (by rw [slash]; rfl) ends
      | cons d later =>
        constructor
        · rintro ⟨⟩
          exact noLine later slash rfl
        · rintro ⟨⟩
          exact noBlock later slash rfl
    rw [List.cons_append, kept _ fun slash => noMark slash rest, ih outside (shorter ends),
      kept later fun slash => by simpa using noMark slash [], List.cons_append]
  | case5 c later next ih => exact congrArg (c :: ·) (ih outside (shorter ends))
  | case6 later ih => exact congrArg ('\n' :: ·) (ih outside (shorter ends))
  | case7 c later goesOn ih =>
    rw [List.cons_append, stripFrom_lineComment_cons _ goesOn, stripFrom_lineComment_cons _ goesOn,
      ih outside (shorter ends)]
  | case8 later ih => exact congrArg (' ' :: ·) (ih outside (shorter (shorter ends)))
  | case9 later ih => exact congrArg ('\n' :: ·) (ih outside (shorter ends))
  | case10 c later goesOn noNewline ih =>
    have open_ (behind : List Char) : ¬ ['*', '/'] <+: c :: (later ++ behind) := by
      rintro ⟨more, whole⟩
      obtain ⟨rfl, behindStar⟩ := List.cons.inj whole
      cases later with
      | nil => cases outside
      | cons d later =>
        obtain ⟨rfl, -⟩ := List.cons.inj behindStar
        exact goesOn later rfl rfl
    have here : ¬ ['*', '/'] <+: c :: later := by simpa using open_ []
    rw [List.cons_append, stripFrom_blockComment_cons (open_ rest), if_neg noNewline,
      stripFrom_blockComment_cons here, if_neg noNewline, ih outside (shorter ends)]
  | case11 region =>
    obtain rfl : region = .code := outside
    rfl

/-- A block comment that is closed at its end leaves its newlines and one blank. -/
theorem stripFrom_blockComment_append {body : List Char} (first : ¬ ['*', '/'] <:+: body ++ ['*'])
    (rest : List Char) :
    stripFrom .blockComment (body ++ '*' :: '/' :: rest) =
      newlines body ++ ' ' :: stripFrom .code rest := by
  induction body with
  | nil => rfl
  | cons c body ih =>
    rw [List.cons_append, List.infix_cons_iff, not_or] at first
    have goesOn : ¬ ['*', '/'] <+: c :: (body ++ '*' :: '/' :: rest) := by
      rintro ⟨more, whole⟩
      apply first.1
      obtain ⟨rfl, behindStar⟩ := List.cons.inj whole
      cases body with
      | nil => cases behindStar
      | cons d body =>
        obtain ⟨rfl, -⟩ := List.cons.inj behindStar
        exact ⟨body ++ ['*'], rfl⟩
    rw [List.cons_append, stripFrom_blockComment_cons goesOn, ih first.2, newlines_cons]
    by_cases ends : c = '\n' <;> simp [ends]

/-- Comments are taken out of a text exactly. The lines of the text stay, no comment mark is left
outside of strings, a text without such a mark is left as it is, and so is what is left of any text.
A block comment behind a text that ends outside of strings and comments, and not with a slash, is
its newlines and one blank. -/
theorem stripComments_exact (source before body behind : String) :
    (stripComments source).toList.count '\n' = source.toList.count '\n' ∧
      ¬ HasComment false (stripComments source).toList ∧
      (¬ HasComment false source.toList → stripComments source = source) ∧
      stripComments (stripComments source) = stripComments source ∧
      ((scan .code before.toList).2 = .code → before.toList.getLast? ≠ some '/' →
        ¬ ['*', '/'] <:+: body.toList ++ ['*'] →
        stripComments (before ++ "/*" ++ body ++ "*/" ++ behind) =
          stripComments before ++ String.ofList (newlines body.toList) ++ " " ++
            stripComments behind) := by
  have unchanged (text : String) (clean : ¬ HasComment false text.toList) :
      stripComments text = text := by
    have kept := stripFrom_eq_self clean
    rw [stripComments, ← String.toList_inj, String.toList_ofList]
    exact kept
  have clean : ¬ HasComment false (stripComments source).toList := by
    rw [stripComments, String.toList_ofList]
    exact not_hasComment_stripFrom .code source.toList
  refine ⟨?_, clean, unchanged source, unchanged _ clean, fun outside ends first => ?_⟩
  · rw [stripComments, String.toList_ofList]
    exact count_newline_stripFrom .code source.toList
  · have comment : stripFrom .code ('/' :: '*' :: (body.toList ++ '*' :: '/' :: behind.toList)) =
        newlines body.toList ++ ' ' :: stripFrom .code behind.toList :=
      stripFrom_blockComment_append first behind.toList
    have whole := stripFrom_append_of_scan outside ends
      ('/' :: '*' :: (body.toList ++ '*' :: '/' :: behind.toList))
    rw [comment] at whole
    rw [← String.toList_inj]
    simpa [stripComments, String.toList_append] using whole

theorem stripComments_exact_slashStar :
    stripComments ("let s = \"a // b\"; " ++ "/*" ++ "/ x\n*" ++ "*/" ++ "y // z") =
      "let s = \"a // b\"; \n y " := by
  have comment := (stripComments_exact "" "let s = \"a // b\"; " "/ x\n*" "y // z").2.2.2.2
    (by decide) (by decide) (by decide)
  rw [comment]
  decide

end JackCompiler
