import JackCompiler.Text.Blank
import JackCompiler.Token.Comment

/-!
# Where comments begin and end

`IsComment` says of a piece of text that it is a comment, given what stands behind it. Taking
comments out of a text that begins with one cuts that comment off and leaves its newlines and, for a
block comment, one blank (`stripFrom_of_opens`). In front of anything else the first character stays
(`stripFrom_code_cons`).
-/

set_option autoImplicit false

namespace JackCompiler

/-- Whether a text begins with a comment mark. -/
def OpensComment (text : List Char) : Prop := ['/', '/'] <+: text ∨ ['/', '*'] <+: text

/-- Whether a text is empty or begins with a newline. -/
def AtNewline (text : List Char) : Prop := text = [] ∨ text.head? = some '\n'

/-- Whether a text is a comment when `behind` follows it. A line comment runs up to the next
newline, a block comment through the first `*/` behind its mark, or to the end of the text if there
is none. -/
inductive IsComment : List Char → List Char → Prop
  | line {body behind : List Char} (oneLine : '\n' ∉ body) (ends : AtNewline behind) :
      IsComment ('/' :: '/' :: body) behind
  | block {body behind : List Char} (first : ¬ ['*', '/'] <:+: body ++ ['*']) :
      IsComment ('/' :: '*' :: (body ++ ['*', '/'])) behind
  | unclosed {body : List Char} (never : ¬ ['*', '/'] <:+: body) : IsComment ('/' :: '*' :: body) []

/-- The newlines of a text. -/
def newlines (text : List Char) : List Char := text.filter (· = '\n')

theorem newlines_cons (c : Char) (text : List Char) :
    newlines (c :: text) = if c = '\n' then '\n' :: newlines text else newlines text := by
  unfold newlines
  by_cases h : c = '\n'
  · rw [List.filter_cons_of_pos (by simpa using h), if_pos h, h]
  · rw [List.filter_cons_of_neg (by simpa using h), if_neg h]

theorem count_newlines (text : List Char) : (newlines text).count '\n' = text.count '\n' :=
  List.count_filter (by simp)

/-! ## Inside a comment -/

theorem stripFrom_code_of_atNewline {region : Region} {text : List Char} (ends : AtNewline text)
    (inside : region = .string ∨ region = .lineComment) :
    stripFrom region text = stripFrom .code text := by
  rcases ends with rfl | head
  · rcases inside with rfl | rfl <;> rfl
  · obtain ⟨rest, rfl⟩ := List.head?_eq_some_iff.mp head
    rcases inside with rfl | rfl <;> rfl

theorem stripFrom_lineComment_cons {c : Char} (rest : List Char) (goesOn : c ≠ '\n') :
    stripFrom .lineComment (c :: rest) = stripFrom .lineComment rest :=
  stripFrom.eq_7 c rest goesOn

/-- In a block comment that is not closed yet only a newline is left of a character. -/
theorem stripFrom_blockComment_cons {c : Char} {rest : List Char}
    (goesOn : ¬ ['*', '/'] <+: c :: rest) :
    stripFrom .blockComment (c :: rest) =
      if c = '\n' then '\n' :: stripFrom .blockComment rest
      else stripFrom .blockComment rest := by
  by_cases ends : c = '\n'
  · rw [if_pos ends, ends]
    rfl
  · rw [if_neg ends]
    refine stripFrom.eq_10 c rest ?_ ends
    rintro behind rfl rfl
    exact goesOn ⟨behind, rfl⟩

/-- A line comment goes up to the next newline and leaves nothing. -/
theorem stripFrom_lineComment (text : List Char) :
    ∃ body behind : List Char, text = body ++ behind ∧ '\n' ∉ body ∧ AtNewline behind ∧
      stripFrom .lineComment text = stripFrom .code behind := by
  induction text with
  | nil => exact ⟨[], [], rfl, List.not_mem_nil, .inl rfl, rfl⟩
  | cons c rest ih =>
    by_cases ends : c = '\n'
    · subst ends
      have here : AtNewline ('\n' :: rest) := .inr rfl
      exact ⟨[], _, rfl, List.not_mem_nil, here, stripFrom_code_of_atNewline here (.inr rfl)⟩
    · obtain ⟨body, behind, rfl, oneLine, atEnd, eq⟩ := ih
      refine ⟨c :: body, behind, rfl, ?_, atEnd, ?_⟩
      · rw [List.mem_cons, not_or]
        exact ⟨fun h => ends h.symm, oneLine⟩
      · rw [stripFrom_lineComment_cons _ ends, eq]

/-- A block comment goes through the first `*/` or to the end of the text, and leaves its newlines
and one blank. -/
theorem stripFrom_blockComment (text : List Char) :
    (∃ body behind : List Char, text = body ++ '*' :: '/' :: behind ∧
      ¬ ['*', '/'] <:+: body ++ ['*'] ∧
      stripFrom .blockComment text = newlines body ++ ' ' :: stripFrom .code behind) ∨
    ¬ ['*', '/'] <:+: text ∧ stripFrom .blockComment text = newlines text ++ [' '] := by
  induction text with
  | nil => exact .inr ⟨by simp, rfl⟩
  | cons c rest ih =>
    by_cases closes : ['*', '/'] <+: c :: rest
    · obtain ⟨behind, eq⟩ := closes
      refine .inl ⟨[], behind, eq.symm, by simp [List.infix_cons_iff], ?_⟩
      rw [← eq]
      rfl
    · rw [stripFrom_blockComment_cons closes]
      rcases ih with ⟨body, behind, rfl, first, eq⟩ | ⟨never, eq⟩
      · refine .inl ⟨c :: body, behind, rfl, ?_, ?_⟩
        · rw [List.cons_append, List.infix_cons_iff, not_or]
          refine ⟨?_, first⟩
          -- a mark that begins with `c` would have closed the comment here
          intro early
          apply closes
          have longer : c :: (body ++ ['*']) <+: c :: (body ++ '*' :: '/' :: behind) := by
            refine ⟨'/' :: behind, ?_⟩
            simp
          exact early.trans longer
        · rw [eq, newlines_cons]
          by_cases ends : c = '\n' <;> simp [ends]
      · refine .inr ⟨?_, ?_⟩
        · rw [List.infix_cons_iff, not_or]
          exact ⟨closes, never⟩
        · rw [eq, newlines_cons]
          by_cases ends : c = '\n' <;> simp [ends]

/-! ## In front of a comment and outside of comments -/

/-- A text that begins with a comment mark begins with a comment. What is left of it are the
comment's newlines and, unless it is a line comment, a blank. -/
theorem stripFrom_of_opens {text : List Char} (opens : OpensComment text) :
    ∃ comment behind blanks : List Char, text = comment ++ behind ∧ comment ≠ [] ∧
      IsComment comment behind ∧ (∀ c ∈ blanks, isBlank c = true) ∧
      (blanks ≠ [] ∨ AtNewline behind) ∧
      blanks.count '\n' = comment.count '\n' ∧
      stripFrom .code text = blanks ++ stripFrom .code behind := by
  have blank (body : List Char) : ∀ c ∈ newlines body ++ [' '], isBlank c = true := by
    intro c among
    rw [List.mem_append, newlines, List.mem_filter, List.mem_singleton, decide_eq_true_eq] at among
    rcases among with ⟨-, rfl⟩ | rfl <;> decide
  have counted (body : List Char) :
      (newlines body ++ [' ']).count '\n' = body.count '\n' := by
    rw [List.count_append, count_newlines]
    rfl
  rcases opens with ⟨rest, rfl⟩ | ⟨rest, rfl⟩
  · obtain ⟨body, behind, rfl, oneLine, atEnd, eq⟩ := stripFrom_lineComment rest
    refine ⟨'/' :: '/' :: body, behind, [], rfl, List.cons_ne_nil _ _, .line oneLine atEnd, by simp,
      .inr atEnd, ?_, ?_⟩
    · have none : body.count '\n' = 0 := List.count_eq_zero.mpr oneLine
      simp [none]
    · rw [List.nil_append, ← eq]
      rfl
  · rcases stripFrom_blockComment rest with ⟨body, behind, rfl, first, eq⟩ | ⟨never, eq⟩
    · refine ⟨'/' :: '*' :: (body ++ ['*', '/']), behind, newlines body ++ [' '], by simp,
        List.cons_ne_nil _ _, .block first, blank body, .inl (by simp), ?_, ?_⟩
      · rw [counted]
        simp [List.count_append]
      · rw [List.append_assoc, List.singleton_append, ← eq]
        rfl
    · refine ⟨'/' :: '*' :: rest, [], newlines rest ++ [' '], by simp, List.cons_ne_nil _ _,
        .unclosed never, blank rest, .inl (by simp), ?_, ?_⟩
      · rw [counted]
        simp
      · rw [← eq]
        exact (List.append_nil _).symm

/-- Outside of strings and comments a character stays unless it begins a comment, and a double quote
begins a string. -/
theorem stripFrom_code_cons {c : Char} {rest : List Char} (noComment : ¬ OpensComment (c :: rest)) :
    stripFrom .code (c :: rest) =
      c :: stripFrom (if c = '"' then .string else .code) rest := by
  by_cases quote : c = '"'
  · rw [if_pos quote, quote]
    rfl
  · rw [if_neg quote]
    refine stripFrom.eq_4 c rest ?_ ?_ quote
    · rintro behind rfl rfl
      exact noComment (.inl ⟨behind, rfl⟩)
    · rintro behind rfl rfl
      exact noComment (.inr ⟨behind, rfl⟩)

/-- Inside a string every character up to the closing quote or the newline stays. -/
theorem stripFrom_string_append {value text rest : List Char}
    (plain : ∀ c ∈ value, c ≠ '"' ∧ c ≠ '\n') (eq : stripFrom .string text = value ++ rest) :
    ∃ behind, text = value ++ behind ∧ stripFrom .string behind = rest := by
  induction value generalizing text with
  | nil => exact ⟨text, rfl, eq⟩
  | cons c value ih =>
    rw [List.forall_mem_cons] at plain
    cases text with
    | nil => cases eq
    | cons d text =>
      obtain ⟨rfl, more⟩ := List.cons.inj eq
      rw [if_neg (by simpa using plain.1)] at more
      obtain ⟨behind, rfl, inside⟩ := ih plain.2 more
      exact ⟨behind, rfl, inside⟩

end JackCompiler
