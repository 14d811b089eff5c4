import JackCompiler.Proofs.Outcome
import JackCompiler.Proofs.Token.Comment
import JackCompiler.Proofs.Token.LexicalClass

/-!
# Cutting a text into tokens

`Cut` says that a text is made of blanks, comments and given lexemes, one directly behind the other,
and on which line each lexeme stands. Every text can be cut in this way (`exists_cut`), and the
lexemes are the ones that are classified (`tokenizeLines_eq`). So nothing is lost, invented or
displaced (`tokenize_cut`): either all lexemes are tokens, or the error names the first one that is
none, and the text in front of it is cut into the tokens before.

The way there has two steps. `Spaced` is the same for a text without comments and holds of the
lexemes of its lines (`spaced_lines`). Then the comments are put back (`Spaced.exists_cut`); that
works since a blank or a newline is left where a comment was, so no lexeme reaches across one.
-/

set_option autoImplicit false

namespace JackCompiler

/-- Whether a text is empty or begins with a line end. -/
def AtLineEnd (text : List Char) : Prop := AtNewline text ∨ ['\r', '\n'] <+: text

/-- Whether a text is a lexeme when `behind` follows it: a symbol, characters of a word, or a string
that is closed or at the end of its line. -/
inductive IsLexeme : List Char → List Char → Prop
  | symbol {behind : List Char} (c : Char) (among : isSymbol c = true) : IsLexeme [c] behind
  | word {lexeme behind : List Char} (nonempty : lexeme ≠ [])
      (areWordChars : ∀ c ∈ lexeme, isWordChar c = true) : IsLexeme lexeme behind
  | closed {value behind : List Char} (plain : ∀ c ∈ value, c ≠ '"' ∧ c ≠ '\n') :
      IsLexeme ('"' :: (value ++ ['"'])) behind
  | unclosed {value behind : List Char} (plain : ∀ c ∈ value, c ≠ '"' ∧ c ≠ '\n')
      (ends : AtLineEnd behind) : IsLexeme ('"' :: value) behind

/-- Whether a text, read from a line on, is made of blanks, comments and these lexemes up to the
rest that begins on the line `last`. Each lexeme comes with the line it stands on, and none begins
where a comment does. -/
inductive Cut : Nat → List Char → List (Nat × List Char) → Nat → List Char → Prop
  | nil (line : Nat) (rest : List Char) : Cut line rest [] line rest
  | blank {line last : Nat} {text rest : List Char} {lexemes : List (Nat × List Char)} (c : Char)
      (isBlank : isBlank c = true) (cut : Cut (line + [c].count '\n') text lexemes last rest) :
      Cut line (c :: text) lexemes last rest
  | comment {line last : Nat} {text rest : List Char} {lexemes : List (Nat × List Char)}
      (comment : List Char) (isComment : IsComment comment text)
      (cut : Cut (line + comment.count '\n') text lexemes last rest) :
      Cut line (comment ++ text) lexemes last rest
  | lexeme {line last : Nat} {text rest : List Char} {lexemes : List (Nat × List Char)}
      (lexeme : List Char) (isLexeme : IsLexeme lexeme text)
      (noComment : ¬ OpensComment (lexeme ++ text)) (cut : Cut line text lexemes last rest) :
      Cut line (lexeme ++ text) ((line, lexeme) :: lexemes) last rest

/-- Whether a text without comments is made of blanks and these lexemes. -/
inductive Spaced : Nat → List Char → List (Nat × List Char) → Prop
  | nil (line : Nat) : Spaced line [] []
  | blank {line : Nat} {text : List Char} {lexemes : List (Nat × List Char)} (c : Char)
      (isBlank : isBlank c = true) (spaced : Spaced (line + [c].count '\n') text lexemes) :
      Spaced line (c :: text) lexemes
  | lexeme {line : Nat} {text : List Char} {lexemes : List (Nat × List Char)} (lexeme : List Char)
      (isLexeme : IsLexeme lexeme text) (spaced : Spaced line text lexemes) :
      Spaced line (lexeme ++ text) ((line, lexeme) :: lexemes)

/-! ## Lexemes -/

theorem isWordChar_iff {c : Char} :
    isWordChar c = true ↔ isBlank c = false ∧ isSymbol c = false ∧ c ≠ '"' := by
  unfold isWordChar
  simp [and_assoc]

namespace IsLexeme

variable {lexeme behind : List Char}

/-- A lexeme begins with a character that is no blank. -/
theorem exists_first (isLexeme : IsLexeme lexeme behind) :
    ∃ c rest, lexeme = c :: rest ∧ isBlank c = false := by
  cases isLexeme with
  | symbol c among =>
    exact ⟨c, [], rfl, (symbol_chars (isSymbol_iff.mp among)).2.2.2⟩
  | word nonempty areWordChars =>
    obtain ⟨c, rest, rfl⟩ := List.exists_cons_of_ne_nil nonempty
    exact ⟨c, rest, rfl, (isWordChar_iff.mp (areWordChars c (by simp))).1⟩
  | closed plain => exact ⟨'"', _, rfl, rfl⟩
  | unclosed plain ends => exact ⟨'"', _, rfl, rfl⟩

theorem ne_nil (isLexeme : IsLexeme lexeme behind) : lexeme ≠ [] := by
  obtain ⟨c, rest, rfl, -⟩ := isLexeme.exists_first
  exact List.cons_ne_nil c rest

/-- A lexeme stands on one line. -/
theorem count_newline (isLexeme : IsLexeme lexeme behind) : lexeme.count '\n' = 0 := by
  rw [List.count_eq_zero]
  cases isLexeme with
  | symbol c among =>
    rw [List.mem_singleton]
    rintro rfl
    cases among
  | word nonempty areWordChars =>
    intro newline
    have wordChar := areWordChars _ newline
    cases wordChar
  | closed plain =>
    simp only [List.mem_cons, List.mem_append, List.not_mem_nil, or_false, Char.reduceEq, false_or]
    exact fun newline => (plain _ newline).2 rfl
  | unclosed plain ends =>
    simp only [List.mem_cons, Char.reduceEq, false_or]
    exact fun newline => (plain _ newline).2 rfl

end IsLexeme

namespace Cut

variable {line last : Nat} {text rest : List Char} {lexemes : List (Nat × List Char)}

/-- The rest stands on the line that the newlines in front of it lead to. -/
theorem exists_front (cut : Cut line text lexemes last rest) :
    ∃ front, text = front ++ rest ∧ last = line + front.count '\n' := by
  induction cut with
  | nil line rest => exact ⟨[], rfl, rfl⟩
  | blank c _ _ ih =>
    obtain ⟨front, rfl, rfl⟩ := ih
    refine ⟨[c] ++ front, rfl, ?_⟩
    rw [List.count_append, Nat.add_assoc]
  | comment comment _ _ ih =>
    obtain ⟨front, rfl, rfl⟩ := ih
    refine ⟨comment ++ front, by rw [List.append_assoc], ?_⟩
    rw [List.count_append, Nat.add_assoc]
  | lexeme lexeme isLexeme _ _ ih =>
    obtain ⟨front, rfl, rfl⟩ := ih
    refine ⟨lexeme ++ front, by rw [List.append_assoc], ?_⟩
    rw [List.count_append, isLexeme.count_newline, Nat.zero_add]

/-- A cut can be stopped in front of each of its lexemes. -/
theorem stop {before after : List (Nat × List Char)} {place : Nat} {lexeme : List Char}
    (cut : Cut line text (before ++ (place, lexeme) :: after) last rest) :
    ∃ behind, Cut line text before place (lexeme ++ behind) := by
  generalize whole : before ++ (place, lexeme) :: after = lexemes at cut
  induction cut generalizing before with
  | nil line rest => simp at whole
  | blank c isBlank _ ih =>
    obtain ⟨behind, cut⟩ := ih whole
    exact ⟨behind, .blank c isBlank cut⟩
  | comment comment isComment _ ih =>
    obtain ⟨behind, cut⟩ := ih whole
    exact ⟨behind, .comment comment isComment cut⟩
  | @lexeme line last text rest lexemes lexeme' isLexeme noComment _ ih =>
    cases before with
    | nil =>
      rw [List.nil_append, List.cons.injEq, Prod.mk.injEq] at whole
      obtain ⟨⟨rfl, rfl⟩, -⟩ := whole
      exact ⟨text, .nil place _⟩
    | cons first before =>
      rw [List.cons_append, List.cons.injEq] at whole
      obtain ⟨rfl, whole⟩ := whole
      obtain ⟨behind, cut⟩ := ih whole
      exact ⟨behind, .lexeme lexeme' isLexeme noComment cut⟩

theorem ne_nil_of_mem (cut : Cut line text lexemes last rest) :
    ∀ piece ∈ lexemes, piece.2 ≠ [] := by
  induction cut with
  | nil => exact fun _ among => absurd among List.not_mem_nil
  | blank _ _ _ ih => exact ih
  | comment _ _ _ ih => exact ih
  | lexeme lexeme isLexeme _ _ ih => exact List.forall_mem_cons.mpr ⟨isLexeme.ne_nil, ih⟩

end Cut

/-! ## Lines without comments -/

theorem cutBehindQuote_cases (text : List Char) :
    (∃ value behind : List Char, text = value ++ '"' :: behind ∧ (∀ c ∈ value, c ≠ '"') ∧
      cutBehindQuote text = (value ++ ['"'], behind)) ∨
    (∀ c ∈ text, c ≠ '"') ∧ cutBehindQuote text = (text, []) := by
  induction text with
  | nil => exact .inr ⟨by simp, rfl⟩
  | cons c rest ih =>
    by_cases quote : c = '"'
    · subst quote
      exact .inl ⟨[], rest, rfl, by simp, by simp [cutBehindQuote]⟩
    · rcases ih with ⟨value, behind, rfl, plain, eq⟩ | ⟨plain, eq⟩
      · refine .inl ⟨c :: value, behind, rfl, List.forall_mem_cons.mpr ⟨quote, plain⟩, ?_⟩
        simp [cutBehindQuote, quote, eq]
      · refine .inr ⟨List.forall_mem_cons.mpr ⟨quote, plain⟩, ?_⟩
        simp [cutBehindQuote, quote, eq]

/-- A line is made of its lexemes, with whatever stands behind the line. -/
theorem spaced_line {line : Nat} {text rest : List Char} {more : List (Nat × List Char)}
    (oneLine : '\n' ∉ text) (ends : AtLineEnd rest) (spaced : Spaced line rest more) :
    Spaced line (text ++ rest) ((lexemes text).map (fun lexeme => (line, lexeme)) ++ more) := by
  induction text using lexemes.induct with
  | case1 =>
    rw [lexemes]
    exact spaced
  | case2 c text blank ih =>
    rw [List.mem_cons, not_or] at oneLine
    have same : [c].count '\n' = 0 := by
      rw [List.count_eq_zero, List.mem_singleton]
      exact oneLine.1
    rw [lexemes, if_pos blank]
    refine .blank c blank ?_
    rw [same]
    exact ih oneLine.2
  | case3 c text noBlank symbol ih =>
    rw [List.mem_cons, not_or] at oneLine
    rw [lexemes, if_neg noBlank, if_pos symbol]
    exact .lexeme [c] (.symbol c symbol) (ih oneLine.2)
  | case4 text noBlank noSymbol ih =>
    rw [List.mem_cons, not_or] at oneLine
    rw [lexemes, if_neg noBlank, if_neg noSymbol, if_pos rfl]
    rcases cutBehindQuote_cases text with ⟨value, behind, rfl, plain, eq⟩ | ⟨plain, eq⟩
    · rw [eq] at ih ⊢
      have inside : ∀ c ∈ value, c ≠ '"' ∧ c ≠ '\n' := by
        intro c among
        refine ⟨plain c among, ?_⟩
        rintro rfl
        exact oneLine.2 (by simp [among])
      have others := ih (by simpa using fun h => oneLine.2 (by simp [h]))
      have whole := Spaced.lexeme _ (IsLexeme.closed inside) others
      simpa using whole
    · rw [eq] at ih ⊢
      have inside : ∀ c ∈ text, c ≠ '"' ∧ c ≠ '\n' := by
        intro c among
        refine ⟨plain c among, ?_⟩
        rintro rfl
        exact oneLine.2 among
      have others := ih List.not_mem_nil
      rw [lexemes, List.map_nil, List.nil_append, List.nil_append] at others
      have whole := Spaced.lexeme _ (IsLexeme.unclosed inside ends) others
      simpa [lexemes] using whole
  | case5 c text noBlank noSymbol noQuote ih =>
    rw [List.mem_cons, not_or] at oneLine
    rw [lexemes, if_neg noBlank, if_neg noSymbol, if_neg noQuote]
    have first : isWordChar c = true :=
      isWordChar_iff.mpr ⟨by simpa using noBlank, by simpa using noSymbol, noQuote⟩
    have areWordChars : ∀ d ∈ c :: text.takeWhile isWordChar, isWordChar d = true :=
      List.forall_mem_cons.mpr
        ⟨first, fun d among => List.all_eq_true.mp List.all_takeWhile d among⟩
    have others := ih fun h => oneLine.2 ((List.dropWhile_sublist isWordChar).subset h)
    have whole := Spaced.lexeme _ (IsLexeme.word (List.cons_ne_nil _ _) areWordChars) others
    rw [← List.append_assoc, List.cons_append, List.takeWhile_append_dropWhile] at whole
    exact whole

/-- A text that is not empty is its first line, a line end unless that is the last line, and the
text of the further lines. -/
theorem exists_first_line {text : List Char} (nonempty : text ≠ []) :
    ∃ line ending rest : List Char, text = line ++ ending ++ rest ∧ '\n' ∉ line ∧
      lines text = line :: lines rest ∧
      (ending = ['\n'] ∨ ending = ['\r', '\n'] ∨ ending = [] ∧ line ≠ [] ∧ rest = []) := by
  induction text with
  | nil => exact absurd rfl nonempty
  | cons c text ih =>
    by_cases newline : c = '\n'
    · subst newline
      exact ⟨[], ['\n'], text, rfl, List.not_mem_nil, by rw [lines], .inl rfl⟩
    by_cases returns : c = '\r' ∧ ∃ rest, text = '\n' :: rest
    · obtain ⟨rfl, rest, rfl⟩ := returns
      exact ⟨[], ['\r', '\n'], rest, rfl, List.not_mem_nil, by rw [lines], .inr (.inl rfl)⟩
    have step := lines.eq_4 c text newline fun rest isReturn eq => returns ⟨isReturn, rest, eq⟩
    by_cases alone : text = []
    · subst alone
      refine ⟨[c], [], [], rfl, ?_, ?_, .inr (.inr ⟨rfl, List.cons_ne_nil _ _, rfl⟩)⟩
      · rw [List.mem_singleton]
        exact fun h => newline h.symm
      · rw [step, lines]
    · obtain ⟨line, ending, rest, rfl, oneLine, eq, kinds⟩ := ih alone
      refine ⟨c :: line, ending, rest, rfl, ?_, ?_, ?_⟩
      · rw [List.mem_cons, not_or]
        exact ⟨fun h => newline h.symm, oneLine⟩
      · rw [step, eq]
      · rcases kinds with h | h | ⟨h, -, h'⟩
        · exact .inl h
        · exact .inr (.inl h)
        · exact .inr (.inr ⟨h, List.cons_ne_nil _ _, h'⟩)

/-- The lexemes of consecutive lines, each with the number of its line. -/
def numberedLexemes (first : Nat) : List (List Char) → List (Nat × List Char)
  | [] => []
  | text :: later =>
    (lexemes text).map (fun lexeme => (first, lexeme)) ++ numberedLexemes (first + 1) later

/-- A text without comments is made of the lexemes of its lines. The induction is on its length. -/
theorem spaced_lines (line : Nat) (text : List Char) :
    Spaced line text (numberedLexemes line (lines text)) := by
  induction h : text.length using Nat.strongRecOn generalizing line text with
  | ind length ih =>
    by_cases empty : text = []
    · subst empty
      rw [lines]
      exact .nil line
    · obtain ⟨front, ending, rest, rfl, oneLine, eq, kinds⟩ := exists_first_line empty
      rw [eq, numberedLexemes, List.append_assoc]
      rw [List.length_append, List.length_append] at h
      rcases kinds with rfl | rfl | ⟨rfl, frontNonempty, rfl⟩
      · have shorter : rest.length < length := by
          rw [← h, List.length_singleton]
          omega
        have others := ih rest.length shorter (line + 1) rest rfl
        exact spaced_line oneLine (.inl (.inr rfl)) (.blank '\n' (by decide) others)
      · have others := ih rest.length (by rw [← h]; simp) (line + 1) rest rfl
        exact spaced_line oneLine (.inr ⟨rest, rfl⟩)
          (.blank '\r' (by decide) (.blank '\n' (by decide) others))
      · rw [lines, numberedLexemes]
        exact spaced_line oneLine (.inl (.inl rfl)) (.nil line)

/-! ## Putting the comments back -/

/-- Blanks are skipped by no lexeme. -/
theorem Spaced.skip {line : Nat} {blanks text : List Char} {lexemes : List (Nat × List Char)}
    (areBlanks : ∀ c ∈ blanks, isBlank c = true) (spaced : Spaced line (blanks ++ text) lexemes) :
    Spaced (line + blanks.count '\n') text lexemes := by
  induction blanks generalizing line with
  | nil => exact spaced
  | cons c blanks ih =>
    rw [List.forall_mem_cons] at areBlanks
    generalize whole : c :: blanks ++ text = front at spaced
    cases spaced with
    | nil => cases whole
    | blank d _ spaced =>
      rw [List.cons_append, List.cons.injEq] at whole
      obtain ⟨rfl, rfl⟩ := whole
      have others := ih areBlanks.2 spaced
      rwa [Nat.add_assoc, ← List.count_append, List.singleton_append] at others
    | lexeme lexeme isLexeme _ =>
      obtain ⟨d, rest, rfl, noBlank⟩ := isLexeme.exists_first
      rw [List.cons_append, List.cons_append, List.cons.injEq] at whole
      rw [← whole.1, areBlanks.1] at noBlank
      cases noBlank

/-- What is left of a text that begins with a comment begins with a blank. -/
theorem isBlank_of_opens {text rest : List Char} {c : Char} (opens : OpensComment text)
    (eq : stripFrom .code text = c :: rest) : isBlank c = true := by
  obtain ⟨comment, behind, blanks, -, -, -, areBlanks, kinds, -, left⟩ := stripFrom_of_opens opens
  rw [left] at eq
  cases blanks with
  | cons d blanks =>
    rw [List.cons_append, List.cons.injEq] at eq
    exact eq.1 ▸ areBlanks d (by simp)
  | nil =>
    rcases kinds with none | rfl | head
    · exact absurd rfl none
    · simp [stripFrom] at eq
    · obtain ⟨later, rfl⟩ := List.head?_eq_some_iff.mp head
      rw [List.nil_append, stripFrom_code_cons (by simp [OpensComment])] at eq
      rw [← (List.cons.inj eq).1]
      decide

/-- A word that is left of a text stood there in one piece. -/
theorem exists_behind_word {word text rest : List Char}
    (areWordChars : ∀ c ∈ word, isWordChar c = true)
    (eq : stripFrom .code text = word ++ rest) :
    ∃ behind, text = word ++ behind ∧ stripFrom .code behind = rest := by
  induction word generalizing text with
  | nil => exact ⟨text, rfl, eq⟩
  | cons c word ih =>
    rw [List.forall_mem_cons] at areWordChars
    obtain ⟨noBlank, -, noQuote⟩ := isWordChar_iff.mp areWordChars.1
    have noComment : ¬ OpensComment text := by
      intro opens
      rw [isBlank_of_opens opens eq] at noBlank
      cases noBlank
    cases text with
    | nil => simp [stripFrom] at eq
    | cons d text =>
      rw [stripFrom_code_cons noComment, List.cons_append, List.cons.injEq] at eq
      obtain ⟨rfl, eq⟩ := eq
      rw [if_neg noQuote] at eq
      obtain ⟨behind, rfl, left⟩ := ih areWordChars.2 eq
      exact ⟨behind, rfl, left⟩

/-- In front of the end of a line it makes no difference whether a string is open. -/
theorem stripFrom_string_of_atLineEnd {text rest : List Char}
    (eq : stripFrom .string text = rest) (ends : AtLineEnd rest) :
    stripFrom .code text = rest ∧ AtLineEnd text := by
  cases text with
  | nil =>
    simp only [stripFrom] at eq ⊢
    exact ⟨eq, .inl (.inl rfl)⟩
  | cons c text =>
    rw [stripFrom.eq_5] at eq
    subst eq
    rcases ends with (none | head) | ⟨later, two⟩
    · cases none
    · obtain rfl : c = '\n' := Option.some.inj head
      rw [stripFrom_code_cons (by simp [OpensComment])]
      exact ⟨by simp, .inl (.inr rfl)⟩
    · rw [List.cons_append, List.cons.injEq] at two
      obtain ⟨rfl, two⟩ := two
      rw [stripFrom_code_cons (by simp [OpensComment])]
      cases text with
      | nil => simp [stripFrom] at two
      | cons d text =>
        simp only [Char.reduceEq, or_self, if_false] at two ⊢
        rw [stripFrom.eq_5, List.singleton_append, List.cons.injEq] at two
        obtain ⟨rfl, -⟩ := two
        rw [stripFrom_code_cons (by simp [OpensComment]), stripFrom.eq_5]
        exact ⟨by simp, .inr ⟨text, rfl⟩⟩

/-- A lexeme that is left of a text stood there in one piece. -/
theorem IsLexeme.exists_behind {lexeme text rest : List Char} (isLexeme : IsLexeme lexeme rest)
    (noComment : ¬ OpensComment text) (eq : stripFrom .code text = lexeme ++ rest) :
    ∃ behind, text = lexeme ++ behind ∧ stripFrom .code behind = rest ∧
      IsLexeme lexeme behind := by
  cases text with
  | nil =>
    obtain ⟨c, later, rfl, -⟩ := isLexeme.exists_first
    simp [stripFrom] at eq
  | cons d text =>
    cases isLexeme with
    | symbol c among =>
      rw [stripFrom_code_cons noComment, List.singleton_append, List.cons.injEq] at eq
      obtain ⟨rfl, eq⟩ := eq
      rw [if_neg (symbol_chars (isSymbol_iff.mp among)).2.2.1] at eq
      exact ⟨text, rfl, eq, .symbol d among⟩
    | word nonempty areWordChars =>
      obtain ⟨behind, whole, left⟩ := exists_behind_word areWordChars eq
      exact ⟨behind, whole, left, .word nonempty areWordChars⟩
    | @closed value _ plain =>
      rw [stripFrom_code_cons noComment, List.cons_append, List.cons.injEq] at eq
      obtain ⟨rfl, eq⟩ := eq
      rw [if_pos rfl, List.append_assoc] at eq
      obtain ⟨behind, rfl, left⟩ := stripFrom_string_append plain eq
      cases behind with
      | nil => simp [stripFrom] at left
      | cons c behind =>
        rw [stripFrom.eq_5, List.singleton_append, List.cons.injEq] at left
        obtain ⟨rfl, left⟩ := left
        rw [if_pos (.inl rfl)] at left
        exact ⟨behind, by simp, left, .closed plain⟩
    | @unclosed value _ plain ends =>
      rw [stripFrom_code_cons noComment, List.cons_append, List.cons.injEq] at eq
      obtain ⟨rfl, eq⟩ := eq
      rw [if_pos rfl] at eq
      obtain ⟨behind, rfl, left⟩ := stripFrom_string_append plain eq
      obtain ⟨left, atEnd⟩ := stripFrom_string_of_atLineEnd left ends
      exact ⟨behind, rfl, left, .unclosed plain atEnd⟩

/-- A text is made of comments and of what it is made of without them. The induction is on its
length; in each round the text loses a comment, a blank or a lexeme. -/
theorem Spaced.exists_cut {line : Nat} {text : List Char} {lexemes : List (Nat × List Char)}
    (spaced : Spaced line (stripFrom .code text) lexemes) :
    ∃ last, Cut line text lexemes last [] := by
  induction h : text.length using Nat.strongRecOn generalizing line text lexemes with
  | ind length ih =>
    by_cases opens : OpensComment text
    · obtain ⟨comment, behind, blanks, rfl, nonempty, isComment, areBlanks, -, counted, eq⟩ :=
        stripFrom_of_opens opens
      rw [eq] at spaced
      have shorter : behind.length < length := by
        have pos := List.length_pos_iff.mpr nonempty
        rw [← h, List.length_append]
        omega
      obtain ⟨last, cut⟩ := ih behind.length shorter (spaced.skip areBlanks) rfl
      rw [counted] at cut
      exact ⟨last, .comment comment isComment cut⟩
    · generalize eq : stripFrom .code text = left at spaced
      cases spaced with
      | nil =>
        cases text with
        | nil => exact ⟨line, .nil line []⟩
        | cons c text =>
          rw [stripFrom_code_cons opens] at eq
          cases eq
      | @blank _ rest _ c blank spaced =>
        cases text with
        | nil => simp [stripFrom] at eq
        | cons d text =>
          rw [stripFrom_code_cons opens, List.cons.injEq] at eq
          obtain ⟨rfl, eq⟩ := eq
          have noQuote : d ≠ '"' := by
            rintro rfl
            cases blank
          rw [if_neg noQuote] at eq
          rw [← eq] at spaced
          obtain ⟨last, cut⟩ := ih text.length (by rw [← h, List.length_cons]; omega) spaced rfl
          exact ⟨last, .blank d blank cut⟩
      | @lexeme _ rest _ lexeme isLexeme spaced =>
        obtain ⟨behind, rfl, left, isLexeme'⟩ := isLexeme.exists_behind opens eq
        rw [← left] at spaced
        have shorter : behind.length < length := by
          have pos := List.length_pos_iff.mpr isLexeme'.ne_nil
          rw [← h, List.length_append]
          omega
        obtain ⟨last, cut⟩ := ih behind.length shorter spaced rfl
        exact ⟨last, .lexeme lexeme isLexeme' opens cut⟩

/-- Every text can be cut into blanks, comments and the lexemes that are left without the
comments. -/
theorem exists_cut (text : List Char) :
    ∃ last, Cut 1 text (numberedLexemes 1 (lines (stripFrom .code text))) last [] :=
  (spaced_lines 1 (stripFrom .code text)).exists_cut

/-! ## Tokens -/

/-- Where a token stands and what its text is. -/
def Token.place (token : Token) : Nat × List Char := (token.line, token.text.toList)

theorem tokenizeLines_eq (first : Nat) (texts : List (List Char)) :
    tokenizeLines first texts =
      (numberedLexemes first texts).mapM fun piece => classify piece.1 piece.2 := by
  induction texts generalizing first with
  | nil => rfl
  | cons text later ih =>
    unfold tokenizeLines tokenizeLine
    rw [numberedLexemes, List.mapM_append, List.mapM_map, ih (first + 1)]
    rfl

theorem mapM_classify_eq_ok {pieces : List (Nat × List Char)} {tokens : List Token}
    (nonempty : ∀ piece ∈ pieces, piece.2 ≠ [])
    (h : (pieces.mapM fun piece => classify piece.1 piece.2) = .ok tokens) :
    pieces = tokens.map Token.place ∧ ∀ token ∈ tokens, token.WellFormed := by
  induction pieces generalizing tokens with
  | nil =>
    rw [List.mapM_nil] at h
    cases h
    exact ⟨rfl, fun _ among => absurd among List.not_mem_nil⟩
  | cons piece later ih =>
    rw [List.forall_mem_cons] at nonempty
    rw [List.mapM_cons, except_bind_eq_ok] at h
    obtain ⟨token, one, h⟩ := h
    obtain ⟨others, more, h⟩ := except_bind_eq_ok.mp h
    cases h
    obtain ⟨wellFormed, text, line⟩ := (classify_eq_ok_iff nonempty.1).mp one
    obtain ⟨rfl, areWellFormed⟩ := ih nonempty.2 more
    refine ⟨?_, List.forall_mem_cons.mpr ⟨wellFormed, areWellFormed⟩⟩
    rw [List.map_cons, Token.place, text, line]

/-- The tokens of a source are its lexemes, classified one after the other. -/
theorem result_tokenize (source : String) :
    (tokenize source).result = (numberedLexemes 1 (lines (stripFrom .code source.toList))).mapM
      fun piece => classify piece.1 piece.2 := by
  rw [← tokenizeLines_eq]
  unfold tokenize
  simp only [Logged.result_bind, Logged.result_liftM, Logged.result_report, Logged.result_pure]
  cases tokenizeLines 1 (lines (stripFrom .code source.toList)) <;> rfl

/-- Each token of a source belongs to its class. -/
theorem wellFormed_of_tokenize {source : String} {tokens : List Token}
    (ok : (tokenize source).result = .ok tokens) : ∀ token ∈ tokens, token.WellFormed := by
  obtain ⟨last, cut⟩ := exists_cut source.toList
  rw [result_tokenize] at ok
  exact (mapM_classify_eq_ok cut.ne_nil_of_mem ok).2

/-- The source is cut from the left into blanks, comments and the tokens, all of them well formed
and on their lines. If there is an error, it names a piece that is no token of any class, and what
stands in front of that piece is cut in the same way. -/
theorem tokenize_cut (source : String) :
    match (tokenize source).result with
    | .ok tokens =>
      (∃ last, Cut 1 source.toList (tokens.map Token.place) last []) ∧
        ∀ token ∈ tokens, token.WellFormed
    | .error error =>
      ∃ (line : Nat) (text : String) (flaw : LexicalFlaw) (tokens : List Token)
        (front behind : List Char), error = .invalidToken line text flaw ∧
        source.toList = front ++ text.toList ++ behind ∧ line = 1 + front.count '\n' ∧
        Cut 1 source.toList (tokens.map Token.place) line (text.toList ++ behind) ∧
        (∀ token ∈ tokens, token.WellFormed) ∧
        text ≠ "" ∧ ∀ kind : TokenKind, ¬ kind.Admits text.toList := by
  obtain ⟨last, cut⟩ := exists_cut source.toList
  have nonempty := cut.ne_nil_of_mem
  rw [result_tokenize]
  split
  · rename_i tokens ok
    obtain ⟨eq, areWellFormed⟩ := mapM_classify_eq_ok nonempty ok
    rw [eq] at cut
    exact ⟨⟨last, cut⟩, areWellFormed⟩
  · rename_i error fails
    obtain ⟨before, ⟨line, lexeme⟩, after, tokens, eq, ok, fails⟩ := exists_of_mapM_eq_error fails
    rw [eq] at cut nonempty
    have one : lexeme ≠ [] := nonempty (line, lexeme) (by simp)
    obtain ⟨⟨flaw, rfl⟩, unclassified⟩ := classify_eq_error one fails
    obtain ⟨places, areWellFormed⟩ :=
      mapM_classify_eq_ok (fun piece among => nonempty piece (by simp [among])) ok
    obtain ⟨behind, stopped⟩ := cut.stop
    obtain ⟨front, whole, lineEq⟩ := stopped.exists_front
    refine ⟨line, String.ofList lexeme, flaw, tokens, front, behind, rfl, ?_, lineEq, ?_,
      areWellFormed, ?_, ?_⟩
    · rw [String.toList_ofList, List.append_assoc, whole]
    · rw [String.toList_ofList, ← places]
      exact stopped
    · intro empty
      apply one
      rw [← String.toList_ofList (l := lexeme), empty]
      rfl
    · rw [String.toList_ofList]
      exact unclassified

end JackCompiler
