import Mathlib.Data.List.Chain
import JackCompiler.Proofs.Token.Cut

/-!
# Tokens laid out on a line

`TokenLine` is a line that is written down token by token, with blanks in front of the first one and
behind each of them. It is proper if its tokens are well formed and a blank keeps apart any two of
them that would run together, which is the case if neither is a symbol or a string constant. A text
has tokens exactly if it is the text of a proper line, and no text is that of two of them
(`tokenizeLine_eq_ok_iff_exists_line`).

The lexemes of a proper line are the texts of its tokens (`TokenLine.Proper.lexemes_text`), since
each lexeme ends where its token does. The other way round, there is nothing but blanks between the
lexemes of a text, and a word goes on up to a character that no word holds
(`TokenLine.exists_line_of_tokenizeLine`).
-/

set_option autoImplicit false

namespace JackCompiler

/-- Whether a token needs no blank beside it. -/
def Token.StandsApart (token : Token) : Prop :=
  token.kind = .symbol ∨ token.kind = .stringConstant

/-- Tokens written on a line: the text in front of the first one, and each token with the text that
follows it. -/
structure TokenLine where
  lead : List Char
  parts : List (Token × List Char)

namespace TokenLine

def tokens (written : TokenLine) : List Token := written.parts.map (·.1)

def text (written : TokenLine) : List Char :=
  written.lead ++ written.parts.flatMap fun part => part.1.text.toList ++ part.2

/-- Whether a line with a given number is well-formed tokens with blanks around them, which are
missing between two tokens only if one of them needs none. -/
structure Proper (line : Nat) (written : TokenLine) : Prop where
  leadBlank : ∀ c ∈ written.lead, isBlank c = true
  gapsBlank : ∀ part ∈ written.parts, ∀ c ∈ part.2, isBlank c = true
  wellFormed : ∀ part ∈ written.parts, part.1.WellFormed ∧ part.1.line = line
  apart : written.parts.IsChain fun part next =>
    part.2 = [] → part.1.StandsApart ∨ next.1.StandsApart

/-- A line with a further token in front of it. -/
def cons (token : Token) (written : TokenLine) : TokenLine :=
  ⟨[], (token, written.lead) :: written.parts⟩

theorem text_cons (token : Token) (written : TokenLine) :
    (cons token written).text = token.text.toList ++ written.text := by
  simp [cons, text]

end TokenLine

/-! ## Characters of words -/

/-- The ends of the range from `0` to `z` are between the blanks of ASCII and the others. -/
theorem code_of_isBlank {c : Char} (blank : isBlank c = true) :
    c.toNat < '0'.toNat ∨ 'z'.toNat < c.toNat := by
  have zero : '0'.toNat = 48 := rfl
  have z : 'z'.toNat = 122 := rfl
  simp only [isBlank, Bool.or_eq_true, Bool.and_eq_true, decide_eq_true_eq] at blank
  omega

theorem code_of_identifierChar {c : Char} (h : startsIdentifier c = true ∨ c.isDigit = true) :
    '0'.toNat ≤ c.toNat ∧ c.toNat ≤ 'z'.toNat := by
  have code : c.toNat = c.val.toNat := rfl
  have zero : '0'.toNat = 48 := rfl
  have z : 'z'.toNat = 122 := rfl
  unfold startsIdentifier Char.isAlpha Char.isUpper Char.isLower Char.isDigit at h
  simp only [Bool.or_eq_true, Bool.and_eq_true, decide_eq_true_eq, UInt32.le_iff_toNat_le,
    ge_iff_le] at h
  rcases h with ((upper | lower) | rfl) | digit
  · have first : 'A'.val.toNat = 65 := rfl
    have last : 'Z'.val.toNat = 90 := rfl
    omega
  · have first : 'a'.val.toNat = 97 := rfl
    have last : 'z'.val.toNat = 122 := rfl
    omega
  · decide
  · have first : '0'.val.toNat = 48 := rfl
    have last : '9'.val.toNat = 57 := rfl
    omega

/-- Letters, digits and underscores are characters of words. -/
theorem isWordChar_of_identifierChar {c : Char}
    (h : startsIdentifier c = true ∨ c.isDigit = true) : isWordChar c = true := by
  rw [isWordChar_iff]
  refine ⟨?_, ?_, ?_⟩
  · rw [Bool.eq_false_iff]
    intro blank
    have range := code_of_identifierChar h
    rcases code_of_isBlank blank with low | high
    · omega
    · omega
  · rw [Bool.eq_false_iff]
    intro among
    obtain ⟨noStart, noDigit, -⟩ := symbol_chars (isSymbol_iff.mp among)
    rw [noStart, noDigit] at h
    simp at h
  · rintro rfl
    rcases h with h | h <;> cases h

/-- A text of any class but two is a word. -/
theorem TokenKind.Admits.word {kind : TokenKind} {lexeme : List Char} (admits : kind.Admits lexeme)
    (noSymbol : kind ≠ .symbol) (noString : kind ≠ .stringConstant) :
    lexeme ≠ [] ∧ ∀ c ∈ lexeme, isWordChar c = true := by
  cases admits with
  | keyword text reserved =>
    obtain ⟨long, letters⟩ := keyword_chars reserved
    refine ⟨?_, ?_⟩
    · intro none
      rw [none] at long
      cases long
    · intro c among
      have letter : startsIdentifier c = true := by simp [startsIdentifier, letters c among]
      exact isWordChar_of_identifierChar (.inl letter)
  | symbol c among => exact absurd rfl noSymbol
  | integerConstant nonempty areDigits small =>
    exact ⟨nonempty, fun c among => isWordChar_of_identifierChar (.inr (areDigits c among))⟩
  | stringConstant plain => exact absurd rfl noString
  | identifier starts goesOn unreserved =>
    refine ⟨List.cons_ne_nil _ _, List.forall_mem_cons.mpr ⟨?_, ?_⟩⟩
    · exact isWordChar_of_identifierChar (.inl starts)
    · exact fun c among => isWordChar_of_identifierChar (goesOn c among)

/-- A well-formed token begins with a character that is no blank. -/
theorem Token.WellFormed.exists_first {token : Token} (wellFormed : token.WellFormed) :
    ∃ c rest, token.text.toList = c :: rest ∧ isBlank c = false := by
  unfold Token.WellFormed at wellFormed
  by_cases symbol : token.kind = .symbol
  · rw [symbol] at wellFormed
    generalize token.text.toList = lexeme at wellFormed
    cases wellFormed with
    | symbol c among => exact ⟨c, [], rfl, (symbol_chars among).2.2.2⟩
  by_cases string : token.kind = .stringConstant
  · rw [string] at wellFormed
    generalize token.text.toList = lexeme at wellFormed
    cases wellFormed with
    | stringConstant plain => exact ⟨'"', _, rfl, rfl⟩
  · obtain ⟨nonempty, areWordChars⟩ := wellFormed.word symbol string
    obtain ⟨c, rest, eq⟩ := List.exists_cons_of_ne_nil nonempty
    rw [eq, List.forall_mem_cons] at areWordChars
    exact ⟨c, rest, eq, (isWordChar_iff.mp areWordChars.1).1⟩

theorem Token.WellFormed.ne_nil {token : Token} (wellFormed : token.WellFormed) :
    token.text.toList ≠ [] := by
  obtain ⟨c, rest, text, -⟩ := wellFormed.exists_first
  rw [text]
  exact List.cons_ne_nil c rest

/-- A token that stands apart begins with no character of a word. -/
theorem Token.WellFormed.exists_first_of_standsApart {token : Token}
    (wellFormed : token.WellFormed) (apart : token.StandsApart) :
    ∃ c rest, token.text.toList = c :: rest ∧ isWordChar c = false := by
  unfold Token.WellFormed at wellFormed
  unfold Token.StandsApart at apart
  generalize token.kind = kind at *
  generalize token.text.toList = lexeme at *
  cases wellFormed with
  | symbol c among => exact ⟨c, [], rfl, by simp [isWordChar, isSymbol_iff.mpr among]⟩
  | stringConstant plain => exact ⟨'"', _, rfl, by decide⟩
  | _ => simp at apart

/-- A token that begins with no character of a word stands apart. -/
theorem Token.WellFormed.standsApart {token : Token} (wellFormed : token.WellFormed)
    {c : Char} {rest : List Char} (text : token.text.toList = c :: rest)
    (noWord : isWordChar c = false) : token.StandsApart := by
  unfold Token.StandsApart
  by_contra absent
  rw [not_or] at absent
  have first : isWordChar c = true := by
    apply (wellFormed.word absent.1 absent.2).2
    rw [text]
    exact List.mem_cons_self
  rw [noWord] at first
  cases first

/-! ## Lexemes and what is behind them -/

theorem lexemes_blanks {blanks rest : List Char} (areBlanks : ∀ c ∈ blanks, isBlank c = true) :
    lexemes (blanks ++ rest) = lexemes rest := by
  induction blanks with
  | nil => rfl
  | cons c blanks ih =>
    rw [List.forall_mem_cons] at areBlanks
    rw [List.cons_append, lexemes, if_pos areBlanks.1, ih areBlanks.2]

/-- A word is a lexeme if no character of a word follows it. -/
theorem lexemes_word {word rest : List Char} (nonempty : word ≠ [])
    (areWordChars : ∀ c ∈ word, isWordChar c = true)
    (ends : ∀ c ∈ rest.head?, isWordChar c = false) :
    lexemes (word ++ rest) = word :: lexemes rest := by
  obtain ⟨c, word, rfl⟩ := List.exists_cons_of_ne_nil nonempty
  rw [List.forall_mem_cons] at areWordChars
  obtain ⟨noBlank, noSymbol, noQuote⟩ := isWordChar_iff.mp areWordChars.1
  have front : rest.takeWhile isWordChar = [] ∧ rest.dropWhile isWordChar = rest := by
    cases rest with
    | nil => exact ⟨rfl, rfl⟩
    | cons d rest =>
      have stop := ends d rfl
      exact ⟨by simp [stop], by simp [stop]⟩
  rw [List.cons_append, lexemes, noBlank, noSymbol, if_neg Bool.false_ne_true,
    if_neg Bool.false_ne_true, if_neg noQuote, List.takeWhile_append_of_pos areWordChars.2,
    List.dropWhile_append_of_pos areWordChars.2, front.1, front.2, List.append_nil]

theorem cutBehindQuote_value {value rest : List Char} (plain : ∀ c ∈ value, c ≠ '"') :
    cutBehindQuote (value ++ '"' :: rest) = (value ++ ['"'], rest) := by
  induction value with
  | nil => simp [cutBehindQuote]
  | cons c value ih =>
    rw [List.forall_mem_cons] at plain
    rw [List.cons_append, cutBehindQuote, if_neg plain.1, ih plain.2]
    rfl

/-- The text of a well-formed token is a lexeme in front of any text that the token is kept apart
from. -/
theorem Token.WellFormed.lexemes_append {token : Token} {rest : List Char}
    (wellFormed : token.WellFormed)
    (apart : token.StandsApart ∨ ∀ c ∈ rest.head?, isWordChar c = false) :
    lexemes (token.text.toList ++ rest) = token.text.toList :: lexemes rest := by
  unfold Token.WellFormed at wellFormed
  unfold Token.StandsApart at apart
  generalize token.kind = kind at *
  generalize token.text.toList = lexeme at *
  by_cases noSymbol : kind = .symbol
  · subst noSymbol
    cases wellFormed with
    | symbol c among =>
      have noBlank := (symbol_chars among).2.2.2
      rw [List.singleton_append, lexemes, noBlank, if_neg Bool.false_ne_true,
        if_pos (isSymbol_iff.mpr among)]
  by_cases noString : kind = .stringConstant
  · subst noString
    cases wellFormed with
    | @stringConstant value plain =>
      have cut := @cutBehindQuote_value value rest fun c among => (plain c among).1
      have noBlank : ¬ isBlank '"' = true := by decide
      have noSymbol : ¬ isSymbol '"' = true := by decide
      rw [List.cons_append, List.append_assoc, List.singleton_append, lexemes, if_neg noBlank,
        if_neg noSymbol, if_pos rfl, cut]
  · obtain ⟨nonempty, areWordChars⟩ := wellFormed.word noSymbol noString
    exact lexemes_word nonempty areWordChars (apart.resolve_left (not_or.mpr ⟨noSymbol, noString⟩))

/-- If a list of lexemes is classified, so is its first one. -/
theorem mapM_classify_cons {line : Nat} {lexeme : List Char} {more : List (List Char)}
    {tokens : List Token} (nonempty : lexeme ≠ [])
    (ok : (lexeme :: more).mapM (classify line) = .ok tokens) :
    ∃ token later, tokens = token :: later ∧ token.WellFormed ∧ token.text.toList = lexeme ∧
      token.line = line ∧ more.mapM (classify line) = .ok later := by
  rw [List.mapM_cons, except_bind_eq_ok] at ok
  obtain ⟨token, one, ok⟩ := ok
  obtain ⟨later, others, ok⟩ := except_bind_eq_ok.mp ok
  cases ok
  obtain ⟨wellFormed, text, place⟩ := (classify_eq_ok_iff nonempty).mp one
  exact ⟨token, later, rfl, wellFormed, text, place, others⟩

/-! ## Proper lines have tokens -/

namespace TokenLine

variable {line : Nat} {written : TokenLine} {token : Token} {gap : List Char}
  {later : List (Token × List Char)}

/-- What is behind the first token of a proper line is proper too. -/
theorem Proper.tail {lead : List Char} (proper : Proper line ⟨lead, (token, gap) :: later⟩) :
    Proper line ⟨gap, later⟩ where
  leadBlank := proper.gapsBlank _ List.mem_cons_self
  gapsBlank := fun part among => proper.gapsBlank part (List.mem_cons_of_mem _ among)
  wellFormed := fun part among => proper.wellFormed part (List.mem_cons_of_mem _ among)
  apart := proper.apart.tail

/-- Before the first token there are just the blanks. -/
theorem text_eq (lead : List Char) :
    (TokenLine.mk lead ((token, gap) :: later)).text =
      lead ++ (token.text.toList ++ (TokenLine.mk gap later).text) := by
  simp [text]

/-- The first token of a proper line is kept apart from the text behind it. -/
theorem Proper.apart_text {lead : List Char}
    (proper : Proper line ⟨lead, (token, gap) :: later⟩) :
    token.StandsApart ∨ ∀ c ∈ (TokenLine.mk gap later).text.head?, isWordChar c = false := by
  have behind := proper.tail
  cases gap with
  | cons blank gap =>
    -- the blank right behind the token is in no word
    refine .inr fun c first => ?_
    cases first
    have isBlank : JackCompiler.isBlank blank = true := behind.leadBlank blank List.mem_cons_self
    simp [isWordChar, isBlank]
  | nil =>
    cases later with
    | nil => exact .inr fun c first => by cases first
    | cons next later =>
      rcases (List.isChain_cons_cons.mp proper.apart).1 rfl with here | there
      · exact .inl here
      · obtain ⟨c, rest, text, noWord⟩ :=
          (behind.wellFormed next List.mem_cons_self).1.exists_first_of_standsApart there
        refine .inr fun d first => ?_
        rw [text_eq, List.nil_append, text, List.cons_append, List.head?_cons] at first
        cases first
        exact noWord

/-- The lexemes of a proper line are the texts of its tokens. -/
theorem Proper.lexemes_text {written : TokenLine} (proper : written.Proper line) :
    lexemes written.text = written.tokens.map fun token => token.text.toList := by
  obtain ⟨lead, parts⟩ := written
  induction parts generalizing lead with
  | nil =>
    rw [text, List.flatMap_nil, lexemes_blanks proper.leadBlank, lexemes]
    rfl
  | cons part later ih =>
    obtain ⟨token, gap⟩ := part
    have wellFormed := (proper.wellFormed _ List.mem_cons_self).1
    rw [text_eq, lexemes_blanks proper.leadBlank, wellFormed.lexemes_append proper.apart_text,
      ih gap proper.tail]
    rfl

/-- The tokens of a proper line are the tokens of its text. -/
theorem Proper.tokenizeLine_text {written : TokenLine} (proper : written.Proper line) :
    tokenizeLine line written.text = .ok written.tokens := by
  have classified : ∀ token ∈ written.tokens, classify line token.text.toList = .ok token := by
    intro token among
    obtain ⟨part, written, rfl⟩ := List.mem_map.mp among
    obtain ⟨wellFormed, place⟩ := proper.wellFormed part written
    exact (classify_eq_ok_iff wellFormed.ne_nil).mpr ⟨wellFormed, rfl, place⟩
  rw [tokenizeLine, proper.lexemes_text]
  generalize written.tokens = tokens at classified
  induction tokens with
  | nil => rfl
  | cons token tokens ih =>
    rw [List.forall_mem_cons] at classified
    rw [List.map_cons, List.mapM_cons, classified.1, ih classified.2]
    rfl

/-! ## Texts with tokens are those of proper lines -/

/-- A proper line gets a further token in front if that is kept apart from its text. -/
theorem Proper.cons {written : TokenLine} (proper : written.Proper line)
    (wellFormed : token.WellFormed) (place : token.line = line)
    (apart : token.StandsApart ∨ ∀ c ∈ written.text.head?, isWordChar c = false) :
    (written.cons token).Proper line where
  leadBlank := List.forall_mem_nil _
  gapsBlank := List.forall_mem_cons.mpr ⟨proper.leadBlank, proper.gapsBlank⟩
  wellFormed := List.forall_mem_cons.mpr ⟨⟨wellFormed, place⟩, proper.wellFormed⟩
  apart := by
    obtain ⟨lead, parts⟩ := written
    cases parts with
    | nil => exact .singleton _
    | cons next later =>
      refine List.isChain_cons_cons.mpr ⟨?_, proper.apart⟩
      intro (none : lead = [])
      subst none
      refine apart.imp_right fun noWord => ?_
      -- the text goes on with the next token, which begins with no character of a word
      have nextFormed := (proper.wellFormed next List.mem_cons_self).1
      obtain ⟨c, rest, text⟩ := List.exists_cons_of_ne_nil nextFormed.ne_nil
      have first : isWordChar c = false := by
        apply noWord
        rw [text_eq, List.nil_append, text, List.cons_append, List.head?_cons]
        rfl
      exact nextFormed.standsApart text first

/-- A text with tokens is blanks and the tokens. The induction follows the cutting into lexemes. -/
theorem exists_line_of_tokenizeLine {text : List Char} {tokens : List Token}
    (ok : tokenizeLine line text = .ok tokens) :
    ∃ written : TokenLine, written.Proper line ∧ written.text = text ∧
      written.tokens = tokens := by
  unfold tokenizeLine at ok
  induction text using lexemes.induct generalizing tokens with
  | case1 =>
    rw [lexemes, List.mapM_nil] at ok
    cases ok
    exact ⟨⟨[], []⟩, ⟨List.forall_mem_nil _, List.forall_mem_nil _, List.forall_mem_nil _, .nil⟩,
      rfl, rfl⟩
  | case2 c text blank ih =>
    rw [lexemes, if_pos blank] at ok
    obtain ⟨written, proper, rfl, rfl⟩ := ih ok
    refine ⟨⟨c :: written.lead, written.parts⟩, ?_, rfl, rfl⟩
    exact ⟨List.forall_mem_cons.mpr ⟨blank, proper.leadBlank⟩, proper.gapsBlank,
      proper.wellFormed, proper.apart⟩
  | case3 c text noBlank symbol ih =>
    rw [lexemes, if_neg noBlank, if_pos symbol] at ok
    obtain ⟨token, later, rfl, wellFormed, eq, place, ok⟩ := mapM_classify_cons (by simp) ok
    obtain ⟨written, proper, rfl, rfl⟩ := ih ok
    have apart := wellFormed.standsApart eq (by simp [isWordChar, symbol])
    refine ⟨written.cons token, proper.cons wellFormed place (.inl apart), ?_, rfl⟩
    rw [text_cons, eq, List.singleton_append]
  | case4 text noBlank noSymbol ih =>
    rw [lexemes, if_neg noBlank, if_neg noSymbol, if_pos rfl] at ok
    obtain ⟨token, later, rfl, wellFormed, eq, place, ok⟩ := mapM_classify_cons (by simp) ok
    obtain ⟨written, proper, behind, rfl⟩ := ih ok
    have apart := wellFormed.standsApart eq (by decide)
    refine ⟨written.cons token, proper.cons wellFormed place (.inl apart), ?_, rfl⟩
    rw [text_cons, eq, behind, List.cons_append, cutBehindQuote_append]
  | case5 c text noBlank noSymbol noQuote ih =>
    rw [lexemes, if_neg noBlank, if_neg noSymbol, if_neg noQuote] at ok
    obtain ⟨token, later, rfl, wellFormed, eq, place, ok⟩ := mapM_classify_cons (by simp) ok
    obtain ⟨written, proper, behind, rfl⟩ := ih ok
    -- the word goes on up to here
    have ends : ∀ d ∈ written.text.head?, isWordChar d = false := by
      intro d first
      rw [behind] at first
      have stop := List.head?_dropWhile_not isWordChar text
      rw [Option.mem_def.mp first] at stop
      simpa using stop
    refine ⟨written.cons token, proper.cons wellFormed place (.inr ends), ?_, rfl⟩
    rw [text_cons, eq, behind, List.cons_append, List.takeWhile_append_dropWhile]

/-! ## No text is that of two proper lines -/

/-- The text in front of the first token is the longest run of blanks. -/
theorem Proper.lead_eq {written : TokenLine} (proper : written.Proper line) :
    written.lead = written.text.takeWhile isBlank := by
  obtain ⟨lead, parts⟩ := written
  have ends : (parts.flatMap fun part => part.1.text.toList ++ part.2).takeWhile isBlank = [] := by
    cases parts with
    | nil => rfl
    | cons part later =>
      obtain ⟨c, rest, text, noBlank⟩ :=
        (proper.wellFormed part List.mem_cons_self).1.exists_first
      rw [List.flatMap_cons, text, List.cons_append, List.cons_append,
        List.takeWhile_cons_of_neg (by simp [noBlank])]
  rw [text, List.takeWhile_append_of_pos proper.leadBlank, ends, List.append_nil]

/-- The text of a proper line determines the line. -/
theorem Proper.eq_of_text_eq {one two : TokenLine} (properOne : one.Proper line)
    (properTwo : two.Proper line) (same : one.text = two.text) : one = two := by
  have tokens : one.tokens = two.tokens := by
    have first := properOne.tokenizeLine_text
    rw [same, properTwo.tokenizeLine_text] at first
    exact (Except.ok.inj first).symm
  obtain ⟨lead, parts⟩ := one
  obtain ⟨lead', parts'⟩ := two
  induction parts generalizing lead lead' parts' with
  | nil =>
    obtain rfl : parts' = [] := List.map_eq_nil_iff.mp tokens.symm
    have leads := properOne.lead_eq
    rw [same, ← properTwo.lead_eq] at leads
    exact congrArg (TokenLine.mk · []) leads
  | cons part later ih =>
    cases parts' with
    | nil => cases tokens
    | cons part' later' =>
      obtain ⟨token, gap⟩ := part
      obtain ⟨token', gap'⟩ := part'
      have leads := properOne.lead_eq
      rw [same, ← properTwo.lead_eq] at leads
      obtain ⟨rfl, more⟩ := List.cons.inj tokens
      obtain rfl : lead = lead' := leads
      rw [text_eq, text_eq] at same
      have behind := List.append_cancel_left (List.append_cancel_left same)
      have rest := ih gap properOne.tail gap' later' properTwo.tail behind more
      rw [TokenLine.mk.injEq] at rest
      rw [rest.1, rest.2]

end TokenLine

/-- The tokens of a text, if it has any, are what it says when it is read as well-formed tokens with
blanks between them, and a text can be read like that in one way at most. -/
theorem tokenizeLine_eq_ok_iff_exists_line (line : Nat) (text : List Char) :
    (∀ tokens, tokenizeLine line text = .ok tokens ↔
      ∃ written : TokenLine, written.Proper line ∧ written.text = text ∧
        written.tokens = tokens) ∧
    ∀ one two : TokenLine, one.Proper line ∧ one.text = text → two.Proper line ∧ two.text = text →
      one = two := by
  refine ⟨fun tokens => ⟨TokenLine.exists_line_of_tokenizeLine, ?_⟩, ?_⟩
  · rintro ⟨written, proper, rfl, rfl⟩
    exact proper.tokenizeLine_text
  · rintro one two ⟨properOne, rfl⟩ ⟨properTwo, same⟩
    exact properOne.eq_of_text_eq properTwo same.symm

end JackCompiler
