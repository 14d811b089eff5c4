import JackCompiler.Token.Lexer

/-!
# Lexical classes

Which texts are tokens, and of which class, said without any order of trying: `TokenKind.Admits`.
A lexeme gets a class exactly if the class admits it (`classOf_eq_ok_iff`), so no lexeme is in two
classes. Every token that a line or a text is cut into is admitted by its class.
-/

set_option autoImplicit false

namespace JackCompiler

/-- Whether a text belongs to a lexical class. -/
inductive TokenKind.Admits : TokenKind → List Char → Prop
  | keyword (text : String) (reserved : text ∈ keywords) : Admits .keyword text.toList
  | symbol (c : Char) (among : c ∈ symbols) : Admits .symbol [c]
  | integerConstant {digits : List Char} (nonempty : digits ≠ [])
      (areDigits : ∀ c ∈ digits, c.isDigit = true)
      (small : decimalValue digits ≤ maxIntegerConstant) : Admits .integerConstant digits
  | stringConstant {value : List Char} (plain : ∀ c ∈ value, c ≠ '"' ∧ c ≠ '\n') :
      Admits .stringConstant ('"' :: (value ++ ['"']))
  | identifier {c : Char} {rest : List Char} (starts : startsIdentifier c = true)
      (goesOn : ∀ c ∈ rest, startsIdentifier c = true ∨ c.isDigit = true)
      (unreserved : String.ofList (c :: rest) ∉ keywords) : Admits .identifier (c :: rest)

/-- Whether a token is well formed: its class admits its text. -/
def Token.WellFormed (token : Token) : Prop := token.kind.Admits token.text.toList

/-! ## Characters of the classes -/

theorem keyword_chars {text : String} (reserved : text ∈ keywords) :
    2 ≤ text.toList.length ∧ ∀ c ∈ text.toList, c.isAlpha = true := by
  have each : (keywords.all fun text =>
      decide (2 ≤ text.toList.length) && text.toList.all Char.isAlpha) = true := by decide
  simpa using List.all_eq_true.mp each text reserved

theorem isSymbol_iff {c : Char} : isSymbol c = true ↔ c ∈ symbols := List.contains_iff_mem

theorem symbol_chars {c : Char} (among : c ∈ symbols) :
    startsIdentifier c = false ∧ c.isDigit = false ∧ c ≠ '"' ∧ isBlank c = false := by
  have each : (symbols.all fun c =>
      !startsIdentifier c && !c.isDigit && c != '"' && !isBlank c) = true := by decide
  simpa [and_assoc] using List.all_eq_true.mp each c among

theorem isDigit_eq_false_of_startsIdentifier {c : Char} (starts : startsIdentifier c = true) :
    c.isDigit = false := by
  unfold startsIdentifier at starts
  rw [Bool.or_eq_true, decide_eq_true_eq] at starts
  rcases starts with alpha | rfl
  · have letter : (decide ('A'.val ≤ c.val ∧ c.val ≤ 'Z'.val) ||
        decide ('a'.val ≤ c.val) && decide (c.val ≤ 'z'.val)) = true := alpha
    simp only [Bool.or_eq_true, Bool.and_eq_true, decide_eq_true_eq,
      UInt32.le_iff_toNat_le] at letter
    simp only [Char.isDigit, Bool.and_eq_false_iff, decide_eq_false_iff_not,
      UInt32.le_iff_toNat_le]
    have nine : '9'.val.toNat = 57 := rfl
    have upper : 'A'.val.toNat = 65 := rfl
    have lower : 'a'.val.toNat = 97 := rfl
    right
    rcases letter with ⟨low, -⟩ | ⟨low, -⟩ <;> omega
  · decide

/-! ## The class of a lexeme -/

theorem isStringConstant_iff {lexeme : List Char} :
    isStringConstant lexeme = true ↔
      ∃ value : List Char, (∀ c ∈ value, c ≠ '"' ∧ c ≠ '\n') ∧
        lexeme = '"' :: (value ++ ['"']) := by
  constructor
  · intro h
    unfold isStringConstant at h
    split at h
    · rename_i rest
      rw [Bool.and_eq_true, decide_eq_true_eq, List.all_eq_true] at h
      obtain ⟨last, plain⟩ := h
      obtain ⟨value, rfl⟩ := List.getLast?_eq_some_iff.mp last
      rw [List.dropLast_concat] at plain
      exact ⟨value, by simpa using plain, rfl⟩
    · cases h
  · rintro ⟨value, plain, rfl⟩
    unfold isStringConstant
    simpa using plain

theorem isIdentifier_cons_iff {c : Char} {rest : List Char} :
    isIdentifier (c :: rest) = true ↔
      startsIdentifier c = true ∧ ∀ c ∈ rest, startsIdentifier c = true ∨ c.isDigit = true := by
  simp [isIdentifier]

/-- The class that is found for a lexeme admits it. -/
theorem admits_of_classOf {lexeme : List Char} {kind : TokenKind} (nonempty : lexeme ≠ [])
    (h : classOf lexeme = .ok kind) : kind.Admits lexeme := by
  obtain ⟨first, rest, rfl⟩ := List.exists_cons_of_ne_nil nonempty
  unfold classOf at h
  by_cases reserved : String.ofList (first :: rest) ∈ keywords
  · rw [if_pos (by simpa using reserved), Except.ok.injEq] at h
    subst h
    simpa using TokenKind.Admits.keyword _ reserved
  rw [if_neg (by simpa using reserved)] at h
  by_cases single : ∃ c ∈ symbols, first :: rest = [c]
  · rw [if_pos (by simpa using single), Except.ok.injEq] at h
    subst h
    obtain ⟨c, among, eq⟩ := single
    rw [eq]
    exact .symbol c among
  rw [if_neg (by simpa using single)] at h
  by_cases digits : ∀ c ∈ first :: rest, c.isDigit = true
  · rw [if_pos (List.all_eq_true.mpr digits)] at h
    by_cases small : decimalValue (first :: rest) ≤ maxIntegerConstant
    · rw [if_pos small, Except.ok.injEq] at h
      subst h
      exact .integerConstant nonempty digits small
    · rw [if_neg small] at h
      cases h
  rw [if_neg (by simpa using digits)] at h
  by_cases quoted : first = '"'
  · rw [if_pos (by simp [quoted])] at h
    by_cases closed : isStringConstant (first :: rest) = true
    · rw [if_pos closed, Except.ok.injEq] at h
      subst h
      obtain ⟨value, plain, eq⟩ := isStringConstant_iff.mp closed
      rw [eq]
      exact .stringConstant plain
    · rw [if_neg closed] at h
      cases h
  rw [if_neg (by simpa using quoted)] at h
  by_cases name : isIdentifier (first :: rest) = true
  · rw [if_pos name, Except.ok.injEq] at h
    subst h
    obtain ⟨starts, goesOn⟩ := isIdentifier_cons_iff.mp name
    exact .identifier starts goesOn reserved
  · rw [if_neg name] at h
    cases h

/-- A class that admits a lexeme is found for it, since none of the classes tried before fits. -/
theorem classOf_of_admits {lexeme : List Char} {kind : TokenKind} (admits : kind.Admits lexeme) :
    classOf lexeme = .ok kind := by
  unfold classOf
  cases admits with
  | keyword text reserved =>
    rw [if_pos]
    simpa using reserved
  | symbol c among =>
    have unreserved : String.ofList [c] ∉ keywords := by
      intro reserved
      have long := (keyword_chars reserved).1
      simp at long
    rw [if_neg (by simpa using unreserved), if_pos]
    simpa using among
  | integerConstant nonempty areDigits small =>
    obtain ⟨first, rest, rfl⟩ := List.exists_cons_of_ne_nil nonempty
    have digit : first.isDigit = true := areDigits first (by simp)
    have unreserved : String.ofList (first :: rest) ∉ keywords := by
      intro reserved
      have alpha := (keyword_chars reserved).2 first (by simp)
      have noDigit := isDigit_eq_false_of_startsIdentifier (c := first) (by
        simp [startsIdentifier, alpha])
      rw [noDigit] at digit
      cases digit
    have several : ¬ ∃ c ∈ symbols, first :: rest = [c] := by
      rintro ⟨c, among, eq⟩
      rw [(List.cons.inj eq).1, (symbol_chars among).2.1] at digit
      cases digit
    rw [if_neg (by simpa using unreserved), if_neg (by simpa using several),
      if_pos (List.all_eq_true.mpr areDigits), if_pos small]
  | @stringConstant value plain =>
    have unreserved : String.ofList ('"' :: (value ++ ['"'])) ∉ keywords := by
      intro reserved
      have alpha := (keyword_chars reserved).2 '"' (by simp)
      cases alpha
    have closed := isStringConstant_iff.mpr ⟨value, plain, rfl⟩
    rw [if_neg (by simpa using unreserved), if_neg (by simp), if_neg (by simp), if_pos (by simp),
      if_pos closed]
  | @identifier c rest starts goesOn unreserved =>
    have noDigit := isDigit_eq_false_of_startsIdentifier starts
    have noSymbol : ¬ ∃ s ∈ symbols, c :: rest = [s] := by
      rintro ⟨s, among, eq⟩
      rw [(List.cons.inj eq).1, (symbol_chars among).1] at starts
      cases starts
    have noQuote : c ≠ '"' := by
      rintro rfl
      cases starts
    have name := isIdentifier_cons_iff.mpr ⟨starts, goesOn⟩
    rw [if_neg (by simpa using unreserved), if_neg (by simpa using noSymbol),
      if_neg (by simp [noDigit]), if_neg (by simpa using noQuote), if_pos name]

theorem classOf_eq_ok_iff {lexeme : List Char} {kind : TokenKind} (nonempty : lexeme ≠ []) :
    classOf lexeme = .ok kind ↔ kind.Admits lexeme :=
  ⟨admits_of_classOf nonempty, classOf_of_admits⟩

/-- A lexeme stands for a token exactly if the token is well formed with the lexeme as its text. -/
theorem classify_eq_ok_iff {line : Nat} {lexeme : List Char} {token : Token}
    (nonempty : lexeme ≠ []) :
    classify line lexeme = .ok token ↔
      token.WellFormed ∧ token.text.toList = lexeme ∧ token.line = line := by
  obtain ⟨kind, text, place⟩ := token
  unfold classify Token.WellFormed
  constructor
  · intro h
    cases found : classOf lexeme with
    | error flaw =>
      rw [found] at h
      cases h
    | ok kind' =>
      rw [found, Except.ok.injEq, Token.mk.injEq] at h
      obtain ⟨rfl, rfl, rfl⟩ := h
      rw [String.toList_ofList]
      exact ⟨(classOf_eq_ok_iff nonempty).mp found, rfl, rfl⟩
  · rintro ⟨admits, rfl, rfl⟩
    rw [(classOf_eq_ok_iff nonempty).mpr admits, String.ofList_toList]

/-- A lexeme that stands for no token is reported with its line. -/
theorem classify_eq_error {line : Nat} {lexeme : List Char} {error : CompileError}
    (nonempty : lexeme ≠ []) (h : classify line lexeme = .error error) :
    (∃ flaw, error = .invalidToken line (String.ofList lexeme) flaw) ∧
      ∀ kind : TokenKind, ¬ kind.Admits lexeme := by
  unfold classify at h
  cases found : classOf lexeme with
  | ok kind =>
    rw [found] at h
    cases h
  | error flaw =>
    rw [found, Except.error.injEq] at h
    refine ⟨⟨flaw, h.symm⟩, ?_⟩
    intro kind admits
    rw [(classOf_eq_ok_iff nonempty).mpr admits] at found
    cases found

/-! ## What well-formed tokens are made of -/

/-- No well-formed identifier is a reserved word. -/
theorem Token.WellFormed.unreserved {token : Token} (wellFormed : token.WellFormed)
    (isName : token.kind = .identifier) : token.text ∉ keywords := by
  unfold Token.WellFormed at wellFormed
  rw [isName] at wellFormed
  generalize eq : token.text.toList = lexeme at wellFormed
  cases wellFormed with
  | identifier _ _ unreserved => rwa [← eq, String.ofList_toList] at unreserved

/-- A well-formed integer constant denotes a machine word. -/
theorem Token.WellFormed.wordValue {token : Token} (wellFormed : token.WellFormed)
    (isInteger : token.kind = .integerConstant) :
    wordValue? token.text.toList = some (decimalValue token.text.toList) := by
  unfold Token.WellFormed at wellFormed
  rw [isInteger] at wellFormed
  generalize token.text.toList = lexeme at wellFormed
  cases wellFormed with
  | integerConstant nonempty areDigits small =>
    obtain ⟨first, rest, rfl⟩ := List.exists_cons_of_ne_nil nonempty
    have noSign : first ≠ '+' := by
      rintro rfl
      have digit := areDigits '+' (by simp)
      cases digit
    have fits : decimalValue (first :: rest) ≤ 65535 := Nat.le_trans small (by decide)
    unfold wordValue?
    extract_lets number
    have unsigned : number = first :: rest := by
      unfold number
      split
      · rename_i eq
        exact absurd (List.cons.inj eq).1 noSign
      · rfl
    rw [if_pos, unsigned]
    rw [unsigned]
    exact ⟨nonempty, List.all_eq_true.mpr areDigits, fits⟩

end JackCompiler
