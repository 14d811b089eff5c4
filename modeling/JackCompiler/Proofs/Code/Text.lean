import JackCompiler.Machine
import JackCompiler.Text.Decimal

/-!
# Reading the text of code back

`codeOfText?` reads the text form of code. The first word of a line tells the form of the
instruction. Where a number follows a name, the number stands behind the last blank, so the name
itself may have blanks and may look like any other line; only a newline in it would be taken for
the end of the line. Code without such names is read back from its text as it was
(`codeOfText?_render`), so different code has different texts (`render_inj`).
-/

set_option autoImplicit false

namespace JackCompiler

/-- The name in an instruction, if it has one. -/
def Instruction.name? : Instruction → Option String
  | label name | goto name | ifGoto name | function name _ | call name _ => some name
  | push _ _ | pop _ _ | operate _ | ret => none

/-- Whether code has no name with a newline. -/
def NamesOnOneLine (code : List Instruction) : Prop :=
  ∀ instruction ∈ code, ∀ name ∈ instruction.name?, '\n' ∉ name.toList

/-! ## Words -/

/-- The segment with a given name, if there is one. -/
def Segment.ofName? (name : String) : Option Segment :=
  all.find? fun segment => segment.name = name

/-- The operation with a given name, if there is one. -/
def Operation.ofName? (name : String) : Option Operation :=
  all.find? fun operation => operation.name = name

theorem Segment.ofName?_name (segment : Segment) : ofName? segment.name = some segment := by
  cases segment <;> decide

theorem Operation.ofName?_name (operation : Operation) :
    ofName? operation.name = some operation := by
  cases operation <;> decide

/-- Cuts a text at its first blank, which is left out. -/
def cutAtBlank : List Char → List Char × List Char
  | [] => ([], [])
  | c :: rest =>
    if c = ' ' then ([], rest) else ((c :: (cutAtBlank rest).1), (cutAtBlank rest).2)

theorem cutAtBlank_append {word : List Char} (plain : ' ' ∉ word) (rest : List Char) :
    cutAtBlank (word ++ ' ' :: rest) = (word, rest) := by
  induction word with
  | nil => rfl
  | cons c word ih =>
    rw [List.mem_cons, not_or] at plain
    rw [List.cons_append, cutAtBlank, if_neg (Ne.symm plain.1), ih plain.2]

theorem cutAtBlank_of_notMem {word : List Char} (plain : ' ' ∉ word) :
    cutAtBlank word = (word, []) := by
  induction word with
  | nil => rfl
  | cons c word ih =>
    rw [List.mem_cons, not_or] at plain
    rw [cutAtBlank, if_neg (Ne.symm plain.1), ih plain.2]

/-- A text that ends in a number behind a blank, as what stands before the last blank and the
number. -/
def numbered? (text : List Char) : Option (String × Nat) :=
  let (digits, before) := cutAtBlank text.reverse
  if digits ≠ [] ∧ digits.all Char.isDigit then
    some (String.ofList before.reverse, decimalValue digits.reverse)
  else none

theorem isDigit_of_mem_toString {number : Nat} {c : Char} (among : c ∈ (toString number).toList) :
    c.isDigit = true := by
  rw [Nat.toString_eq_ofList_toDigits, String.toList_ofList] at among
  exact Nat.isDigit_of_mem_toDigits (by decide) (by decide) among

theorem decimalValue_toString (number : Nat) : decimalValue (toString number).toList = number := by
  rw [Nat.toString_eq_ofList_toDigits, String.toList_ofList]
  exact Nat.ofDigitChars_toDigits (by decide) (by decide)

theorem numbered?_append (name : String) (number : Nat) :
    numbered? (name.toList ++ ' ' :: (toString number).toList) = some (name, number) := by
  have plain : ' ' ∉ (toString number).toList.reverse := by
    intro among
    cases isDigit_of_mem_toString (List.mem_reverse.mp among)
  have nonempty : (toString number).toList.reverse ≠ [] := by
    rw [Nat.toString_eq_ofList_toDigits, String.toList_ofList]
    exact List.reverse_ne_nil_iff.mpr Nat.toDigits_ne_nil
  have digits : (toString number).toList.reverse.all Char.isDigit = true := by
    rw [List.all_eq_true]
    exact fun c among => isDigit_of_mem_toString (List.mem_reverse.mp among)
  have reversed : (name.toList ++ ' ' :: (toString number).toList).reverse =
      (toString number).toList.reverse ++ ' ' :: name.toList.reverse := by
    simp
  rw [numbered?, reversed, cutAtBlank_append plain]
  simp only [nonempty, digits, ne_eq, not_false_eq_true, and_self, if_true, List.reverse_reverse,
    decimalValue_toString, String.ofList_toList]

/-! ## Instructions -/

/-- A segment and a number, separated by a blank. -/
def slot? (text : List Char) : Option (Segment × Nat) := do
  let (name, index) ← numbered? text
  let segment ← Segment.ofName? name
  pure (segment, index)

theorem slot?_append (segment : Segment) (index : Nat) :
    slot? (segment.name.toList ++ ' ' :: (toString index).toList) = some (segment, index) := by
  rw [slot?, numbered?_append]
  show (Segment.ofName? segment.name >>= _) = _
  rw [Segment.ofName?_name]
  rfl

namespace Instruction

/-- The instruction with a given first word and the given text behind it, if there is one. -/
def ofWords? (word : String) (rest : List Char) : Option Instruction :=
  match word with
  | "push" => (slot? rest).map fun slot => push slot.1 slot.2
  | "pop" => (slot? rest).map fun slot => pop slot.1 slot.2
  | "label" => some (label (String.ofList rest))
  | "goto" => some (goto (String.ofList rest))
  | "if-goto" => some (ifGoto (String.ofList rest))
  | "function" => (numbered? rest).map fun header => function header.1 header.2
  | "call" => (numbered? rest).map fun callee => call callee.1 callee.2
  | "return" => some ret
  | _ => (Operation.ofName? word).map operate

/-- The instruction that a text is the form of, if there is one. -/
def ofText? (text : List Char) : Option Instruction :=
  let (word, rest) := cutAtBlank text
  ofWords? (String.ofList word) rest

theorem ofText?_append (word : String) (plain : ' ' ∉ word.toList) (rest : List Char) :
    ofText? (word.toList ++ ' ' :: rest) = ofWords? word rest := by
  rw [ofText?, cutAtBlank_append plain]
  exact congrArg (ofWords? · rest) String.ofList_toList

theorem ofText?_word (word : String) (plain : ' ' ∉ word.toList) :
    ofText? word.toList = ofWords? word [] := by
  rw [ofText?, cutAtBlank_of_notMem plain]
  exact congrArg (ofWords? · []) String.ofList_toList

theorem ofWords?_operation (operation : Operation) :
    ofWords? operation.name [] = some (operate operation) := by
  cases operation <;> decide

/-- Every instruction is read back from its text. -/
theorem ofText?_text (instruction : Instruction) :
    ofText? instruction.text.toList = some instruction := by
  cases instruction with
  | push segment index =>
    have text : (push segment index).text.toList = "push".toList ++ ' ' ::
        (segment.name.toList ++ ' ' :: (toString index).toList) := by
      simp [Instruction.text, toString, String.toList_append]
    rw [text, ofText?_append "push" (by decide), ofWords?, slot?_append]
    rfl
  | pop segment index =>
    have text : (pop segment index).text.toList = "pop".toList ++ ' ' ::
        (segment.name.toList ++ ' ' :: (toString index).toList) := by
      simp [Instruction.text, toString, String.toList_append]
    rw [text, ofText?_append "pop" (by decide), ofWords?, slot?_append]
    rfl
  | operate operation =>
    have plain : ' ' ∉ operation.name.toList := by cases operation <;> decide
    show ofText? operation.name.toList = _
    rw [ofText?_word _ plain, ofWords?_operation]
  | label name =>
    have text : (label name).text.toList = "label".toList ++ ' ' :: name.toList := by
      simp [Instruction.text, toString, String.toList_append]
    rw [text, ofText?_append "label" (by decide), ofWords?, String.ofList_toList]
  | goto target =>
    have text : (goto target).text.toList = "goto".toList ++ ' ' :: target.toList := by
      simp [Instruction.text, toString, String.toList_append]
    rw [text, ofText?_append "goto" (by decide), ofWords?, String.ofList_toList]
  | ifGoto target =>
    have text : (ifGoto target).text.toList = "if-goto".toList ++ ' ' :: target.toList := by
      simp [Instruction.text, toString, String.toList_append]
    rw [text, ofText?_append "if-goto" (by decide), ofWords?, String.ofList_toList]
  | function name locals =>
    have text : (function name locals).text.toList = "function".toList ++ ' ' ::
        (name.toList ++ ' ' :: (toString locals).toList) := by
      simp [Instruction.text, toString, String.toList_append]
    rw [text, ofText?_append "function" (by decide), ofWords?, numbered?_append]
    rfl
  | call name arguments =>
    have text : (call name arguments).text.toList = "call".toList ++ ' ' ::
        (name.toList ++ ' ' :: (toString arguments).toList) := by
      simp [Instruction.text, toString, String.toList_append]
    rw [text, ofText?_append "call" (by decide), ofWords?, numbered?_append]
    rfl
  | ret =>
    show ofText? "return".toList = _
    rw [ofText?_word "return" (by decide)]
    rfl

/-- The text of an instruction is on one line if its name is. -/
theorem newline_notMem_text {instruction : Instruction}
    (oneLine : ∀ name ∈ instruction.name?, '\n' ∉ name.toList) :
    '\n' ∉ instruction.text.toList := by
  have number (n : Nat) : '\n' ∉ Nat.toDigits 10 n := by
    intro among
    cases Nat.isDigit_of_mem_toDigits (by decide) (by decide) among
  have segment (segment : Segment) : '\n' ∉ segment.name.toList := by
    cases segment <;> decide
  cases instruction with
  | push region index | pop region index =>
    simpa [Instruction.text, toString, String.toList_append, segment] using number index
  | operate operation => cases operation <;> decide
  | label name | goto name | ifGoto name =>
    simpa [Instruction.text, toString, String.toList_append] using oneLine name rfl
  | function name argument | call name argument =>
    simpa [Instruction.text, toString, String.toList_append] using
      ⟨oneLine name rfl, number argument⟩
  | ret => decide

end Instruction

/-! ## Code -/

/-- The code that a text is the form of, if there is one: an instruction on each line, and nothing
behind the last newline. -/
def codeOfText? (text : String) : Option (List Instruction) :=
  (text.toList.splitOn '\n').dropLast.mapM Instruction.ofText?

/-- A text of code has one line for each instruction. -/
theorem splitOn_render {code : List Instruction} (oneLine : NamesOnOneLine code) :
    (render code).toList.splitOn '\n' =
      code.map (fun instruction => instruction.text.toList) ++ [[]] := by
  induction code with
  | nil => rfl
  | cons instruction later ih =>
    unfold NamesOnOneLine at oneLine
    rw [List.forall_mem_cons] at oneLine
    have text : (render (instruction :: later)).toList =
        instruction.text.toList ++ '\n' :: (render later).toList := by
      simp [render, String.join_cons, String.toList_append]
    rw [text, List.splitOn_append_cons_self_of_not_mem
      (Instruction.newline_notMem_text oneLine.1), ih oneLine.2]
    rfl

/-- Code is read back from its text. -/
theorem codeOfText?_render {code : List Instruction} (oneLine : NamesOnOneLine code) :
    codeOfText? (render code) = some code := by
  rw [codeOfText?, splitOn_render oneLine, List.dropLast_concat, List.mapM_map]
  clear oneLine
  induction code with
  | nil => rfl
  | cons instruction later ih =>
    rw [List.mapM_cons, ih]
    show (Instruction.ofText? instruction.text.toList >>= _) = _
    rw [Instruction.ofText?_text]
    rfl

/-- Different code has different texts. -/
theorem render_inj {first second : List Instruction} (one : NamesOnOneLine first)
    (two : NamesOnOneLine second) : render first = render second ↔ first = second := by
  refine ⟨fun same => ?_, congrArg render⟩
  have read := codeOfText?_render one
  rw [same, codeOfText?_render two, Option.some.injEq] at read
  exact read.symm

/-- The names may be empty or look like another instruction, and a name in front of a number may
itself end in a number. -/
example : codeOfText? "label \nlabel call f 1\ncall a 3 3\nreturn\n" =
    some [.label "", .label "call f 1", .call "a 3" 3, .ret] := by
  decide +kernel

end JackCompiler
