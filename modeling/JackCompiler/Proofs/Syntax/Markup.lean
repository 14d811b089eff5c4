import JackCompiler.Proofs.Program.Line
import JackCompiler.Proofs.Program.Mention

/-!
# Reading markup back

`Tree.ofMarkup?` reads the tree that a text of markup stands for. It cuts the text at its tags into
marks (`cutMarks`) and puts the tree together from these, with a stack of the nodes that are still
open (`build`). Escapes are undone (`unescape`), and string constants get their quotes back.

The sign that opens a tag is never written for a character of a token. So the marks in the markup of
a tree are those of the tree, whatever its tokens look like (`cutMarks_markupAt`).

So a tree whose string constants stand in quotes is read back from its markup, but for the lines of
its tokens (`ofMarkup?_markup`).
-/

set_option autoImplicit false

namespace JackCompiler

/-! ## The reader -/

/-- The lexical class with a given tag, if there is one. -/
def TokenKind.ofTag? (tag : String) : Option TokenKind :=
  TokenKind.all.find? fun kind => kind.tag = tag

/-- The text of a token of a lexical class, given the characters that it stands for. -/
def TokenKind.spelling (kind : TokenKind) (value : String) : String :=
  if kind = .stringConstant then "\"" ++ value ++ "\"" else value

/-- A text without escapes, given how it stands in markup. -/
def unescape : List Char → List Char
  | '&' :: 'l' :: 't' :: ';' :: rest => '<' :: unescape rest
  | '&' :: 'g' :: 't' :: ';' :: rest => '>' :: unescape rest
  | '&' :: 'a' :: 'm' :: 'p' :: ';' :: rest => '&' :: unescape rest
  | '&' :: 'q' :: 'u' :: 'o' :: 't' :: ';' :: rest => '"' :: unescape rest
  | c :: rest => c :: unescape rest
  | [] => []

/-- What the tags of markup mark. -/
inductive Mark where
  /-- A node begins. -/
  | opening
  | leaf (token : Token)
  /-- A node of a rule ends. -/
  | closing (rule : Rule)
  deriving DecidableEq, Repr

/-- What a tag marks, given what stands between its angles and the text behind it. A closing tag
that is not of a rule belongs to a leaf, which is marked by its opening tag. -/
def Mark.ofTag? (name behind : List Char) : Option Mark :=
  match name with
  | '/' :: name => (Rule.ofName? (String.ofList name)).map closing
  | _ =>
    match TokenKind.ofTag? (String.ofList name) with
    | some kind =>
      let value := String.ofList (unescape (behind.drop 1).dropLast)
      some (leaf ⟨kind, kind.spelling value, 0⟩)
    | none => (Rule.ofName? (String.ofList name)).map fun _ => opening

/-- The marks in a text. -/
def cutMarks : List Char → List Mark
  | [] => []
  | '<' :: text =>
    let name := text.takeWhile (· ≠ '>')
    let behind := ((text.dropWhile (· ≠ '>')).drop 1).takeWhile (· ≠ '<')
    (Mark.ofTag? name behind).toList ++ cutMarks text
  | _ :: text => cutMarks text

/-- Goes on from one mark. The stack holds the trees read so far in each open node, the innermost
node first and in it the latest tree first. -/
def Mark.apply : List (List Tree) → Mark → Option (List (List Tree))
  | stack, opening => some ([] :: stack)
  | before :: outer, leaf token => some ((.leaf token :: before) :: outer)
  | inner :: before :: outer, closing rule => some ((.node rule inner.reverse :: before) :: outer)
  | _, _ => none

/-- The stack behind some marks. -/
def build (stack : List (List Tree)) (list : List Mark) : Option (List (List Tree)) :=
  list.foldlM Mark.apply stack

/-- The tree that markup stands for. Markup does not tell lines. -/
def Tree.ofMarkup? (text : String) : Option Tree :=
  match build [[]] (cutMarks text.toList) with
  | some [[tree]] => some tree
  | _ => none

/-! ## Escapes -/

theorem unescape_cons {c : Char} (plain : c ≠ '&') (rest : List Char) :
    unescape (c :: rest) = c :: unescape rest := by
  rw [unescape.eq_def]
  split <;> simp_all

theorem unescape_escapeChar (c : Char) (rest : List Char) :
    unescape ((escapeChar c).toList ++ rest) = c :: unescape rest := by
  unfold escapeChar
  split
  · rfl
  · rfl
  · rfl
  · rfl
  · rename_i noAmpersand _
    rw [Char.toString_eq_singleton, String.toList_singleton, List.singleton_append,
      unescape_cons noAmpersand]

theorem toList_escapeText (text : String) :
    (escapeText text).toList = text.toList.flatMap fun c => (escapeChar c).toList := by
  rw [escapeText, String.toList_join, List.flatMap_map]

/-- Escapes are undone. -/
theorem unescape_escapeText (text : String) :
    unescape (escapeText text).toList = text.toList := by
  rw [toList_escapeText]
  induction text.toList with
  | nil => rfl
  | cons c rest ih => rw [List.flatMap_cons, unescape_escapeChar, ih]

/-- No angle is written for a character of a text. -/
theorem angle_notMem_escapeText (text : String) : '<' ∉ (escapeText text).toList := by
  rw [toList_escapeText, List.mem_flatMap]
  rintro ⟨c, -, among⟩
  unfold escapeChar at among
  split at among
  · simp at among
  · simp at among
  · simp at among
  · simp at among
  · rename_i noAngle _ _ _
    rw [Char.toString_eq_singleton, String.toList_singleton, List.mem_singleton] at among
    exact noAngle among.symm

/-! ## Tags -/

theorem Rule.ofName?_name (rule : Rule) : Rule.ofName? rule.name = some rule := by
  cases rule <;> decide

theorem TokenKind.ofTag?_tag (kind : TokenKind) : TokenKind.ofTag? kind.tag = some kind := by
  cases kind <;> decide

/-- No tag is one of a node and of a leaf. -/
theorem TokenKind.ofTag?_name (rule : Rule) : TokenKind.ofTag? rule.name = none := by
  cases rule <;> decide

theorem Rule.ofName?_tag (kind : TokenKind) : Rule.ofName? kind.tag = none := by
  cases kind <;> decide

/-- Whether a text can stand between the angles of an opening tag. -/
def IsTag (name : List Char) : Prop := '<' ∉ name ∧ '>' ∉ name ∧ name.head? ≠ some '/'

theorem Rule.isTag_name (rule : Rule) : IsTag rule.name.toList := by
  unfold IsTag
  cases rule <;> decide

theorem TokenKind.isTag_tag (kind : TokenKind) : IsTag kind.tag.toList := by
  unfold IsTag
  cases kind <;> decide

namespace Mark

theorem ofTag?_closing (rule : Rule) (behind : List Char) :
    ofTag? ('/' :: rule.name.toList) behind = some (closing rule) := by
  rw [ofTag?, String.ofList_toList, Rule.ofName?_name, Option.map_some]

theorem ofTag?_closing_leaf (kind : TokenKind) (behind : List Char) :
    ofTag? ('/' :: kind.tag.toList) behind = none := by
  rw [ofTag?, String.ofList_toList, Rule.ofName?_tag, Option.map_none]

theorem ofTag?_opening (rule : Rule) (behind : List Char) :
    ofTag? rule.name.toList behind = some opening := by
  rw [ofTag?.eq_def]
  split
  · rename_i name eq
    exact absurd (congrArg List.head? eq) rule.isTag_name.2.2
  · rw [String.ofList_toList, TokenKind.ofTag?_name, Rule.ofName?_name]
    rfl

theorem ofTag?_leaf (kind : TokenKind) (value : String) :
    ofTag? kind.tag.toList (' ' :: (escapeText value).toList ++ [' ']) =
      some (leaf ⟨kind, kind.spelling value, 0⟩) := by
  rw [ofTag?.eq_def]
  split
  · rename_i name eq
    exact absurd (congrArg List.head? eq) kind.isTag_tag.2.2
  · rw [String.ofList_toList, TokenKind.ofTag?_tag]
    simp [unescape_escapeText]

end Mark

/-! ## Cutting a text at its tags -/

/-- There are no marks in front of the first angle. -/
theorem cutMarks_append {front : List Char} (plain : '<' ∉ front) (text : List Char) :
    cutMarks (front ++ text) = cutMarks text := by
  induction front with
  | nil => rfl
  | cons c rest ih =>
    rw [List.mem_cons, not_or] at plain
    rw [List.cons_append, cutMarks.eq_def, ← ih plain.2]
    split
    · rename_i eq
      cases eq
    · rename_i eq
      cases eq
      exact absurd rfl plain.1
    · rename_i eq
      cases eq
      rfl

/-- A tag is read as far as its angle, with the text behind it as far as the next one. -/
theorem cutMarks_tag {name : List Char} (noOpening : '<' ∉ name) (noClosing : '>' ∉ name)
    (text : List Char) :
    cutMarks ('<' :: (name ++ '>' :: text)) =
      (Mark.ofTag? name (text.takeWhile (· ≠ '<'))).toList ++ cutMarks text := by
  have passes : ∀ c ∈ name, decide (c ≠ '>') = true := fun c among =>
    decide_eq_true fun same => noClosing (same ▸ among)
  have plain : '<' ∉ name ++ ['>'] := by simp [noOpening]
  rw [cutMarks, List.takeWhile_append_of_pos passes, List.dropWhile_append_of_pos passes]
  rw [List.append_cons, cutMarks_append plain]
  simp

theorem cutMarks_closing (rule : Rule) (text : List Char) :
    cutMarks ('<' :: '/' :: (rule.name.toList ++ '>' :: text)) =
      .closing rule :: cutMarks text := by
  obtain ⟨noOpening, noClosing, -⟩ := rule.isTag_name
  rw [← List.cons_append, cutMarks_tag (by simp [noOpening]) (by simp [noClosing]),
    Mark.ofTag?_closing]
  rfl

theorem cutMarks_opening (rule : Rule) (text : List Char) :
    cutMarks ('<' :: (rule.name.toList ++ '>' :: text)) = .opening :: cutMarks text := by
  obtain ⟨noOpening, noClosing, -⟩ := rule.isTag_name
  rw [cutMarks_tag noOpening noClosing, Mark.ofTag?_opening]
  rfl

/-- The tags of a leaf and the text between them are one mark. -/
theorem cutMarks_leaf (kind : TokenKind) (value : String) (text : List Char) :
    cutMarks ('<' :: (kind.tag.toList ++ '>' :: (' ' :: (escapeText value).toList ++ [' '] ++
      '<' :: '/' :: (kind.tag.toList ++ '>' :: text)))) =
      .leaf ⟨kind, kind.spelling value, 0⟩ :: cutMarks text := by
  obtain ⟨noOpening, noClosing, -⟩ := kind.isTag_tag
  have inside : '<' ∉ ' ' :: (escapeText value).toList ++ [' '] := by
    simp [angle_notMem_escapeText]
  have between (behind : List Char) :
      (' ' :: (escapeText value).toList ++ [' '] ++ '<' :: behind).takeWhile (· ≠ '<') =
        ' ' :: (escapeText value).toList ++ [' '] := by
    have passes : ∀ c ∈ ' ' :: (escapeText value).toList ++ [' '], decide (c ≠ '<') = true :=
      fun c among => decide_eq_true fun same => inside (same ▸ among)
    rw [List.takeWhile_append_of_pos passes]
    simp
  rw [cutMarks_tag noOpening noClosing, between, Mark.ofTag?_leaf, cutMarks_append inside,
    ← List.cons_append, cutMarks_tag (by simp [noOpening]) (by simp [noClosing]),
    Mark.ofTag?_closing_leaf]
  rfl

/-! ## The marks of a tree -/

/-- Whether a token that is a string constant stands in quotes. -/
def Token.Quoted (token : Token) : Prop :=
  token.kind = .stringConstant → ∃ value, token.text = "\"" ++ value ++ "\""

/-- The text of a token is spelled out again from the characters that it stands for. -/
theorem Token.Quoted.spelling_eq {token : Token} (quoted : token.Quoted) :
    token.kind.spelling token.stringValue = token.text := by
  obtain ⟨kind, text, line⟩ := token
  cases kind with
  | stringConstant =>
    obtain ⟨value, same⟩ := quoted rfl
    have same : text = "\"" ++ value ++ "\"" := same
    have inner : Token.stringValue ⟨.stringConstant, text, line⟩ = value := by
      simp [Token.stringValue, same, String.toList_append]
    rw [inner, TokenKind.spelling, if_pos rfl, same]
  | _ => rfl

namespace Tree

/-- Whether all string constants of a tree stand in quotes. -/
def Quoted (tree : Tree) : Prop := ∀ token ∈ tree.tokens, token.Quoted

theorem Quoted.part {rule : Rule} {children : List Tree} (quoted : (node rule children).Quoted)
    {part : Tree} (among : part ∈ children) : part.Quoted := fun token inside =>
  quoted token (mem_tokens_node.mpr ⟨part, among, inside⟩)

mutual

/-- The marks of a tree, from left to right. -/
def marks : Tree → List Mark
  | leaf token => [.leaf token.withoutLine]
  | node rule children => .opening :: marksOfList children ++ [.closing rule]

/-- The marks of consecutive trees. -/
def marksOfList : List Tree → List Mark
  | [] => []
  | tree :: later => tree.marks ++ marksOfList later

end

theorem toList_markupAt_leaf (depth : Nat) (token : Token) :
    (markupAt depth (leaf token)).toList = (indentation depth).toList ++
      '<' :: (token.kind.tag.toList ++ '>' :: (' ' :: (escapeText token.stringValue).toList ++
        [' '] ++ '<' :: '/' :: (token.kind.tag.toList ++ '>' :: ['\n']))) := by
  simp [markupAt, toString, String.toList_append]

theorem toList_markupAt_node (depth : Nat) (rule : Rule) (children : List Tree) :
    (markupAt depth (node rule children)).toList = (indentation depth).toList ++
      '<' :: (rule.name.toList ++ '>' :: '\n' :: ((markupOfList (depth + 1) children).toList ++
        ((indentation depth).toList ++ '<' :: '/' :: (rule.name.toList ++ '>' :: ['\n'])))) := by
  simp [markupAt, toString, String.toList_append]

theorem angle_notMem_indentation (depth : Nat) : '<' ∉ (indentation depth).toList := by
  simp [indentation]

theorem cutMarks_markupOfList {trees : List Tree} {depth : Nat}
    (each : ∀ tree ∈ trees, ∀ rest,
      cutMarks ((markupAt depth tree).toList ++ rest) = tree.marks ++ cutMarks rest)
    (rest : List Char) :
    cutMarks ((markupOfList depth trees).toList ++ rest) =
      marksOfList trees ++ cutMarks rest := by
  induction trees with
  | nil => rfl
  | cons tree later ih =>
    rw [List.forall_mem_cons] at each
    rw [markupOfList, String.toList_append, List.append_assoc, each.1, marksOfList,
      List.append_assoc, ih each.2]

/-- The marks in the markup of a tree are those of the tree, whatever stands behind it. -/
theorem cutMarks_markupAt {tree : Tree} (quoted : tree.Quoted) (depth : Nat) (rest : List Char) :
    cutMarks ((markupAt depth tree).toList ++ rest) = tree.marks ++ cutMarks rest := by
  have lineEnd (text : List Char) : cutMarks ('\n' :: text) = cutMarks text := rfl
  induction tree generalizing depth rest with
  | leaf token =>
    have own : token.Quoted := quoted token (List.mem_singleton_self token)
    rw [toList_markupAt_leaf]
    simp only [List.append_assoc, List.cons_append]
    rw [cutMarks_append (angle_notMem_indentation depth)]
    have cut := cutMarks_leaf token.kind token.stringValue ('\n' :: rest)
    simp only [List.append_assoc, List.cons_append, List.nil_append] at cut ⊢
    rw [cut, lineEnd, own.spelling_eq]
    rfl
  | node rule children ih =>
    have inside := @cutMarks_markupOfList children (depth + 1) fun part among rest =>
      ih part among (quoted.part among) (depth + 1) rest
    rw [toList_markupAt_node]
    simp only [List.append_assoc, List.cons_append]
    rw [cutMarks_append (angle_notMem_indentation depth), cutMarks_opening, lineEnd, inside,
      cutMarks_append (angle_notMem_indentation depth), cutMarks_closing, List.nil_append, lineEnd]
    simp [marks]

/-! ## Putting a tree together -/

theorem build_marksOfList {trees : List Tree} {outer : List (List Tree)}
    (each : ∀ tree ∈ trees, ∀ before later, build (before :: outer) (tree.marks ++ later) =
      build ((tree.withoutLines :: before) :: outer) later)
    (before : List Tree) (later : List Mark) :
    build (before :: outer) (marksOfList trees ++ later) =
      build (((trees.map withoutLines).reverse ++ before) :: outer) later := by
  induction trees generalizing before with
  | nil => rfl
  | cons tree rest ih =>
    rw [List.forall_mem_cons] at each
    rw [marksOfList, List.append_assoc, each.1, ih each.2]
    simp

/-- The marks of a tree put it on top of the trees in front of it. -/
theorem build_marks (tree : Tree) (before : List Tree) (outer : List (List Tree))
    (later : List Mark) :
    build (before :: outer) (tree.marks ++ later) =
      build ((tree.withoutLines :: before) :: outer) later := by
  induction tree generalizing before outer later with
  | leaf token => rfl
  | node rule children ih =>
    have opened : build (before :: outer) ((node rule children).marks ++ later) =
        build ([] :: before :: outer) (marksOfList children ++ (.closing rule :: later)) := by
      rw [marks]
      simp only [List.cons_append, List.append_assoc, List.nil_append]
      rfl
    have closed : build ((children.map withoutLines).reverse :: before :: outer)
        (.closing rule :: later) =
          build ((node rule (children.map withoutLines) :: before) :: outer) later := by
      show build ((node rule _ :: before) :: outer) later = _
      rw [List.reverse_reverse]
    rw [opened, build_marksOfList (fun part among before later => ih part among before _ later),
      List.append_nil, closed, withoutLines_node]

/-- A tree whose string constants stand in quotes is read back from its markup, but for the lines of
its tokens. So markup tells such trees apart, but for their lines. -/
theorem ofMarkup?_markup (tree : Tree) (quoted : tree.Quoted) :
    ofMarkup? tree.markup = some tree.withoutLines ∧
      ∀ other : Tree, other.Quoted →
        (tree.markup = other.markup ↔ tree.withoutLines = other.withoutLines) := by
  have reads {tree : Tree} (quoted : tree.Quoted) :
      ofMarkup? tree.markup = some tree.withoutLines := by
    have cut := cutMarks_markupAt quoted 0 []
    rw [List.append_nil] at cut
    rw [ofMarkup?, markup, cut, build_marks]
    rfl
  refine ⟨reads quoted, fun other quoted' => ⟨fun same => ?_, fun same => ?_⟩⟩
  · rw [← Option.some.injEq, ← reads quoted, ← reads quoted', same]
  · rw [← markup_withoutLines tree, same, markup_withoutLines]

/-- A string constant that looks like markup and an escape, over two lines, in front of a node
without parts. -/
theorem ofMarkup?_markup_taggedString :
    let tree : Tree := .node .term
      [.leaf ⟨.stringConstant, "\" </stringConstant>\n&lt;<term> \"", 7⟩, .node .statements []]
    tree.Quoted ∧ ofMarkup? tree.markup = some tree.withoutLines ∧
      ∀ other : Tree, other.Quoted →
        (tree.markup = other.markup ↔ tree.withoutLines = other.withoutLines) := by
  intro tree
  have quoted : tree.Quoted := by
    intro token among isString
    obtain rfl := List.mem_singleton.mp among
    exact ⟨" </stringConstant>\n&lt;<term> ", by decide⟩
  exact ⟨quoted, ofMarkup?_markup tree quoted⟩

end Tree

end JackCompiler
