import JackCompiler.Syntax.Combinator

/-!
# Grammars as data

A grammar is built from terminals, sequences, alternatives, repetition, option and references to
rules. `Grammar.parser` reads it as a parser once the references have a meaning. A grammar over the
empty type has no references and is a parser by itself (`Grammar.closedParser`).
-/

set_option autoImplicit false

namespace JackCompiler

/-- A grammar that refers to rules of type `ν`. -/
inductive Grammar (ν : Type) where
  | terminal (kind : TokenKind) (texts : List String)
  | sequence (parts : List (Grammar ν))
  | alternatives (candidates : List (Grammar ν))
  | many (part : Grammar ν)
  | maybe (part : Grammar ν)
  | rule (name : ν)

namespace Grammar

variable {ν : Type}

mutual

/-- The parser of a grammar whose references are read by `enter`. -/
def parser (enter : ν → Parser) : Grammar ν → Parser
  | terminal kind texts => Parser.terminal kind texts
  | sequence parts => Parser.sequence (parsers enter parts)
  | alternatives candidates => Parser.alternatives (parsers enter candidates)
  | many part => Parser.many (parser enter part)
  | maybe part => Parser.maybe (parser enter part)
  | rule name => enter name

/-- The parsers of several grammars. -/
def parsers (enter : ν → Parser) : List (Grammar ν) → List Parser
  | [] => []
  | part :: later => parser enter part :: parsers enter later

end

@[simp] theorem parsers_eq_map (enter : ν → Parser) (parts : List (Grammar ν)) :
    parsers enter parts = parts.map (parser enter) := by
  induction parts with
  | nil => rfl
  | cons part later ih => simp [parsers, ih]

section Parser

variable (enter : ν → Parser)

theorem parser_terminal (kind : TokenKind) (texts : List String) :
    (terminal kind texts).parser enter = Parser.terminal kind texts := rfl

theorem parser_sequence (parts : List (Grammar ν)) :
    (sequence parts).parser enter = Parser.sequence (parts.map (parser enter)) :=
  congrArg Parser.sequence (parsers_eq_map enter parts)

theorem parser_alternatives (candidates : List (Grammar ν)) :
    (alternatives candidates).parser enter =
      Parser.alternatives (candidates.map (parser enter)) :=
  congrArg Parser.alternatives (parsers_eq_map enter candidates)

theorem parser_many (part : Grammar ν) :
    (many part).parser enter = Parser.many (part.parser enter) := rfl

theorem parser_maybe (part : Grammar ν) :
    (maybe part).parser enter = Parser.maybe (part.parser enter) := rfl

theorem parser_rule (name : ν) : (rule name).parser enter = enter name := rfl

end Parser

/-- The parser of a grammar without references. -/
def closedParser (grammar : Grammar Empty) : Parser := parser Empty.elim grammar

end Grammar

end JackCompiler
