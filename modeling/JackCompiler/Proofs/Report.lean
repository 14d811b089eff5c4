import JackCompiler.Proofs.Outcome
import JackCompiler.Proofs.Syntax.Combinator
import JackCompiler.Compile

/-!
# What computations report

`Logged.Tells` says what a computation reports: the given events if it ends with a value, and the
first ones of them if it fails on the way. There is one lemma for each way to build a computation,
and the events of a sequence are those of its steps in order. Parsing reports nothing but traces
(`traces_parse`).
-/

set_option autoImplicit false

namespace JackCompiler

namespace Logged

variable {ε α β : Type}

/-- `x.Tells events`: the computation reports these events, or first ones of them if it fails. -/
structure Tells (x : Logged ε α) (events : List Event) : Prop where
  front : x.events <+: events
  whole : ∀ a, x.result = .ok a → x.events = events

@[simp] theorem events_liftM (x : Except ε α) : (liftM x : Logged ε α).events = [] := rfl

@[simp] theorem events_report (event : Event) :
    (Logged.report event : Logged ε Unit).events = [event] := rfl

section Tells

variable {x : Logged ε α} {f : α → Logged ε β} {first second : List Event}

theorem tells_pure (a : α) : (pure a : Logged ε α).Tells [] :=
  ⟨List.prefix_refl _, fun _ _ => rfl⟩

/-- A failure reports nothing, whatever would have been reported. -/
theorem tells_fail (error : ε) (events : List Event) :
    (Logged.fail error : Logged ε α).Tells events :=
  ⟨List.nil_prefix, nofun⟩

theorem tells_report (event : Event) : (Logged.report event : Logged ε Unit).Tells [event] :=
  ⟨List.prefix_refl _, fun _ _ => rfl⟩

theorem tells_ofExcept (result : Except ε α) : (ofExcept result).Tells [] :=
  ⟨List.prefix_refl _, fun _ _ => rfl⟩

/-- A sequence reports what its first step does and then what its second one does. -/
theorem Tells.bind (one : x.Tells first) (two : ∀ a, x.result = .ok a → (f a).Tells second) :
    (x >>= f).Tells (first ++ second) := by
  cases outcome : x.result with
  | error error =>
    have events : (x >>= f).events = x.events := by
      rw [events_bind, outcome, List.append_nil]
    refine ⟨?_, ?_⟩
    · rw [events]
      exact one.front.trans (List.prefix_append _ _)
    · intro b ends
      rw [result_bind, outcome] at ends
      cases ends
  | ok a =>
    have events : (x >>= f).events = first ++ (f a).events := by
      rw [events_bind, outcome, one.whole a outcome]
    refine ⟨?_, ?_⟩
    · rw [events]
      exact (List.prefix_append_right_inj first).mpr (two a outcome).front
    · intro b ends
      rw [result_bind, outcome] at ends
      rw [events, (two a outcome).whole b ends]

/-- A step that reports nothing may be left out in front of others. -/
theorem Tells.behind (one : x.Tells []) (two : ∀ a, x.result = .ok a → (f a).Tells second) :
    (x >>= f).Tells second :=
  one.bind two

/-- A step that reports nothing may be left out behind others. -/
theorem Tells.before (one : x.Tells first) (two : ∀ a, x.result = .ok a → (f a).Tells []) :
    (x >>= f).Tells first := by
  have both := one.bind two
  rwa [List.append_nil] at both

end Tells

/-- Whether a computation reports nothing that is more important than a trace. -/
def Traces (x : Logged ε α) : Prop := ∀ event ∈ x.events, event.severity = .trace

section Traces

variable {x : Logged ε α} {f : α → Logged ε β}

theorem traces_of_events_nil (silent : x.events = []) : x.Traces := by
  intro event among
  rw [silent] at among
  cases among

theorem Traces.bind (one : x.Traces) (two : ∀ a, (f a).Traces) : (x >>= f).Traces := by
  intro event among
  rw [events_bind, List.mem_append] at among
  rcases among with among | among
  · exact one event among
  · cases outcome : x.result with
    | error error =>
      rw [outcome] at among
      cases among
    | ok a =>
      rw [outcome] at among
      exact two a event among

theorem Traces.attempt (traces : x.Traces) : x.attempt.Traces := traces

end Traces

end Logged

/-! ## Parsing -/

namespace Parser

open Logged

variable {parser : Parser} {parsers : List Parser} {cursor : Cursor}

theorem traces_terminal (kind : TokenKind) (texts : List String) :
    (terminal kind texts cursor).Traces := by
  apply traces_of_events_nil
  obtain ⟨position, ahead⟩ := cursor
  cases ahead with
  | nil => rfl
  | cons token rest =>
    simp only [terminal]
    split <;> rfl

theorem traces_sequence (each : ∀ parser ∈ parsers, ∀ cursor, (parser cursor).Traces) :
    (sequence parsers cursor).Traces := by
  induction parsers generalizing cursor with
  | nil => exact traces_of_events_nil rfl
  | cons parser later ih =>
    rw [List.forall_mem_cons] at each
    exact (each.1 cursor).bind fun first => ih each.2

/-- Each candidate that fails is reported as a trace. -/
theorem traces_firstOf (each : ∀ parser ∈ parsers, ∀ cursor, (parser cursor).Traces)
    (number : Nat) (failure : CompileError) : (firstOf number failure parsers cursor).Traces := by
  induction parsers generalizing number failure with
  | nil => exact traces_of_events_nil rfl
  | cons parser later ih =>
    rw [List.forall_mem_cons] at each
    refine (each.1 cursor).attempt.bind fun outcome => ?_
    cases outcome with
    | ok parsed => exact traces_of_events_nil rfl
    | error error =>
      refine Traces.bind ?_ fun _ => ih each.2 _ _
      intro event among
      obtain rfl := List.mem_singleton.mp among
      rfl

theorem traces_many (each : ∀ cursor, (parser cursor).Traces) : (many parser cursor).Traces := by
  induction left : cursor.ahead.length using Nat.strongRecOn generalizing cursor with
  | ind count ih =>
    rw [many]
    refine (each cursor).attempt.bind fun outcome => ?_
    cases outcome with
    | error error => exact traces_of_events_nil rfl
    | ok parsed =>
      obtain ⟨trees, next⟩ := parsed
      by_cases fewer : next.ahead.length < cursor.ahead.length
      · simp only [dif_pos fewer]
        exact ih _ (left ▸ fewer) rfl
      · simp only [dif_neg fewer]
        exact traces_of_events_nil rfl

theorem traces_maybe (each : ∀ cursor, (parser cursor).Traces) : (maybe parser cursor).Traces := by
  refine (each cursor).attempt.bind fun outcome => ?_
  cases outcome <;> exact traces_of_events_nil rfl

end Parser

/-- A grammar's parser reports traces if the references do. -/
theorem Grammar.traces_parser {ν : Type} {enter : ν → Parser}
    (each : ∀ name cursor, (enter name cursor).Traces) (grammar : Grammar ν) (cursor : Cursor) :
    (grammar.parser enter cursor).Traces := by
  induction grammar generalizing cursor with
  | terminal kind texts => exact Parser.traces_terminal kind texts
  | sequence parts ih =>
    rw [parser_sequence]
    exact Parser.traces_sequence (List.forall_mem_map.mpr ih)
  | alternatives candidates ih =>
    rw [parser_alternatives]
    exact Parser.traces_firstOf (List.forall_mem_map.mpr ih) _ _
  | many part ih => exact Parser.traces_many ih
  | maybe part ih => exact Parser.traces_maybe ih
  | rule name => exact each name cursor

theorem Rule.traces_parseWithin (depth : Nat) (rule : Rule) (cursor : Cursor) :
    (parseWithin depth rule cursor).Traces := by
  induction depth generalizing rule cursor with
  | zero => exact Logged.traces_of_events_nil rfl
  | succ depth ih => exact Grammar.traces_parser ih rule.production cursor

theorem traces_tokenize (source : String) : (tokenize source).Traces := by
  refine Logged.Traces.bind (Logged.traces_of_events_nil rfl) fun tokens => ?_
  refine Logged.Traces.bind ?_ fun _ => Logged.traces_of_events_nil rfl
  intro event among
  obtain rfl := List.mem_singleton.mp among
  rfl

/-- Whatever comes of it, parsing reports nothing but traces. -/
theorem traces_parse (source : String) : (parse source).Traces := by
  refine (traces_tokenize source).bind fun tokens => ?_
  refine Logged.Traces.bind (Rule.traces_parseWithin _ _ _) fun parsed => ?_
  apply Logged.traces_of_events_nil
  obtain ⟨tree, position, ahead⟩ := parsed
  cases ahead <;> rfl

end JackCompiler
