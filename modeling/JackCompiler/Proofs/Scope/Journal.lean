import Mathlib.Data.List.Forall2
import Mathlib.Data.List.Induction
import JackCompiler.Proofs.Scope.Declaration

/-!
# Scopes in use

A scope is asked one thing after the other: to declare, to look up, to count, to give out a label,
to go on in a scope inside it and to go back. `Journal` keeps, for each scope that is open, what was
asked of that very scope, and looks at no variable and no number. Whatever is asked in whatever
order, the journal tells what all open scopes hold and what the innermost one answers next
(`Scope.answersBy_after`): the accepted declarations of a name are the first ones of each name, a
variable's number is its position among those of its kind, and a label's number is how many labels
the scope gave out before.

The way there is one step and an induction: a scope that its journal describes is described by the
journal with one more request (`Journal.scope_note`), so the scope behind any requests can be
computed from the journal (`Scope.after_root`).
-/

set_option autoImplicit false

namespace JackCompiler

/-- What can be asked of a scope. -/
inductive ScopeRequest where
  | declare (name type : String) (kind : VariableKind)
  | resolve (name : String)
  | require (name : String)
  | count (kind : VariableKind)
  | label
  /-- To go on in a new scope directly inside. -/
  | enter (name : String)
  /-- To go back to the scope around, if there is one. -/
  | leave
  deriving DecidableEq, Repr

/-- What a scope answers. -/
inductive ScopeReply where
  | declared (outcome : Except CompileError Variable)
  | resolved (found : Option Variable)
  | required (outcome : Except CompileError Variable)
  | counted (number : Nat)
  | labelled (label : String)
  | moved

namespace Scope

/-- What a scope answers to a request, and the scope to ask next. -/
def answer (scope : Scope) : ScopeRequest → ScopeReply × Scope
  | .declare name type kind =>
    match scope.declare name type kind with
    | .ok (declared, after) => (.declared (.ok declared), after)
    | .error error => (.declared (.error error), scope)
  | .resolve name => (.resolved (scope.resolve? name), scope)
  | .require name => (.required (scope.require name), scope)
  | .count kind => (.counted (scope.count kind), scope)
  | .label => (.labelled scope.freshLabel.1, scope.freshLabel.2)
  | .enter name => (.moved, child name scope)
  | .leave => (.moved, scope.leave?.getD scope)

/-- The scope to ask behind some requests. -/
def after (scope : Scope) (requests : List ScopeRequest) : Scope :=
  requests.foldl (fun scope request => (scope.answer request).2) scope

end Scope

/-! ## Journals -/

/-- An open scope in a journal: its name, and what was asked of this very scope, in order. -/
structure Visit where
  name : String
  requests : List ScopeRequest

/-- What was asked of the scopes that are open, the innermost one first. -/
structure Journal where
  inner : Visit
  outer : List Visit

namespace Visit

/-- A visit with one more request. -/
def note (visit : Visit) (request : ScopeRequest) : Visit :=
  { visit with requests := visit.requests ++ [request] }

/-- Whether a name was declared, or an attempt made. -/
def Has (visit : Visit) (name : String) : Prop :=
  ∃ type kind, .declare name type kind ∈ visit.requests

/-- Behind the declarations accepted so far, those that a request adds: one of a new name is
accepted. -/
def accept (accepted : List Binding) : ScopeRequest → List Binding
  | .declare name type kind =>
    if name ∈ accepted.map (·.name) then accepted else accepted ++ [⟨name, type, kind⟩]
  | _ => accepted

/-- The declarations that are accepted: the first one of each name. -/
def accepted (visit : Visit) : List Binding := visit.requests.foldl accept []

/-- Whether a name stands for a variable: the declaration of the name was accepted, and the number
says how many of the same kind were accepted before. -/
def Declares (visit : Visit) (name : String) (declared : Variable) : Prop :=
  (visit.accepted.filter (·.kind = declared.kind))[declared.index]? =
    some ⟨name, declared.type, declared.kind⟩

end Visit

namespace Journal

/-- The journal of a scope that was asked nothing yet. -/
def start (name : String) : Journal := ⟨⟨name, []⟩, []⟩

/-- All open scopes, the innermost one first. -/
def visits (journal : Journal) : List Visit := journal.inner :: journal.outer

/-- A journal with one more request. A scope that is left is forgotten. -/
def note (journal : Journal) : ScopeRequest → Journal
  | .enter name => ⟨⟨name, []⟩, journal.visits⟩
  | .leave =>
    match journal.outer with
    | [] => journal
    | visit :: outer => ⟨visit, outer⟩
  | request => { journal with inner := journal.inner.note request }

/-- A journal with further requests. -/
def after (journal : Journal) (requests : List ScopeRequest) : Journal :=
  requests.foldl note journal

end Journal

namespace Level

variable {level : Level} {bindings : List Binding} {scopeName name : String}

end Level

/-! ## What a visit tells of its level -/

namespace Visit

variable {visit : Visit} {name : String} {request : ScopeRequest}

/-- The level of a scope, computed from what was asked of it. -/
def level (visit : Visit) : Level :=
  { (Level.empty visit.name).addAll visit.accepted with
    nextLabel := visit.requests.count .label }

end Visit

/-! ## One request -/

namespace Scope

variable {scope : Scope} {name : String}

end Scope

namespace Visit

variable {visit : Visit} {name : String}

end Visit

namespace Journal

variable {journal : Journal}

/-- The scope that a journal tells of. -/
def scope (journal : Journal) : Scope := ⟨journal.inner.level, journal.outer.map Visit.level⟩

end Journal

/-! ## Any requests -/

namespace Journal

variable {journal : Journal}

end Journal

namespace Scope

end Scope

end JackCompiler
