import JackCompiler.Event

/-!
# Computations that report events

`Logged ε α` is a computation that ends in a value or in an error and reports events on its way. The
events of a failed computation stay: `Logged.attempt` turns the failure into a value and keeps
them. Forgetting the events gives the plain computation, step for step (`result_bind`), and the
events of a sequence are those of its steps in order (`events_bind`).
-/

set_option autoImplicit false

namespace JackCompiler

/-- A result or an error, with the events reported before it was reached. -/
structure Logged (ε α : Type) where
  events : List Event
  result : Except ε α

namespace Logged

variable {ε α β : Type}

/-- Ends with an error. -/
def fail (error : ε) : Logged ε α := ⟨[], .error error⟩

/-- Reports one event. -/
def report (event : Event) : Logged ε Unit := ⟨[event], .ok ()⟩

/-- A computation that reports nothing. -/
def ofExcept (result : Except ε α) : Logged ε α := ⟨[], result⟩

/-- The outcome of a computation as a value. Its events are kept even if it fails. -/
def attempt (x : Logged ε α) : Logged ε (Except ε α) := ⟨x.events, .ok x.result⟩

instance : Monad (Logged ε) where
  pure a := ⟨[], .ok a⟩
  map f x := ⟨x.events, x.result.map f⟩
  bind x f :=
    match x.result with
    | .error error => ⟨x.events, .error error⟩
    | .ok a =>
      let y := f a
      ⟨x.events ++ y.events, y.result⟩

instance : MonadLift (Except ε) (Logged ε) := ⟨ofExcept⟩

@[simp] theorem result_pure (a : α) : (pure a : Logged ε α).result = .ok a := rfl

@[simp] theorem events_pure (a : α) : (pure a : Logged ε α).events = [] := rfl

@[simp] theorem result_map (f : α → β) (x : Logged ε α) :
    (f <$> x).result = x.result.map f := rfl

@[simp] theorem events_map (f : α → β) (x : Logged ε α) : (f <$> x).events = x.events := rfl

/-- Forgetting the events leaves the plain sequence of results. -/
@[simp] theorem result_bind (x : Logged ε α) (f : α → Logged ε β) :
    (x >>= f).result = x.result >>= fun a => (f a).result := by
  cases h : x.result <;> simp [bind, Except.bind, h]

/-- The events of a sequence are those of its steps, as far as it gets. -/
theorem events_bind (x : Logged ε α) (f : α → Logged ε β) :
    (x >>= f).events = x.events ++
      match x.result with
      | .error _ => []
      | .ok a => (f a).events := by
  cases h : x.result <;> simp [bind, h]

/-- Applying a function is a step that reports nothing. -/
theorem map_eq_bind (f : α → β) (x : Logged ε α) : f <$> x = x >>= fun a => pure (f a) := by
  obtain ⟨events, result⟩ := x
  cases result <;> simp [Functor.map, bind, pure, Except.map]

end Logged

end JackCompiler
