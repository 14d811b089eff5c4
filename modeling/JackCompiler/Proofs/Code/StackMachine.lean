import Mathlib.Logic.Function.Basic
import JackCompiler.Scope

/-!
# An abstract stack machine

What straight-line code does, over words of any type. The machine has a word for each constant, a
function for each operation, and for each subroutine what calling it does; nothing is assumed of
them. The words of an object are reached by an offset from its first word.

A subroutine has its locals, its arguments and its receiver to itself. The heap, the static
variables and the temporary memory are shared with the subroutines it calls.
-/

set_option autoImplicit false

namespace JackCompiler

/-- The memory that outlives a call. -/
structure Store (Word : Type) where
  heap : Word → Word
  statics : Nat → Word

/-- The memory with another word at an address. -/
def Store.setHeap {Word : Type} [DecidableEq Word] (store : Store Word) (address value : Word) :
    Store Word :=
  { store with heap := Function.update store.heap address value }

/-- What a running subroutine has to itself. -/
structure Activation (Word : Type) where
  locals : Nat → Word
  arguments : Nat → Word
  this : Word

/-- What calling a subroutine does: the word it gives back, the memory it leaves behind, and how it
changes the temporary memory. -/
structure Outcome (Word : Type) where
  value : Word
  store : Store Word
  temp : (Nat → Word) → Nat → Word

/-- What the machine computes. -/
structure StackMachine (Word : Type) where
  constant : Nat → Word
  negate : Word → Word
  complement : Word → Word
  add : Word → Word → Word
  subtract : Word → Word → Word
  equal : Word → Word → Word
  greater : Word → Word → Word
  less : Word → Word → Word
  both : Word → Word → Word
  either : Word → Word → Word
  /-- The address so many words behind another one. -/
  offset : Word → Nat → Word
  offset_zero (base : Word) : offset base 0 = base
  call : String → List Word → Store Word → Outcome Word

/-- The state of the machine. The stack begins with its topmost word. -/
structure MachineState (Word : Type) where
  store : Store Word
  activation : Activation Word
  that : Word
  temp : Nat → Word
  stack : List Word

namespace StackMachine

variable {Word : Type} [DecidableEq Word] (machine : StackMachine Word)

/-- The word at a place in memory. -/
def read (state : MachineState Word) : Segment → Nat → Option Word
  | .constant, index => some (machine.constant index)
  | .argument, index => some (state.activation.arguments index)
  | .localVar, index => some (state.activation.locals index)
  | .static, index => some (state.store.statics index)
  | .this, index => some (state.store.heap (machine.offset state.activation.this index))
  | .that, index => some (state.store.heap (machine.offset state.that index))
  | .pointer, 0 => some state.activation.this
  | .pointer, 1 => some state.that
  | .pointer, _ => none
  | .temp, index => some (state.temp index)

/-- The state with another word at a place in memory. -/
def write (state : MachineState Word) (value : Word) : Segment → Nat → Option (MachineState Word)
  | .constant, _ => none
  | .argument, index =>
    let arguments := Function.update state.activation.arguments index value
    some { state with activation := { state.activation with arguments := arguments } }
  | .localVar, index =>
    let locals := Function.update state.activation.locals index value
    some { state with activation := { state.activation with locals := locals } }
  | .static, index =>
    let statics := Function.update state.store.statics index value
    some { state with store := { state.store with statics := statics } }
  | .this, index =>
    let address := machine.offset state.activation.this index
    some { state with store := state.store.setHeap address value }
  | .that, index =>
    some { state with store := state.store.setHeap (machine.offset state.that index) value }
  | .pointer, 0 => some { state with activation := { state.activation with this := value } }
  | .pointer, 1 => some { state with that := value }
  | .pointer, _ => none
  | .temp, index => some { state with temp := Function.update state.temp index value }

/-- What an operation makes of the stack, if the stack holds its operands. -/
def operate : Operation → List Word → Option (List Word)
  | .neg, value :: rest => some (machine.negate value :: rest)
  | .not, value :: rest => some (machine.complement value :: rest)
  | .add, right :: left :: rest => some (machine.add left right :: rest)
  | .sub, right :: left :: rest => some (machine.subtract left right :: rest)
  | .eq, right :: left :: rest => some (machine.equal left right :: rest)
  | .gt, right :: left :: rest => some (machine.greater left right :: rest)
  | .lt, right :: left :: rest => some (machine.less left right :: rest)
  | .and, right :: left :: rest => some (machine.both left right :: rest)
  | .or, right :: left :: rest => some (machine.either left right :: rest)
  | _, _ => none

/-- What an instruction of straight-line code does, if the stack holds what it needs. The other
instructions do nothing here. -/
def execute (state : MachineState Word) : Instruction → Option (MachineState Word)
  | .push segment index => do
    let value ← machine.read state segment index
    some { state with stack := value :: state.stack }
  | .pop segment index =>
    match state.stack with
    | [] => none
    | value :: rest => machine.write { state with stack := rest } value segment index
  | .operate operation => do
    let stack ← machine.operate operation state.stack
    some { state with stack := stack }
  | .call name count =>
    if count ≤ state.stack.length then
      let outcome := machine.call name (state.stack.take count).reverse state.store
      some { state with
        store := outcome.store
        temp := outcome.temp state.temp
        stack := outcome.value :: state.stack.drop count }
    else none
  | _ => none

/-- What straight-line code does, one instruction after the other. -/
def run (code : List Instruction) (state : MachineState Word) : Option (MachineState Word) :=
  code.foldlM machine.execute state

variable {machine} {state : MachineState Word}

@[simp] theorem run_nil : machine.run [] state = some state := rfl

@[simp] theorem run_cons (instruction : Instruction) (code : List Instruction) :
    machine.run (instruction :: code) state =
      (machine.execute state instruction).bind (machine.run code) := rfl

@[simp] theorem run_append (first second : List Instruction) :
    machine.run (first ++ second) state = (machine.run first state).bind (machine.run second) :=
  List.foldlM_append

end StackMachine

end JackCompiler
