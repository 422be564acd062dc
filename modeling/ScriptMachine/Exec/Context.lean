import ScriptMachine.Globals
import ScriptMachine.Heap.Children
import ScriptMachine.Heap.Copy
import ScriptMachine.Heap.Iteration

/-!
# What an instruction works on

An instruction sees the heap, the globals, the frame that runs it, and the channel through which
arguments and results pass between frames. What it asks of the engine in the end is a `Flow`.
-/

set_option autoImplicit false

namespace ScriptMachine

inductive CallTarget where
  | value (callee : Value)
  | unit (name : String)
  /-- Whatever is bound to a path. -/
  | path (path : String)
deriving DecidableEq, Repr, Inhabited

/-- How control goes on after a step. -/
inductive Flow where
  | next
  | jump (target : Nat)
  | call (target : CallTarget) (this : Value)
  /-- The values in the channel go to the caller. -/
  | ret
  | returnLocals (mask : UInt64)
  | yield
  /-- Leaves the frame without values. -/
  | finalize
  | advance (generator : Handle) (exhausted : Nat)
deriving DecidableEq, Repr, Inhabited

/-- Compiled units by name. -/
abbrev UnitTable := SortedMap String CodeUnit

structure Context (H : Type) where
  heap : Heap H
  globals : Globals
  frame : Frame
  channel : List Value
deriving Repr

abbrev Exec (H : Type) := Effect (Context H)

namespace Exec

variable {H α : Type}

instance : MonadLift (HeapM H) (Exec H) :=
  ⟨Effect.onPart Context.heap fun heap c => { c with heap }⟩

/-- An operation on the frame alone; a failure leaves the frame as it was. -/
def onFrame (op : Frame → Except Error (α × Frame)) : Exec H α := do
  let c ← get
  let (a, frame) ← op c.frame
  set { c with frame }
  return a

def changeFrame (op : Frame → Except Error Frame) : Exec H Unit :=
  onFrame fun f => do return ((), ← op f)

def readFrame (op : Frame → Except Error α) : Exec H α := do op (← get).frame

def readHeap (op : Heap H → Except Error α) : Exec H α := do op (← get).heap

def push (v : Value) : Exec H Unit := modify fun c => { c with frame := c.frame.push v }

def pop : Exec H Value := onFrame Frame.pop

def popN (n : Nat) : Exec H (List Value) := onFrame fun f => f.popN n

/-- Takes two operands; the one pushed first comes first. -/
def popTwo : Exec H (Value × Value) := do
  let rhs ← pop
  let lhs ← pop
  return (lhs, rhs)

def letGo (vs : List Value) (c : Context H) : Context H := { c with heap := c.heap.disposeAll vs }

/-- Runs an operation on operands and disposes them afterwards, whether it failed or not. -/
def consuming (operands : List Value) (op : Exec H α) : Exec H α := op.andAlways (letGo operands)

def send (vs : List Value) : Exec H Unit := modify fun c => { c with channel := c.channel ++ vs }

def storeLocal (slot : Nat) (v : Value) : Exec H Unit := do
  match (← get).frame.swapLocal slot v with
  | .ok (old, frame) => modify fun c => letGo [old] { c with frame }
  | .error e =>
    modify (letGo [v])
    throw e

end Exec

end ScriptMachine
