import ScriptMachine.Heap.Dispose
import ScriptMachine.Heap.Render

/-!
# Functions of the embedding program

A host function reads its arguments one after the other, may use the heap, and returns values. It
ends at once, or leaves a task whose result comes later. The type `H` names the host functions and
`W` is the part of the outer world that they see and change.
-/

set_option autoImplicit false

namespace ScriptMachine

/-- Work that a host function left: it is not ready for a number of polls, and then has a result. -/
structure HostTask where
  polls : Nat := 0
  result : Except Error (List Value)
deriving Repr

structure HostCall (H : Type) where
  path : String
  /-- Position in the caller that follows the call. -/
  cursor : Nat
  this : Value
  args : List Value
  heap : Heap H
  returned : List Value := []
deriving Repr

namespace HostCall

variable {H : Type}

/-- The next argument; `null` once they run out. -/
def arg (c : HostCall H) : Value × HostCall H :=
  match c.args with
  | v :: rest => (v, { c with args := rest })
  | [] => (.null, c)

def rest (c : HostCall H) : List Value × HostCall H := (c.args, { c with args := [] })

def remaining (c : HostCall H) : Nat := c.args.length

def expectArgs (c : HostCall H) (n : Nat) : Except Error Unit :=
  if c.remaining = n then .ok () else .error (.ofFault (.parameterCount c.path n c.remaining))

def ret (c : HostCall H) (v : Value) : HostCall H := { c with returned := c.returned ++ [v] }

/-- The text of a value, with structures shown. -/
def render (c : HostCall H) (v : Value) : String := c.heap.render v

def finish (c : HostCall H) : Heap H := (c.heap.disposeAll c.args).dispose c.this

def joinArgs (c : HostCall H) : String × HostCall H :=
  let (args, c) := c.rest
  (" ".intercalate (args.map c.render), { c with heap := c.heap.disposeAll args })

end HostCall

inductive HostReply where
  | finished
  | failed (e : Error)
  | task (t : HostTask)
deriving Repr

structure Host (H W : Type) where
  call : H → HostCall H → W → HostReply × HostCall H × W
  /-- Takes note of an error that no script caught. -/
  report : Error → W → W

end ScriptMachine
