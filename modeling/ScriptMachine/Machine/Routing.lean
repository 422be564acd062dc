import ScriptMachine.Heap.Iteration
import ScriptMachine.Machine.Basic

/-!
# Where errors go

An error leaves frames from the top until one has a trap, which takes it as a value, or armed
deferred blocks, which run before it goes on. Fatal errors and panics stop nowhere. `Session.raise`
fails with the error if no frame took it.
-/

set_option autoImplicit false

namespace ScriptMachine

def Error.payload (e : Error) : Value :=
  match e.cause with
  | .fault (.thrown v) => v
  | .fault f => .str f.message
  | _ => .str e.message

/-- What the embedding program is told of an error that no frame took, and the heap without the
thrown value. -/
def Heap.uncaught {H : Type} (h : Heap H) (e : Error) : Error × Heap H :=
  match e.cause with
  | .fault (.thrown v) => (.ofFault (.uncaught (h.render v)), h.dispose v)
  | .fault f => (.ofFault f, h)
  | _ => (e, h)

def Frame.trapped (f : Frame) (handler : Nat) (e : Error) : Frame :=
  { f with trap := none, stack := [e.payload], cursor := handler }

def Frame.holdError (f : Frame) (entry : Nat) (e : Error) : Frame :=
  { f with stack := [], pendingError := some e, pendingReturn := none, cursor := entry }

namespace Session

variable {H W : Type}

def unwind (e : Error) : List Frame → SessionM H W Unit
  | [] => do
    changeJob fun j => { j with frames := [] }
    throw e
  | frame :: rest =>
    match frame.trap, frame.diversion with
    | some handler, _ => do
      dispose frame.stack.reverse
      note .engine .debug
      changeJob fun j => { j with frames := frame.trapped handler e :: rest }
    | none, some entry => do
      dispose frame.stack.reverse
      changeJob fun j => { j with frames := frame.holdError entry e :: rest }
      dispose frame.thrownValues
      dispose frame.returnedValues
    | none, none => do
      abandon frame
      unwind e rest

def abandonAll : SessionM H W Unit := do
  (← get).job.frames.forM abandon
  changeJob fun j => { j with frames := [] }

def raise (e : Error) : SessionM H W Unit := do
  clearChannel
  if e.isFatal then
    note .engine .warn
    abandonAll
    throw e
  else unwind e (← get).job.frames

/-- Ends a job wherever it is: its frames, its task and what is in its channel are let go. The job
can be used again. -/
def teardown : SessionM H W Unit := do
  if !(← get).job.frames.isEmpty then note .engine .debug
  abandonAll
  changeJob fun j => { j with pending := none }
  clearChannel

end Session

end ScriptMachine
