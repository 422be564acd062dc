import ScriptMachine.Exec.Context
import ScriptMachine.Host
import ScriptMachine.Machine.Journal
import ScriptMachine.Program.Basic

/-!
# Machines and jobs

A machine is what jobs share: heap, globals, compiled units, settings, and the outer world. A job is
one thread of execution: a stack of frames, the channel through which values pass between frames,
and a host task that it may be waiting for. A session is a job on a machine.
-/

set_option autoImplicit false

namespace ScriptMachine

structure Machine (H W : Type) where
  heap : Heap H := {}
  globals : Globals := {}
  units : UnitTable := {}
  config : Config := {}
  /-- Whether uncaught errors are reported instead of answered. -/
  hooked : Bool := false
  world : W
  journal : Journal := {}
deriving Repr

/-- One thread of execution. -/
structure Job where
  frames : List Frame := []
  channel : List Value := []
  pending : Option HostTask := none
deriving Repr, Inhabited

namespace Job

def depth (j : Job) : Nat := j.frames.length

def isWaiting (j : Job) : Bool := j.pending.isSome

def isIdle (j : Job) : Bool := j.frames.isEmpty && j.pending.isNone

def changeTop (j : Job) (f : Frame → Frame) : Job :=
  match j.frames with
  | top :: rest => { j with frames := f top :: rest }
  | [] => j

end Job

structure Session (H W : Type) where
  machine : Machine H W
  job : Job := {}
deriving Repr

abbrev MachineM (H W : Type) := Effect (Machine H W)

abbrev SessionM (H W : Type) := Effect (Session H W)

namespace Machine

variable {H W : Type}

instance : MonadLift (HeapM H) (MachineM H W) :=
  ⟨Effect.onPart Machine.heap fun heap m => { m with heap }⟩

def note (topic : Topic) (severity : Severity) (m : Machine H W) : Machine H W :=
  { m with journal := m.journal.note topic severity }

def dispose (vs : List Value) (m : Machine H W) : Machine H W :=
  { m with heap := m.heap.disposeAll vs }

def notes (m : Machine H W) : Journal := m.journal.withHeap m.heap

/-- Binds a path. A value that is refused is disposed, and so is one that is displaced. -/
def define (path : String) (v : Value) (overwritable : Bool) : MachineM H W Unit := do
  match (← get).globals.define path v overwritable with
  | .ok (old, globals) =>
    modify fun m => (note .globals .trace { m with globals }).dispose old.toList
  | .error e =>
    modify (dispose [v])
    throw e

/-- Assigns to a path as a script does. -/
def store (path : String) (v : Value) : MachineM H W Unit := do
  match (← get).globals.store path v with
  | .ok (old, globals) => modify fun m => dispose old.toList { m with globals }
  | .error e =>
    modify (dispose [v])
    throw e

/-- Puts an object on the heap. -/
def alloc (object : Object H) : MachineM H W Value := do
  let (v, heap) := (← get).heap.alloc object
  modify fun m => { m with heap }
  return v

def registerHost (path : String) (function : H) (overwritable : Bool) : MachineM H W Unit := do
  define path (← alloc (.callable (.host path function))) overwritable

def compile (f : Function) : MachineM H W CodeUnit := do
  let unit ← f.compile (← get).config.fusion
  modify (note .fusion .debug)
  return unit

def addUnit (f : Function) : MachineM H W CodeUnit := do
  if (← get).units.contains f.name then throw (.ofFault (.duplicateBinding f.name))
  let unit ← compile f
  modify fun m => { m with units := m.units.insert unit.name unit }
  return unit

/-- Disposes all globals. Units stay compiled. -/
def shutdown (m : Machine H W) : Machine H W :=
  { (note .globals .debug m).dispose m.globals.values with globals := {} }

end Machine

namespace Session

variable {H W : Type}

instance : MonadLift (MachineM H W) (SessionM H W) :=
  ⟨Effect.onPart Session.machine fun machine s => { s with machine }⟩

def note (topic : Topic) (severity : Severity) : SessionM H W Unit :=
  modify fun s => { s with machine := s.machine.note topic severity }

def dispose (vs : List Value) : SessionM H W Unit :=
  modify fun s => { s with machine := s.machine.dispose vs }

def changeHeap (f : Heap H → Heap H) : SessionM H W Unit :=
  modify fun s => { s with machine := { s.machine with heap := f s.machine.heap } }

def changeJob (f : Job → Job) : SessionM H W Unit := modify fun s => { s with job := f s.job }

def drainChannel : SessionM H W (List Value) := do
  let values := (← get).job.channel
  changeJob fun j => { j with channel := [] }
  return values

def clearChannel : SessionM H W Unit := do dispose (← drainChannel)

/-- Gives values to the running frame, where nothing counts as `null`. Without a frame they are the
result of the job. -/
def deliver (values : List Value) : SessionM H W Unit :=
  changeJob fun j =>
    match j.frames with
    | [] => { j with channel := j.channel ++ values }
    | top :: rest =>
      let pushed := if values.isEmpty then [.null] else values
      { j with frames := top.pushAll pushed :: rest }

/-- Lets a frame that left the stack go; the locals that the mask selects come back. -/
def retire (frame : Frame) (mask : UInt64) : SessionM H W (List Value) := do
  let s ← get
  let (kept, heap) := s.machine.heap.retire frame mask
  set { s with machine := { s.machine with heap } }
  return kept

/-- Lets a frame go that was left by an error; a generator it belongs to has ended. -/
def abandon (frame : Frame) : SessionM H W Unit := do
  let _ ← retire frame 0
  match frame.generator with
  | some handle => changeHeap (·.exhaust handle)
  | none => return ()

end Session

end ScriptMachine
