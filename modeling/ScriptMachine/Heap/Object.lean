import ScriptMachine.Heap.Frame
import ScriptMachine.Structure.Navigation

/-!
# Heap objects

What lives on the heap: structures, callables, iterators, and payloads of the embedding program. The
type `H` names the functions that the embedding program provides.
-/

set_option autoImplicit false

namespace ScriptMachine

inductive Callable (H : Type) where
  | script (unit : CodeUnit) (captures : Buffer)
  | host (path : String) (function : H)
deriving Repr

namespace Callable

variable {H : Type}

def ofUnit (unit : CodeUnit) : Callable H := .script unit {}

def name : Callable H → String
  | .script unit _ => unit.name
  | .host path _ => path

end Callable

inductive IterState where
  | created
  | active
  /-- The frame of the generator is on the stack of a job. -/
  | running
  | exhausted
deriving DecidableEq, Repr, Inhabited

def IterState.name : IterState → String
  | created => "Created"
  | active => "Active"
  | running => "Running"
  | exhausted => "Exhausted"

/-- How far a walk over the keys of a structure has come. -/
inductive WalkPosition where
  | start
  | after (key : Key)
  | done
deriving DecidableEq, Repr, Inhabited

inductive IterSource where
  | walk (target : Value) (position : WalkPosition)
  /-- The frame is away while the generator runs, and gone once it has ended. -/
  | generator (frame : Option Frame)
deriving Repr, Inhabited

structure Iterator where
  state : IterState := .created
  source : IterSource
  key : Value := .null
  current : List Value := []
  yields : Nat := 0
deriving Repr, Inhabited

namespace Iterator

def overStructure (target : Value) : Iterator := { source := .walk target .start }

def ofFrame (frame : Frame) : Iterator := { source := .generator (some frame) }

def isGenerator (it : Iterator) : Bool :=
  match it.source with
  | .generator _ => true
  | .walk _ _ => false

/-- Puts a new current entry up; the values of the last one come back. -/
def publish (it : Iterator) (key : Value) (values : List Value) : List Value × Iterator :=
  (it.current ++ [it.key], { it with current := values, key, state := .active })

/-- Takes the frame of a generator back after a yield. Yields are numbered from zero. -/
def park (it : Iterator) (frame : Frame) (values : List Value) : List Value × Iterator :=
  let source :=
    match it.source with
    | .generator _ => .generator (some frame)
    | walk => walk
  { it with source, yields := it.yields + 1 }.publish (.int (Int64.ofNat it.yields)) values

/-- Tells the parked frame which iterator it belongs to. -/
def bind (it : Iterator) (handle : Handle) : Iterator :=
  match it.source with
  | .generator (some frame) =>
    { it with source := .generator (some { frame with generator := some handle }) }
  | _ => it

def resume (it : Iterator) : Option Frame × Iterator :=
  match it.source, it.state with
  | .generator _, .exhausted => (none, it)
  | .generator (some frame), _ =>
    (some frame, { it with source := .generator none, state := .running })
  | _, _ => (none, it)

/-- Ends the iteration for good; the values of the last entry come back. -/
def finish (it : Iterator) : List Value × Iterator :=
  let source :=
    match it.source with
    | .walk target _ => .walk target .done
    | generator => generator
  (it.current ++ [it.key], { it with state := .exhausted, current := [], key := .null, source })

end Iterator

structure External where
  typeName : String
  payload : Int64
deriving DecidableEq, Repr, Inhabited

inductive Object (H : Type) where
  | struct (s : Structure)
  | callable (c : Callable H)
  | iterator (it : Iterator)
  | external (e : External)
deriving Repr

def Object.kind {H : Type} : Object H → HeapKind
  | .struct _ => .struct
  | .callable _ => .callable
  | .iterator _ => .iterator
  | .external _ => .external

end ScriptMachine
