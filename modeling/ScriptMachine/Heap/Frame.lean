import ScriptMachine.Code.Unit
import ScriptMachine.Pool

/-!
# Frames

A frame is the state of one call: local slots, operand stack, shadowed bindings, the position in the
code, and what is held back while deferred blocks run. Frames are pooled; resetting a frame for a
unit leaves nothing of its earlier use but its capacity.
-/

set_option autoImplicit false

namespace ScriptMachine

/-- A return held back while deferred blocks run. -/
inductive PendingReturn where
  | values (values : List Value)
  /-- Bit mask of the locals that go to the caller. -/
  | locals (mask : UInt64)
deriving Repr, Inhabited

/-- Activation record. -/
structure Frame where
  unit : Option CodeUnit := none
  locals : List Value := []
  /-- Operand stack, top first. -/
  stack : List Value := []
  /-- Saved bindings of slots, latest first. -/
  shadows : List (Nat × Value) := []
  cursor : Nat := 0
  trap : Option Nat := none
  defers : List Bool := []
  pendingReturn : Option PendingReturn := none
  pendingError : Option Error := none
  this : Value := .null
  /-- The callable that runs; captures are read through it. -/
  closure : Value := .null
  generator : Option Handle := none
  onExhaust : Option Nat := none
  capacity : Nat
deriving Repr, Inhabited

namespace Frame

def reset (f : Frame) (unit : CodeUnit) : Frame :=
  { unit := some unit
    locals := List.replicate unit.slots .null
    defers := List.replicate unit.deferSlots false
    capacity := f.capacity }

def unitName (f : Frame) : String := (f.unit.map (·.name)).getD "<none>"

/-- Where exits go while deferred blocks are armed. -/
def deferEntry (f : Frame) : Option Nat := f.unit.bind (·.deferEntry)

def malformed (f : Frame) (reason : String) : Error := .malformed f.unitName reason

def badSlot (f : Frame) (slot : Nat) : Error := f.malformed s!"local slot {slot} out of range"

def underflow (f : Frame) : Error := f.malformed "operand stack underflow"

/-! ## Locals -/

def readLocal (f : Frame) (slot : Nat) : Except Error Value :=
  match f.locals[slot]? with
  | some v => .ok v
  | none => .error (f.badSlot slot)

def swapLocal (f : Frame) (slot : Nat) (v : Value) : Except Error (Value × Frame) :=
  match f.locals[slot]? with
  | some old => .ok (old, { f with locals := f.locals.set slot v })
  | none => .error (f.badSlot slot)

def takeLocal (f : Frame) (slot : Nat) : Except Error (Value × Frame) := f.swapLocal slot .null

/-! ## Operand stack -/

def push (f : Frame) (v : Value) : Frame := { f with stack := v :: f.stack }

def pushAll (f : Frame) (vs : List Value) : Frame := vs.foldl push f

def pop (f : Frame) : Except Error (Value × Frame) :=
  match f.stack with
  | v :: rest => .ok (v, { f with stack := rest })
  | [] => .error f.underflow

def peek (f : Frame) : Except Error Value :=
  match f.stack with
  | v :: _ => .ok v
  | [] => .error f.underflow

def updateTop (f : Frame) (g : Value → Value) : Except Error Frame :=
  match f.stack with
  | v :: rest => .ok { f with stack := g v :: rest }
  | [] => .error f.underflow

/-- Takes `n` values off the stack, oldest first. -/
def popN (f : Frame) (n : Nat) : Except Error (List Value × Frame) :=
  if f.stack.length < n then .error f.underflow
  else .ok ((f.stack.take n).reverse, { f with stack := f.stack.drop n })

/-! ## Shadowed bindings -/

/-- Parks the binding of a slot, so that an inner scope can use the slot. -/
def saveShadow (f : Frame) (slot : Nat) : Except Error Frame := do
  let (saved, f) ← f.takeLocal slot
  return { f with shadows := (slot, saved) :: f.shadows }

/-- The latest saved binding of a slot, and the bindings without it. -/
def unshadow (slot : Nat) : List (Nat × Value) → Option (Value × List (Nat × Value))
  | [] => none
  | (s, v) :: rest =>
    if s = slot then some (v, rest)
    else (unshadow slot rest).map fun (found, others) => (found, (s, v) :: others)

/-- Brings the latest saved binding of a slot back; the inner binding comes out. -/
def restoreShadow (f : Frame) (slot : Nat) : Except Error (Value × Frame) :=
  match unshadow slot f.shadows with
  | none => .error (f.malformed s!"no shadowed binding for slot {slot}")
  | some (saved, rest) => { f with shadows := rest }.swapLocal slot saved

/-! ## Deferred blocks -/

def armDefer (f : Frame) (k : Nat) : Except Error Frame :=
  if k < f.defers.length then .ok { f with defers := f.defers.set k true }
  else .error (f.malformed s!"defer slot {k} out of range")

def takeDefer (f : Frame) (k : Nat) : Bool × Frame :=
  (f.defers.getD k false, { f with defers := f.defers.set k false })

def hasArmedDefers (f : Frame) : Bool := f.defers.any id

def diversion (f : Frame) : Option Nat := if f.hasArmedDefers then f.deferEntry else none

/-! ## End of a frame -/

def cleared (f : Frame) : Frame := { capacity := f.capacity }

def returnedValues (f : Frame) : List Value :=
  match f.pendingReturn with
  | some (.values vs) => vs
  | _ => []

def thrownValues (f : Frame) : List Value := (f.pendingError.bind Error.thrown?).toList

def pendingValues (f : Frame) : List Value := f.returnedValues ++ f.thrownValues

/-- Every value that the frame holds, in the order in which they are let go. -/
def held (f : Frame) : List Value :=
  f.locals ++ f.stack.reverse ++ (f.shadows.reverse.map Prod.snd) ++ f.pendingValues
    ++ [f.this, f.closure]

instance : Pooled Frame where
  fresh capacity := { capacity }
  capacity f := f.capacity
  drain f := (f.held, f.cleared)

end Frame

end ScriptMachine
