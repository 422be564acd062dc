import ScriptMachine.Heap.Basic

/-!
# Disposal

Disposing an owner frees its object and everything that the object owns in turn. Pointers are never
followed, and an owner whose object is already gone has no effect. Every round frees one slot, so as
many rounds as there are slots are enough.
-/

set_option autoImplicit false

namespace ScriptMachine

namespace Object

variable {H : Type}

/-- The values that an object holds, in the order in which they are let go. -/
def held : Object H → List Value
  | .struct s => s.values
  | .callable (.script _ captures) => captures.items
  | .callable (.host _ _) => []
  | .iterator it =>
    it.key :: it.current ++
      match it.source with
      | .walk target _ => [target]
      | .generator (some frame) => frame.held
      | .generator none => []
  | .external _ => []

def recycle (object : Object H) (pools : Pools) : Pools :=
  match object with
  | .struct s => { pools with structures := (s.recycle pools.structures).2 }
  | .callable (.script _ captures) => { pools with values := (pools.values.checkin captures).2 }
  | .callable (.host _ _) => pools
  | .iterator it =>
    match it.source with
    | .generator (some frame) => { pools with frames := (pools.frames.checkin frame).2 }
    | _ => pools
  | .external _ => pools

end Object

namespace Heap

variable {H : Type}

def freeSlot (h : Heap H) (handle : Handle) : Option (Object H × Heap H) :=
  match h.slots[handle.index]? with
  | some slot =>
    if slot.generation = handle.generation then
      slot.object.map fun object =>
        let retires := decide (lastGeneration ≤ slot.generation)
        let generation := if retires then slot.generation else slot.generation + 1
        (object,
         { h with
           slots := h.slots.modify handle.index fun _ => { generation, object := none }
           free := if retires then h.free else handle.index :: h.free
           retired := if retires then h.retired + 1 else h.retired
           live := h.live - 1 })
    else none
  | none => none

/-- The next owner in a list of work whose object is still there: its object, the work left over,
and the heap without it. -/
def freeNext (h : Heap H) : List Value → Option (Object H × List Value × Heap H)
  | [] => none
  | v :: rest =>
    match v.owned? with
    | none => freeNext h rest
    | some ref =>
      match h.freeSlot ref.handle with
      | some (object, h) => some (object, rest, h)
      | none => freeNext h rest

def sweep (h : Heap H) (work : List Value) : (rounds : Nat) → Heap H
  | 0 => h
  | rounds + 1 =>
    match h.freeNext work with
    | none => h
    | some (object, rest, h) =>
      { h with pools := object.recycle h.pools }.sweep (object.held.reverse ++ rest) rounds

def dispose (h : Heap H) (v : Value) : Heap H :=
  if v.owns then h.sweep [v] h.slots.size else h

def disposeAll (h : Heap H) (vs : List Value) : Heap H := vs.foldl dispose h

def discard (v : Value) : HeapM H Unit := modify (·.dispose v)

def discardAll (vs : List Value) : HeapM H Unit := modify (·.disposeAll vs)

def release (v : Value) : HeapM H Unit := do
  match v.ref? with
  | none => return ()
  | some ref =>
    if v.owns then
      let h ← get
      if (h.object? ref.handle).isNone then throw (h.stale ref.handle)
      discard v
    else throw (.ofFault .unownedRelease)

/-- Disposes all values of a frame but the locals that the mask selects, which come back in slot
order. -/
def disposeFrame (h : Heap H) (frame : Frame) (mask : UInt64) : List Value × Heap H :=
  let keeps (slot : Nat) : Bool := decide (slot < 64) && mask.toNat.testBit slot
  let indexed := frame.locals.zipIdx
  let kept := (indexed.filter fun (_, slot) => keeps slot).map Prod.fst
  let dropped := (indexed.filter fun (_, slot) => !keeps slot).map Prod.fst
  (kept, (h.disposeAll dropped).disposeAll { frame with locals := [] }.held)

def retire (h : Heap H) (frame : Frame) (mask : UInt64) : List Value × Heap H :=
  let (kept, h) := h.disposeFrame frame mask
  let (_, frames) := h.pools.frames.checkin frame.cleared
  (kept, { h with pools := { h.pools with frames } })

end Heap

end ScriptMachine
