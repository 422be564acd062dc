import ScriptMachine.Effect
import ScriptMachine.Heap.Object

/-!
# The heap

A table of slots. Each slot has a generation that grows whenever its object is freed, so a handle
taken before is recognised as stale. Freed slots are used again, last one first; a slot whose
generation cannot grow any more is retired.

Operations that may fail are effects on the heap.
-/

set_option autoImplicit false

namespace ScriptMachine

structure Slot (H : Type) where
  generation : Nat := 0
  object : Option (Object H) := none
deriving Repr

/-- Every pool that the heap draws from. -/
structure Pools where
  structures : StructurePools := {}
  values : Pool Buffer := {}
  frames : Pool Frame := {}
deriving Repr, Inhabited

structure Heap (H : Type) where
  slots : Array (Slot H) := #[]
  /-- Slots that can be used again, the next one first. -/
  free : List Nat := []
  retired : Nat := 0
  live : Nat := 0
  pools : Pools := {}
deriving Repr

abbrev HeapM (H : Type) := Effect (Heap H)

namespace Heap

variable {H : Type}

instance : Inhabited (Heap H) := ⟨{}⟩

/-- The last generation of a slot. -/
def lastGeneration : Nat := 2 ^ 32 - 1

/-! ## Allocation -/

/-- Puts an object into a slot and answers its owner. -/
def alloc (h : Heap H) (object : Object H) : Value × Heap H :=
  match h.free with
  | index :: free =>
    let generation := (h.slots[index]?.map Slot.generation).getD 0
    (.owned ⟨object.kind, ⟨index, generation⟩⟩,
     { h with
       slots := h.slots.modify index fun slot => { slot with object := some object }
       free
       live := h.live + 1 })
  | [] =>
    (.owned ⟨object.kind, ⟨h.slots.size, 0⟩⟩,
     { h with slots := h.slots.push { object := some object }, live := h.live + 1 })

def allocStructure (h : Heap H) (capacity : Nat) : Value × Heap H :=
  let (s, structures) := Structure.new h.pools.structures capacity
  { h with pools := { h.pools with structures } }.alloc (.struct s)

def allocQueue (h : Heap H) (limit : Nat) : Value × Heap H :=
  let (s, structures) := Structure.queue h.pools.structures limit
  { h with pools := { h.pools with structures } }.alloc (.struct s)

def allocExternal (h : Heap H) (e : External) : Value × Heap H := h.alloc (.external e)

/-! ## Looking objects up -/

/-- Access through a handle whose object is gone. -/
def stale (h : Heap H) (handle : Handle) : Error :=
  let current := (h.slots[handle.index]?.map Slot.generation).getD 0
  .ofFault (.stalePointer handle.index handle.generation current)

/-- The object that a handle names, while it lives. -/
def object? (h : Heap H) (handle : Handle) : Option (Object H) :=
  match h.slots[handle.index]? with
  | some slot => if slot.generation = handle.generation then slot.object else none
  | none => none

def object (h : Heap H) (handle : Handle) : Except Error (Object H) :=
  match h.object? handle with
  | some o => .ok o
  | none => .error (h.stale handle)

/-- Whether a reference still names the object it was taken from. -/
def isLive (h : Heap H) (v : Value) : Bool :=
  match v.ref? with
  | some ref => (h.object? ref.handle).isSome
  | none => false

def resolve (h : Heap H) (v : Value) : Except Error (Object H) :=
  match v.ref? with
  | some ref => h.object ref.handle
  | none => .error (.expected "reference" v)

def handleOf (v : Value) (kind : HeapKind) : Except Error Handle :=
  match v.ref? with
  | some ref => if ref.kind = kind then .ok ref.handle else .error (.expected kind.name v)
  | none => .error (.expected kind.name v)

def structureOf (h : Heap H) (v : Value) : Except Error Structure := do
  match ← h.object (← handleOf v .struct) with
  | .struct s => return s
  | _ => throw (.expected "struct" v)

def structureFor (h : Heap H) (v : Value) (uses : Structure → List Use) :
    Except Error Structure := do
  let s ← h.structureOf v
  if s.overflows (uses s) then throw (.ofPanic .overflow)
  return s

def callableOf (h : Heap H) (v : Value) : Except Error (Callable H) := do
  match ← h.object (← handleOf v .callable) with
  | .callable c => return c
  | _ => throw (.expected "callable" v)

def externalOf (h : Heap H) (v : Value) : Except Error External := do
  match ← h.object (← handleOf v .external) with
  | .external e => return e
  | _ => throw (.expected "external" v)

def iteratorAt (h : Heap H) (handle : Handle) : Except Error Iterator := do
  match ← h.object handle with
  | .iterator it => return it
  | _ => throw (.typeMismatch "expected iterator")

/-! ## Changing objects -/

def setObject (h : Heap H) (handle : Handle) (object : Object H) : Heap H :=
  { h with slots := h.slots.modify handle.index fun slot => { slot with object := some object } }

/-- Changes the structure that a value refers to; storage comes from the pools. -/
def changeStructure {α : Type} (v : Value) (uses : Structure → List Use)
    (f : Structure → StructurePools → α × Structure × StructurePools) : HeapM H α := do
  let h ← get
  let s ← h.structureFor v uses
  let handle ← handleOf v .struct
  let (answer, s, structures) := f s h.pools.structures
  set { h.setObject handle (.struct s) with pools := { h.pools with structures } }
  return answer

def readStructure {α : Type} (v : Value) (uses : Structure → List Use)
    (f : Structure → α × Structure) : HeapM H α :=
  changeStructure v uses fun s pools =>
    let (answer, s) := f s
    (answer, s, pools)

def changeIterator {α : Type} (handle : Handle) (f : Iterator → α × Iterator) : HeapM H α := do
  let h ← get
  let it ← h.iteratorAt handle
  let (answer, it) := f it
  set (h.setObject handle (.iterator it))
  return answer

end Heap

end ScriptMachine
