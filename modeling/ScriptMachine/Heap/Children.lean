import ScriptMachine.Heap.Dispose

/-!
# Entries of structures

Reading and changing the entries of a structure through a value that refers to it. Whoever writes
gives the value away: it is stored, or disposed if the write fails. A value that an entry held
before is disposed as well.
-/

set_option autoImplicit false

namespace ScriptMachine.Heap

variable {H : Type}

def setChildKey (target : Value) (key : Key) (value : Value) : HeapM H Unit := do
  if value.owns && value.ref? == target.ref? then
    discard value
    throw (.typeMismatch "a structure cannot own itself")
  match (← get).structureFor target fun _ => [.write key] with
  | .error e =>
    discard value
    throw e
  | .ok _ =>
    let displaced ← changeStructure target (fun _ => [.write key]) fun s pools =>
      s.set pools key value
    discardAll displaced.toList

def setChild (target key value : Value) : HeapM H Unit := do
  match Key.ofValue key with
  | .error e =>
    discard value
    throw e
  | .ok key => setChildKey target key value

def lookupUses (key : Value) : List Use :=
  match Key.ofValue key with
  | .ok key => [.read key]
  | .error _ => []

/-- A share of an entry. A key that is missing, or that no structure can hold, reads as `null`. -/
def getChild (h : Heap H) (target key : Value) : Except Error Value := do
  let s ← h.structureFor target fun _ => lookupUses key
  match Key.ofValue key with
  | .ok key => return ((s.get? key).map Value.share).getD .null
  | .error _ => return .null

def hasChild (h : Heap H) (target key : Value) : Except Error Bool := do
  let s ← h.structureFor target fun _ => lookupUses key
  match Key.ofValue key with
  | .ok key => return s.contains key
  | .error _ => return false

def deleteChild (target key : Value) : HeapM H Value :=
  readStructure target (fun _ => lookupUses key) fun s =>
    match Key.ofValue key with
    | .ok key =>
      let (removed, s) := s.delete key
      (removed.getD .null, s)
    | .error _ => (.null, s)

def endUses (front : Bool) : List Use := [if front then .before else .behind]

/-- Puts a value behind the greatest integer key, or before the least one. -/
def append (target value : Value) (front : Bool) : HeapM H Unit := do
  match (← get).structureFor target fun _ => endUses front with
  | .error e =>
    discard value
    throw e
  | .ok _ =>
    let key ← readStructure target (fun _ => endUses front) fun s =>
      if front then s.prependKey else s.appendKey
    setChildKey target key value

/-- Characters of a text, or entries of a structure. -/
def length (h : Heap H) (v : Value) : Except Error Nat := do
  match v.content with
  | .str s => return s.length
  | _ => return (← h.structureOf v).size

def layout (h : Heap H) (v : Value) : Except Error Layout := do return (← h.structureOf v).layout

def popEnd (target : Value) (front : Bool) : HeapM H Value :=
  readStructure target (fun _ => if front then [.popFront] else []) fun s =>
    let (removed, s) := if front then s.popFront else s.popBack
    (removed.getD .null, s)

def endKey (target : Value) (first : Bool) : HeapM H Value :=
  readStructure target (fun _ => if first then [] else [.behind]) fun s =>
    let (key, s) := if first then s.firstKey? else s.lastKey?
    ((key.map Key.toValue).getD .null, s)

end ScriptMachine.Heap
