import ScriptMachine.Heap.Dispose

/-!
# Iterators on the heap

Opening an iterator over a structure, moving it along the keys in order, and reading its current
entry. A walk asks the structure for the key after the last one each time, so the structure may
change in between. Generators are moved on by running their frame, which is not done here.
-/

set_option autoImplicit false

namespace ScriptMachine.Heap

variable {H : Type}

def iteratorHandle (v : Value) : Except Error Handle := handleOf v .iterator

/-- An iterator over a value. An iterator is its own iterator; a structure gets a walk, which owns
the structure from then on if the value does. -/
def openIterator (v : Value) : HeapM H Value := do
  match v.ref? with
  | some ⟨.iterator, _⟩ => return v
  | some ⟨.struct, _⟩ =>
    match (← get).structureOf v with
    | .error e =>
      discard v
      throw e
    | .ok _ =>
      let (it, h) := (← get).alloc (.iterator (.overStructure v))
      set h
      return it
  | _ =>
    discard v
    throw (.expected "iterable" v)

def keyAfter (position : Option Key) (s : Structure) : Option Key × Structure :=
  match position with
  | none => s.firstKey?
  | some key => s.nextKey? key

/-- The uses of keys when a walk goes on: the next key is looked for, and its entry is read. -/
def stepUses (position : Option Key) (s : Structure) : List Use :=
  (position.map Use.next).toList ++ ((keyAfter position s).1.map Use.read).toList

def entryAfter (target : Value) (position : Option Key) : HeapM H (Option (Key × Value)) :=
  readStructure target (stepUses position) fun s =>
    let (key, s) := keyAfter position s
    (key.map fun key => (key, ((s.get? key).map Value.share).getD .null), s)

def publishNext (handle : Handle) (target : Value) (position : Option Key) : HeapM H Bool := do
  let next ← entryAfter target position
  let old ← changeIterator handle fun it =>
    match next with
    | some (key, v) => { it with source := .walk target (.after key) }.publish key.toValue [v]
    | none => it.finish
  discardAll old
  return next.isSome

def advanceWalk (handle : Handle) : HeapM H Bool := do
  let it ← (← get).iteratorAt handle
  if it.state = .exhausted then return false
  match it.source with
  | .walk target .start => publishNext handle target none
  | .walk target (.after key) => publishNext handle target (some key)
  | .walk _ .done => return false
  | .generator _ => throw (.typeMismatch "generator advanced as a walk")

inductive Advanced where
  | entry
  | ended
  /-- The frame of the generator has to run. -/
  | generator (handle : Handle)
deriving DecidableEq, Repr, Inhabited

def advanceIterator (v : Value) : HeapM H Advanced := do
  let handle ← iteratorHandle v
  let it ← (← get).iteratorAt handle
  if it.isGenerator then
    return if it.state = .exhausted then .ended else .generator handle
  else
    return if ← advanceWalk handle then .entry else .ended

def currentEntry (h : Heap H) (v : Value) (key : Bool) : Except Error Value := do
  let it ← h.iteratorAt (← iteratorHandle v)
  return if key then it.key.share else (it.current.head?.map Value.share).getD .null

/-- Ends a generator and lets its current entry go. An iterator that is gone needs nothing. -/
def exhaust (h : Heap H) (handle : Handle) : Heap H :=
  match h.iteratorAt handle with
  | .ok it =>
    let (old, it) := it.finish
    (h.setObject handle (.iterator it)).disposeAll old
  | .error _ => h

end ScriptMachine.Heap
