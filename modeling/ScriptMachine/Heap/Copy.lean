import ScriptMachine.Heap.Dispose

/-!
# Copies and structural equality

A copy of a structure or a closure is a new object. A deep copy copies what the source owns as well,
a shallow copy refers to it; pointers are copied as pointers in both. Iterators and external
payloads have no copy.

An object is out of its slot while what it owns is copied. So a chain of objects that are being
copied never meets one of them again, and is no longer than the number of slots.
-/

set_option autoImplicit false

namespace ScriptMachine.Heap

variable {H : Type}

def noCopy (kind : HeapKind) : Error := .typeMismatch ("cannot copy a value of kind " ++ kind.name)

def borrow (h : Heap H) (handle : Handle) : Except Error (Object H × Heap H) :=
  match h.object? handle with
  | some object =>
    .ok (object,
      { h with slots := h.slots.modify handle.index fun slot => { slot with object := none } })
  | none => .error (h.stale handle)

def allocLike (source : Object H) (values : List Value) : HeapM H Value := do
  let h ← get
  match source with
  | .struct s =>
    let (copy, structures) := s.rebuild h.pools.structures values
    let (v, h) := { h with pools := { h.pools with structures } }.alloc (.struct copy)
    set h
    return v
  | .callable (.script unit _) =>
    let (captures, pool) := h.pools.values.checkout values.length
    let (v, h) := { h with pools := { h.pools with values := pool } }.alloc
      (.callable (.script unit (captures.append values)))
    set h
    return v
  | .callable (.host path function) =>
    let (v, h) := h.alloc (.callable (.host path function))
    set h
    return v
  | other => throw (noCopy other.kind)

def parts : Object H → List Value
  | .struct s => s.values
  | .callable (.script _ captures) => captures.items
  | _ => []

/-- Copies values in order: an owner by `copyOwned`, anything else by sharing. The copies made so
far are disposed if one fails. -/
def copyParts (copyOwned : Value → HeapM H Value) :
    List Value → (copied : List Value) → HeapM H (List Value)
  | [], copied => return copied.reverse
  | v :: rest, copied =>
    if v.owns then do
      let copy ← (copyOwned v).onFailure (·.disposeAll copied.reverse)
      copyParts copyOwned rest (copy :: copied)
    else copyParts copyOwned rest (v.share :: copied)

def copyWithin (deep : Bool) : (fuel : Nat) → Value → HeapM H Value
  | 0, v => do throw ((← get).stale ((v.ref?.map HeapRef.handle).getD default))
  | fuel + 1, v =>
    match v.ref? with
    | none => return v.share
    | some ⟨.iterator, _⟩ => throw (noCopy .iterator)
    | some ⟨.external, _⟩ => throw (noCopy .external)
    | some ⟨_, handle⟩ => do
      let (object, h) ← (← get).borrow handle
      set h
      let copyOwned : Value → HeapM H Value :=
        if deep then copyWithin deep fuel else fun child => return child.share
      let copying : HeapM H Value := do allocLike object (← copyParts copyOwned (parts object) [])
      copying.andAlways (·.setObject handle object)

/-- Structurally identical copy that owns nothing in common with its source. -/
def deepCopy (v : Value) : HeapM H Value := do copyWithin true ((← get).slots.size + 1) v

def shallowCopy (v : Value) : HeapM H Value := copyWithin false 1 v

/-! ## Structural equality -/

def equalDepth : Nat := 64

def checkLive (h : Heap H) (v : Value) : Except Error Unit := do
  if v.ref?.isSome then
    let _ ← h.resolve v

/-- Same keys and equal children down to some depth, or the same object. Values that are not both
structures are compared by content. -/
def equalAt (h : Heap H) : (levels : Nat) → Value → Value → Except Error Bool
  | levels, a, b =>
    match h.structureOf a, h.structureOf b with
    | .ok s, .ok t =>
      if a.ref? = b.ref? then return true
      else
        match levels with
        | 0 => return false
        | levels + 1 =>
          if s.size ≠ t.size then return false
          else
            (s.entries.zip t.entries).allM fun ((k, v), (l, w)) =>
              if k = l then equalAt h levels v w else return false
    | _, _ => do
      h.checkLive a
      h.checkLive b
      return a.same b

def equal (h : Heap H) (a b : Value) : Except Error Bool := h.equalAt equalDepth a b

end ScriptMachine.Heap
