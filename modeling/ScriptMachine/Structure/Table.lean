import ScriptMachine.Order.SortedMap
import ScriptMachine.Pool

/-!
# Tables

A map from keys to values with an ordered index of its keys. Adding or removing a key makes the
index stale, and any ordered reading brings it up to date; overwriting keeps it.
-/

set_option autoImplicit false

namespace ScriptMachine

/-- A map with a lazily ordered index. -/
structure Table (κ : Type) where
  map : SortedMap κ Value := {}
  /-- The keys in order, unless the index is stale. -/
  index : Option (List κ) := some []
  capacity : Nat
deriving DecidableEq, Repr, Inhabited

namespace Table

variable {κ : Type}

def size (t : Table κ) : Nat := t.map.size

def isEmpty (t : Table κ) : Bool := t.map.isEmpty

def indexed (t : Table κ) : Bool := t.index.isSome

def entries (t : Table κ) : List (κ × Value) := t.map.entries

def values (t : Table κ) : List Value := t.map.values

def ordered {α : Type} (t : Table κ) (read : List κ → α) : α × Table κ :=
  let keys := t.index.getD t.map.keys
  (read keys, { t with index := some keys })

def firstKey? (t : Table κ) : Option κ × Table κ := t.ordered List.head?

def lastKey? (t : Table κ) : Option κ × Table κ := t.ordered List.getLast?

/-- Keys in ascending order. -/
def keys (t : Table κ) : List κ × Table κ := t.ordered id

def drainEntries (t : Table κ) : List (κ × Value) × Table κ :=
  (t.entries, { t with map := {}, index := some [] })

instance : Pooled (Table κ) where
  fresh capacity := { capacity }
  capacity t := t.capacity
  drain t := (t.values, { t with map := {}, index := some [] })

variable [Ord κ]

def nextKey? (t : Table κ) (probe : κ) : Option κ × Table κ := t.ordered (nextAbove probe)

def prevKey? (t : Table κ) (probe : κ) : Option κ × Table κ := t.ordered (lastBelow probe)

def get? (t : Table κ) (key : κ) : Option Value := t.map.get? key

/-- Puts a value under a key; the value that was there comes back. -/
def insert (t : Table κ) (key : κ) (value : Value) : Option Value × Table κ :=
  let old := t.get? key
  (old, { t with
    map := t.map.insert key value
    index := if old.isSome then t.index else none })

/-- Changes the value under a key in place. -/
def update (t : Table κ) (key : κ) (f : Value → Value) : Table κ :=
  match t.get? key with
  | none => t
  | some v => { t with map := t.map.insert key (f v) }

/-- Takes the entry under a key out. -/
def remove (t : Table κ) (key : κ) : Option Value × Table κ :=
  match t.get? key with
  | none => (none, t)
  | some v => (some v, { t with map := t.map.erase key, index := none })

def insertAll (t : Table κ) (entries : List (κ × Value)) : Table κ :=
  entries.foldl (fun t (k, v) => (t.insert k v).2) t

def rebuild (t target : Table κ) (values : List Value) : Table κ :=
  target.insertAll (t.map.keys.zip values)

end Table

end ScriptMachine
