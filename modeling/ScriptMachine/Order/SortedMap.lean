/-!
# Sorted maps

A finite map kept as a list of entries in ascending key order. The view of a map is its list of
entries: lookups read it, insertions and removals change it at one key, and everything that asks for
an order (first, last, next, previous) reads it off the list.
-/

set_option autoImplicit false

namespace ScriptMachine

/-- Entries in ascending key order. -/
structure SortedMap (κ ν : Type) where
  entries : List (κ × ν) := []
deriving DecidableEq, Repr, Inhabited

namespace SortedMap

variable {κ ν : Type}

def empty : SortedMap κ ν := ⟨[]⟩

def size (m : SortedMap κ ν) : Nat := m.entries.length

def isEmpty (m : SortedMap κ ν) : Bool := m.entries.isEmpty

def keys (m : SortedMap κ ν) : List κ := m.entries.map Prod.fst

def values (m : SortedMap κ ν) : List ν := m.entries.map Prod.snd

variable [Ord κ]

/-- The value at a key of a sorted list. -/
def lookup (k : κ) : List (κ × ν) → Option ν
  | [] => none
  | (k', v) :: rest => if compare k k' = .eq then some v else lookup k rest

/-- The list with a value put at a key. -/
def put (k : κ) (v : ν) : List (κ × ν) → List (κ × ν)
  | [] => [(k, v)]
  | (k', v') :: rest =>
    match compare k k' with
    | .lt => (k, v) :: (k', v') :: rest
    | .eq => (k, v) :: rest
    | .gt => (k', v') :: put k v rest

/-- The list without a key. -/
def drop (k : κ) : List (κ × ν) → List (κ × ν)
  | [] => []
  | (k', v') :: rest => if compare k k' = .eq then rest else (k', v') :: drop k rest

def get? (m : SortedMap κ ν) (k : κ) : Option ν := lookup k m.entries

def contains (m : SortedMap κ ν) (k : κ) : Bool := (m.get? k).isSome

def insert (m : SortedMap κ ν) (k : κ) (v : ν) : SortedMap κ ν := ⟨put k v m.entries⟩

def erase (m : SortedMap κ ν) (k : κ) : SortedMap κ ν := ⟨drop k m.entries⟩

def ofList (entries : List (κ × ν)) : SortedMap κ ν :=
  entries.foldl (fun m (k, v) => m.insert k v) empty

end SortedMap

def nextAbove {κ : Type} [Ord κ] (probe : κ) (keys : List κ) : Option κ :=
  keys.find? fun k => (compare probe k).isLT

def lastBelow {κ : Type} [Ord κ] (probe : κ) (keys : List κ) : Option κ :=
  (keys.takeWhile fun k => (compare k probe).isLT).getLast?

end ScriptMachine
