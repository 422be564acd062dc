import ScriptMachine.Pool
import ScriptMachine.Proofs.Structure.Cells
import ScriptMachine.Value.Key

/-!
# Dense rows

Integer keys from zero stored by position, beside the number of entries and the position of the last
one. A row has a cell for every position up to its capacity.
-/

set_option autoImplicit false

namespace ScriptMachine

/-- What happens when an entry is placed in a layout. -/
inductive Placement (σ : Type) where
  /-- Stored; the entry that was displaced or evicted comes back. -/
  | stored (displaced : Option Value) (after : σ)
  /-- This layout would do, with at least so many cells. -/
  | needs (capacity : Nat)
  | refused
deriving Repr

/-- The layout afterwards; it is as it was if it did not take the entry. -/
def Placement.after {σ : Type} (before : σ) : Placement σ → σ
  | stored _ after => after
  | _ => before

structure Dense where
  cells : Cells
  len : Nat
  high : Option Nat
  len_eq : len = cells.count
  high_eq : high = cells.last?
deriving DecidableEq, Repr

namespace Dense

/-- The least integer key that is too large for any dense row. -/
def limit : Nat := 2 ^ 16

def index? : Key → Option Nat
  | .int k => if 0 ≤ k.toInt ∧ k.toInt < limit then some k.toInt.toNat else none
  | _ => none

def keyAt (i : Nat) : Key := .int (Int64.ofNat i)

def capacity (d : Dense) : Nat := d.cells.size

def size (d : Dense) : Nat := d.len

def values (d : Dense) : List Value := d.cells.values

def entries (d : Dense) : List (Key × Value) := d.cells.entries.map fun (i, v) => (keyAt i, v)

def vacant (capacity : Nat) : Dense where
  cells := Array.replicate capacity none
  len := 0
  high := none
  len_eq := ((Cells.count_eq_zero_iff _).mpr (Cells.at?_vacant capacity)).symm
  high_eq := ((Cells.last?_eq_none_iff _).mpr (Cells.at?_vacant capacity)).symm

instance : Inhabited Dense := ⟨vacant 0⟩

def store (d : Dense) (i : Nat) (value : Value) : Dense where
  cells := d.cells.put i value
  len := if d.cells.occupied i then d.len else d.len + 1
  high := if d.high.all (· < i) then some i else d.high
  len_eq := by rw [d.len_eq, Cells.count_put]
  high_eq := by rw [d.high_eq, Cells.last?_put]

/-- Stores values at positions one after the other. -/
def storeAll (d : Dense) (entries : List (Nat × Value)) : Dense :=
  entries.foldl (fun d (i, v) => d.store i v) d

/-- Puts a value under a key. A row that is too short asks for the position or for twice its
capacity, whichever is more. -/
def place (d : Dense) (key : Key) (value : Value) : Placement Dense :=
  match index? key with
  | none => .refused
  | some i =>
    if d.capacity ≤ i then .needs (max (i + 1) (2 * d.capacity))
    else .stored (d.cells.at? i) (d.store i value)

def get? (d : Dense) (key : Key) : Option Value := (index? key).bind d.cells.at?

def update (d : Dense) (key : Key) (f : Value → Value) : Dense :=
  match index? key with
  | none => d
  | some i =>
    { d with
      cells := d.cells.update i f
      len_eq := by rw [d.len_eq, Cells.count_update]
      high_eq := by rw [d.high_eq, Cells.last?_update] }

def vacated (d : Dense) (i : Nat) : Dense where
  cells := d.cells.clear i
  len := if d.cells.occupied i then d.len - 1 else d.len
  high := if d.high = some i then (d.cells.clear i).lastBefore i else d.high
  len_eq := by rw [d.len_eq, Cells.count_clear]
  high_eq := by rw [d.high_eq, Cells.last?_clear]

def remove (d : Dense) (key : Key) : Option Value × Dense :=
  match d.get? key, index? key with
  | some v, some i => (some v, d.vacated i)
  | _, _ => (none, d)

def firstKey? (d : Dense) : Option Key :=
  if d.len = 0 then none else (d.cells.firstFrom 0).map keyAt

def lastKey? (d : Dense) : Option Key := d.high.map keyAt

/-- Least key above an integer; other probes have no successor here. -/
def nextKey? (d : Dense) (key : Key) : Option Key :=
  match key, d.high with
  | .int k, some high =>
    let start := (k.toInt + 1).toNat
    (d.cells.searchUp start (high + 1 - start)).map keyAt
  | _, _ => none

/-- Greatest key below an integer; other probes have no predecessor here. -/
def prevKey? (d : Dense) (key : Key) : Option Key :=
  match key with
  | .int k => (d.cells.lastBefore (min k.toInt.toNat d.cells.size)).map keyAt
  | _ => none

def drainEntries (d : Dense) : List (Key × Value) × Dense := (d.entries, vacant d.capacity)

def rebuild (d target : Dense) (values : List Value) : Dense :=
  target.storeAll (Cells.entries (Cells.refill d.cells.toList values).toArray)

instance : Pooled Dense where
  fresh := vacant
  capacity := capacity
  drain d :=
    if held : 0 < d.len then (d.values, vacant d.capacity)
    else
      have empty : d.cells.count = 0 := by
        have := d.len_eq
        omega
      ([], {
        cells := d.cells
        len := 0
        high := none
        len_eq := empty.symm
        high_eq := ((Cells.last?_eq_none_iff _).mpr ((Cells.count_eq_zero_iff _).mp empty)).symm })

end Dense

end ScriptMachine
