import ScriptMachine.Value.Basic

/-!
# Rows of cells

A row of cells, some of them empty, is the storage of the two positional layouts. The functions here
search a row, count it, and cut empty cells off its ends.
-/

set_option autoImplicit false

namespace ScriptMachine

abbrev Cells := Array (Option Value)

namespace Cells

def at? (cells : Cells) (i : Nat) : Option Value := (cells[i]?).join

def occupied (cells : Cells) (i : Nat) : Bool := (cells.at? i).isSome

def values (cells : Cells) : List Value := cells.toList.filterMap id

/-- Number of occupied cells. -/
def count (cells : Cells) : Nat := cells.values.length

/-- Values with their positions, in order. -/
def entries (cells : Cells) : List (Nat × Value) :=
  cells.toList.zipIdx.filterMap fun (cell, i) => cell.map (i, ·)

/-- First occupied position among the `length` positions from `i` on. -/
def searchUp (cells : Cells) (i : Nat) : (length : Nat) → Option Nat
  | 0 => none
  | length + 1 => if cells.occupied i then some i else searchUp cells (i + 1) length

def firstFrom (cells : Cells) (i : Nat) : Option Nat := searchUp cells i (cells.size - i)

def lastBefore (cells : Cells) : (i : Nat) → Option Nat
  | 0 => none
  | i + 1 => if cells.occupied i then some i else lastBefore cells i

def last? (cells : Cells) : Option Nat := cells.lastBefore cells.size

def withoutTail (cells : Cells) : Cells :=
  match cells.last? with
  | none => #[]
  | some last => cells.extract 0 (last + 1)

def skipped (cells : Cells) : Nat := (cells.firstFrom 0).getD cells.size

def trimmed (cells : Cells) : Cells :=
  withoutTail (cells.extract cells.skipped cells.size)

/-- The row with a value at a position, lengthened by empty cells if needed. -/
def put (cells : Cells) (i : Nat) (v : Value) : Cells :=
  if i < cells.size then cells.setIfInBounds i (some v)
  else (cells ++ Array.replicate (i - cells.size) none).push (some v)

def clear (cells : Cells) (i : Nat) : Cells := cells.setIfInBounds i none

def update (cells : Cells) (i : Nat) (f : Value → Value) : Cells :=
  cells.modify i (Option.map f)

/-- Cells of the same shape, filled with other values in order. A value that is missing leaves its
cell empty. -/
def refill : List (Option Value) → List Value → List (Option Value)
  | [], _ => []
  | none :: rest, values => none :: refill rest values
  | some _ :: rest, v :: values => some v :: refill rest values
  | some _ :: rest, [] => none :: refill rest []

end Cells

end ScriptMachine
