import ScriptMachine.Structure.Dense

/-!
# Rings

A double-ended queue addressed by integers. Keys run on from `first`; an entry removed in the middle
leaves an empty cell, and empty cells at the ends are cut off. A ring with a limit makes room at the
opposite end when it is pushed past it.

Keys are words. Sums and differences of words are compared as integers here, and the words that
become keys are the sums modulo the word size: `Ring.overflows` says when the two differ.
-/

set_option autoImplicit false

namespace ScriptMachine

/-- What is done with the keys of a layout. -/
inductive Use where
  | read (key : Key)
  | write (key : Key)
  | behind
  /-- The key before the least one is asked for. -/
  | before
  | next (key : Key)
  | prev (key : Key)
  | popFront
deriving DecidableEq, Repr

structure Ring where
  cells : Cells := #[]
  first : Int64 := 0
  live : Nat := 0
  limit : Option Nat := none
  capacity : Nat
  live_eq : live = cells.count := by rfl
deriving Repr

namespace Ring

/-- A ring is its cells and what they are held under. -/
theorem ext_cells {one two : Ring} (cells : one.cells = two.cells) (first : one.first = two.first)
    (limit : one.limit = two.limit) (capacity : one.capacity = two.capacity) : one = two := by
  obtain ⟨_, _, _, _, _, live⟩ := one
  obtain ⟨_, _, _, _, _, live'⟩ := two
  subst cells first limit capacity live live'
  rfl

theorem ext_cells_iff {one two : Ring} :
    (one.cells = two.cells ∧ one.first = two.first ∧ one.limit = two.limit ∧
      one.capacity = two.capacity) ↔ one = two := by
  constructor
  · rintro ⟨cells, first, limit, capacity⟩
    exact ext_cells cells first limit capacity
  · rintro rfl
    exact ⟨rfl, rfl, rfl, rfl⟩

instance : DecidableEq Ring := fun _ _ => decidable_of_decidable_of_iff ext_cells_iff

/-- An empty ring. -/
def vacant (capacity : Nat) : Ring := { capacity }

instance : Inhabited Ring := ⟨vacant 0⟩

def withLimit (r : Ring) (limit : Option Nat) : Ring :=
  { r with limit := limit.filter (0 < ·) }

def size (r : Ring) : Nat := r.live

/-- Number of cells, empty ones included. -/
def span (r : Ring) : Nat := r.cells.size

def stop (r : Ring) : Int := r.first.toInt + r.cells.size

def keyAt (r : Ring) (i : Nat) : Key := .int (Int64.ofInt (r.first.toInt + i))

def index? (r : Ring) : Key → Option Nat
  | .int k =>
    if r.first.toInt ≤ k.toInt ∧ k.toInt < r.stop then some (k.toInt - r.first.toInt).toNat
    else none
  | _ => none

def values (r : Ring) : List Value := r.cells.values

def entries (r : Ring) : List (Key × Value) := r.cells.entries.map fun (i, v) => (r.keyAt i, v)

/-- Whether a use of the keys computes a number that is not a word. -/
def overflows (r : Ring) : Use → Bool
  | .read key => key.int?.any fun k => decide (r.first.toInt ≤ k.toInt ∧ 2 ^ 63 ≤ r.stop)
  | .write key => key.int?.any fun k =>
    decide (2 ^ 63 ≤ r.stop ∨
      (r.cells.size ≠ 0 ∧ r.first.toInt = -(2 ^ 63) ∧ r.stop < k.toInt))
  | .behind => decide (r.cells.size ≠ 0 ∧ 2 ^ 63 ≤ r.stop)
  | .before => decide (r.cells.size ≠ 0 ∧ r.first.toInt = -(2 ^ 63))
  | .next key => key.int?.any fun k => decide (2 ^ 63 ≤ k.toInt - r.first.toInt + 1)
  | .prev key => key.int?.any fun k => decide (2 ^ 63 ≤ k.toInt - r.first.toInt)
  | .popFront => decide (r.cells.size ≠ 0 ∧ r.first.toInt = 2 ^ 63 - 1)

/-- Cuts empty cells off both ends. -/
def trimmed (r : Ring) : Ring :=
  { r with
    cells := r.cells.trimmed
    first := r.first + Int64.ofNat r.cells.skipped
    live_eq := by rw [r.live_eq, Cells.count_trimmed] }

def withoutFirst (r : Ring) : Ring :=
  { r with
    cells := r.cells.extract 1 r.cells.size
    first := r.first + 1
    live := if r.cells.occupied 0 then r.live - 1 else r.live
    live_eq := by rw [r.live_eq, Cells.count_withoutFirst] }

def withoutLast (r : Ring) : Ring :=
  { r with
    cells := r.cells.pop
    live := if r.cells.occupied (r.cells.size - 1) then r.live - 1 else r.live
    live_eq := by rw [r.live_eq, Cells.count_pop] }

def popFront (r : Ring) : Option Value × Ring :=
  if r.cells.isEmpty then (none, r) else (r.cells.at? 0, r.withoutFirst.trimmed)

def popBack (r : Ring) : Option Value × Ring :=
  if r.cells.isEmpty then (none, r)
  else (r.cells.at? (r.cells.size - 1), r.withoutLast.trimmed)

def overLimit (r : Ring) : Bool :=
  match r.limit with
  | none => false
  | some limit => decide (limit < r.live)

def append (r : Ring) (cell : Option Value) : Ring :=
  { r with
    cells := r.cells.push cell
    live := if cell.isSome then r.live + 1 else r.live
    live_eq := by rw [r.live_eq, Cells.count_push] }

def prepend (r : Ring) (value : Value) : Ring :=
  { r with
    cells := #[some value] ++ r.cells
    first := r.first - 1
    live := r.live + 1
    live_eq := by rw [r.live_eq, Cells.count_pushFront] }

/-- Adds an entry behind the last one, and evicts the first one past the limit. -/
def pushBack (r : Ring) (value : Value) : Option Value × Ring :=
  let pushed := r.append (some value)
  if pushed.overLimit then pushed.popFront else (none, pushed)

/-- Adds an entry before the first one, and evicts the last one past the limit. -/
def pushFront (r : Ring) (value : Value) : Option Value × Ring :=
  let pushed := r.prepend value
  if pushed.overLimit then pushed.popBack else (none, pushed)

def store (r : Ring) (i : Nat) (value : Value) : Ring :=
  { r with
    cells := r.cells.put i value
    live := if r.cells.occupied i then r.live else r.live + 1
    live_eq := by rw [r.live_eq, Cells.count_put] }

/-- Puts a value under a key inside the ring or next to one of its ends. An empty ring starts at any
integer. -/
def place (r : Ring) (key : Key) (value : Value) : Placement Ring :=
  match key with
  | .int k =>
    match r.index? key with
    | some i => .stored (r.cells.at? i) (r.store i value)
    | none =>
      if r.cells.isEmpty then
        let (evicted, after) := { r with first := k }.pushBack value
        .stored evicted after
      else if k.toInt = r.stop then
        let (evicted, after) := r.pushBack value
        .stored evicted after
      else if k.toInt = r.first.toInt - 1 then
        let (evicted, after) := r.pushFront value
        .stored evicted after
      else .refused
  | _ => .refused

def get? (r : Ring) (key : Key) : Option Value := (r.index? key).bind r.cells.at?

def update (r : Ring) (key : Key) (f : Value → Value) : Ring :=
  match r.index? key with
  | none => r
  | some i =>
    { r with
      cells := r.cells.update i f
      live_eq := by rw [r.live_eq, Cells.count_update] }

def vacated (r : Ring) (i : Nat) : Ring :=
  { r with
    cells := r.cells.clear i
    live := if r.cells.occupied i then r.live - 1 else r.live
    live_eq := by rw [r.live_eq, Cells.count_clear] }

def remove (r : Ring) (key : Key) : Option Value × Ring :=
  match r.get? key, r.index? key with
  | some v, some i => (some v, (r.vacated i).trimmed)
  | _, _ => (none, r)

def firstKey? (r : Ring) : Option Key :=
  if r.cells.isEmpty then none else some (.int r.first)

def lastKey? (r : Ring) : Option Key :=
  if r.cells.isEmpty then none else some (r.keyAt (r.cells.size - 1))

/-- Least key above an integer; other probes have no successor here. -/
def nextKey? (r : Ring) (key : Key) : Option Key :=
  match key with
  | .int k => (r.cells.firstFrom (k.toInt - r.first.toInt + 1).toNat).map r.keyAt
  | _ => none

/-- Greatest key below an integer; other probes have no predecessor here. -/
def prevKey? (r : Ring) (key : Key) : Option Key :=
  match key with
  | .int k => (r.cells.lastBefore (min (k.toInt - r.first.toInt).toNat r.cells.size)).map r.keyAt
  | _ => none

def drainEntries (r : Ring) : List (Key × Value) × Ring :=
  (r.entries, { r with cells := #[], live := 0, live_eq := rfl })

def rebuild (r target : Ring) (values : List Value) : Ring :=
  (Cells.refill r.cells.toList values).foldl append
    { target with first := r.first, limit := r.limit }

instance : Pooled Ring where
  fresh := vacant
  capacity r := r.capacity
  drain r := (r.values, vacant r.capacity)

end Ring

end ScriptMachine
