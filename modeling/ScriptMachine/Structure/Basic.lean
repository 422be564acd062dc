import ScriptMachine.Structure.Ring
import ScriptMachine.Structure.Table

/-!
# Structures

A structure is a map from keys to values. It holds its entries in the most specific layout that fits
the keys so far, and moves them into a more general one when a key does not fit: a dense row becomes
a table of texts while it is empty, and otherwise a mixed table; a mixed table takes every key and
stays mixed. Storage comes from pools and goes back to them.
-/

set_option autoImplicit false

namespace ScriptMachine

/-- The four ways to hold entries. -/
inductive Layout where
  | dense | keyed | mixed | ring
deriving DecidableEq, Repr, Inhabited

def Layout.name : Layout → String
  | dense => "Dense"
  | keyed => "Keyed"
  | mixed => "Mixed"
  | ring => "Ring"

/-- Entries in one of the layouts. -/
inductive Storage where
  | dense (d : Dense)
  | keyed (t : Table String)
  | mixed (t : Table Key)
  | ring (r : Ring)
deriving DecidableEq, Repr, Inhabited

structure StructurePools where
  dense : Pool Dense := {}
  keyed : Pool (Table String) := {}
  mixed : Pool (Table Key) := {}
  ring : Pool Ring := {}
  /-- How often a structure was grown or moved to another layout. -/
  reshapings : Nat := 0
deriving Repr, Inhabited

/-- A map that adapts its layout. -/
structure Structure where
  storage : Storage
  migrations : Nat := 0
deriving DecidableEq, Repr, Inhabited

namespace Storage

def layout : Storage → Layout
  | dense _ => .dense
  | keyed _ => .keyed
  | mixed _ => .mixed
  | ring _ => .ring

def size : Storage → Nat
  | dense d => d.size
  | keyed t => t.size
  | mixed t => t.size
  | ring r => r.size

def place (s : Storage) (key : Key) (value : Value) : Placement Storage :=
  match s, key with
  | dense d, key =>
    match d.place key value with
    | .stored old after => .stored old (dense after)
    | .needs capacity => .needs capacity
    | .refused => .refused
  | keyed t, .str k =>
    let (old, after) := t.insert k value
    .stored old (keyed after)
  | keyed _, _ => .refused
  | mixed t, key =>
    let (old, after) := t.insert key value
    .stored old (mixed after)
  | ring r, key =>
    match r.place key value with
    | .stored old after => .stored old (ring after)
    | .needs capacity => .needs capacity
    | .refused => .refused

def get? : Storage → Key → Option Value
  | dense d, key => d.get? key
  | keyed t, .str k => t.get? k
  | keyed _, _ => none
  | mixed t, key => t.get? key
  | ring r, key => r.get? key

def update (s : Storage) (key : Key) (f : Value → Value) : Storage :=
  match s, key with
  | dense d, key => dense (d.update key f)
  | keyed t, .str k => keyed (t.update k f)
  | keyed t, _ => keyed t
  | mixed t, key => mixed (t.update key f)
  | ring r, key => ring (r.update key f)

def remove (s : Storage) (key : Key) : Option Value × Storage :=
  match s, key with
  | dense d, key => (d.remove key).map id dense
  | keyed t, .str k => (t.remove k).map id keyed
  | keyed t, _ => (none, keyed t)
  | mixed t, key => (t.remove key).map id mixed
  | ring r, key => (r.remove key).map id ring

def entries : Storage → List (Key × Value)
  | dense d => d.entries
  | keyed t => t.entries.map fun (k, v) => (.str k, v)
  | mixed t => t.entries
  | ring r => r.entries

/-- Values in the order that `Structure.rebuild` takes them, which for a table says nothing about
its keys. -/
def values : Storage → List Value
  | dense d => d.values
  | keyed t => t.values
  | mixed t => t.values
  | ring r => r.values

def widened (s : Storage) (key : Key) : Layout :=
  match s, key with
  | dense d, .str _ => if d.size = 0 then .keyed else .mixed
  | _, _ => .mixed

/-- Gives the storage back; the values it held are answered. -/
def release (s : Storage) (pools : StructurePools) : List Value × StructurePools :=
  match s with
  | dense d => (pools.dense.checkin d).map id fun p => { pools with dense := p }
  | keyed t => (pools.keyed.checkin t).map id fun p => { pools with keyed := p }
  | mixed t => (pools.mixed.checkin t).map id fun p => { pools with mixed := p }
  | ring r => (pools.ring.checkin r).map id fun p => { pools with ring := p }

def emptied : Storage → Storage
  | dense d => dense d.drainEntries.2
  | keyed t => keyed t.drainEntries.2
  | mixed t => mixed t.drainEntries.2
  | ring r => ring r.drainEntries.2

end Storage

namespace Structure

def new (pools : StructurePools) (capacity : Nat) : Structure × StructurePools :=
  let (d, pool) := pools.dense.checkout (min capacity Pool.maxBucket)
  ({ storage := .dense d }, { pools with dense := pool })

def queue (pools : StructurePools) (limit : Nat) : Structure × StructurePools :=
  let (r, pool) := pools.ring.checkout (min limit Pool.maxBucket)
  ({ storage := .ring (r.withLimit (some limit)) }, { pools with ring := pool })

def layout (s : Structure) : Layout := s.storage.layout

def size (s : Structure) : Nat := s.storage.size

def isEmpty (s : Structure) : Bool := s.size == 0

def entries (s : Structure) : List (Key × Value) := s.storage.entries

def values (s : Structure) : List Value := s.storage.values

def get? (s : Structure) (key : Key) : Option Value := s.storage.get? key

def contains (s : Structure) (key : Key) : Bool := (s.get? key).isSome

/-- Whether one of these uses of the keys computes a number that is not a word. -/
def overflows (s : Structure) (uses : List Use) : Bool :=
  match s.storage with
  | .ring r => uses.any r.overflows
  | _ => false

def update (s : Structure) (key : Key) (f : Value → Value) : Structure :=
  { s with storage := s.storage.update key f }

def attach (v : Value) : Value := v.withFlags { child := true }

def detach (v : Value) : Value := { v with flags := { v.flags with child := false } }

/-- Moves the entries of a dense row into a larger one. Every entry has room there, so none is lost
where the row would not take it. -/
def grow (s : Structure) (pools : StructurePools) (needed : Nat) : Structure × StructurePools :=
  match s.storage with
  | .dense d =>
    let (larger, pool) := pools.dense.checkout needed
    let (entries, drained) := d.drainEntries
    let larger := entries.foldl (fun larger (k, v) => (larger.place k v).after larger) larger
    let (_, pool) := pool.checkin drained
    ({ s with storage := .dense larger },
     { pools with dense := pool, reshapings := pools.reshapings + 1 })
  | _ => (s, pools)

def texts (entries : List (Key × Value)) : List (String × Value) :=
  entries.filterMap fun (k, v) => k.str?.map (·, v)

def migrate (s : Structure) (pools : StructurePools) (target : Layout) :
    Structure × StructurePools :=
  let entries := s.entries
  let (storage, pools) : Storage × StructurePools :=
    match target with
    | .keyed =>
      let (t, pool) := pools.keyed.checkout entries.length
      (.keyed (t.insertAll (texts entries)), { pools with keyed := pool })
    | _ =>
      let (t, pool) := pools.mixed.checkout entries.length
      (.mixed (t.insertAll entries), { pools with mixed := pool })
  let (_, pools) := s.storage.emptied.release pools
  ({ storage, migrations := s.migrations + 1 }, { pools with reshapings := pools.reshapings + 1 })

def reshape (s : Structure) (pools : StructurePools) (key : Key) (needed : Option Nat) :
    Structure × StructurePools :=
  match needed with
  | some capacity => s.grow pools capacity
  | none => s.migrate pools (s.storage.widened key)

/-- Attempts that `set` makes before it gives up; one reshaping is always enough. -/
def placeAttempts : Nat := 4

def placeWithin (s : Structure) (pools : StructurePools) (key : Key) (value : Value) :
    (attempts : Nat) → Option Value × Structure × StructurePools
  | 0 => (some value, s, pools)
  | attempts + 1 =>
    match s.storage.place key value with
    | .stored displaced after => (displaced, { s with storage := after }, pools)
    | .needs capacity =>
      let (s, pools) := s.reshape pools key (some capacity)
      placeWithin s pools key value attempts
    | .refused =>
      let (s, pools) := s.reshape pools key none
      placeWithin s pools key value attempts

/-- Puts a value under a key. The value it displaces, or that a full queue evicts, comes back. -/
def set (s : Structure) (pools : StructurePools) (key : Key) (value : Value) :
    Option Value × Structure × StructurePools :=
  let (displaced, s, pools) := s.placeWithin pools key (attach value) placeAttempts
  (displaced.map detach, s, pools)

def delete (s : Structure) (key : Key) : Option Value × Structure :=
  let (removed, storage) := s.storage.remove key
  (removed.map detach, { s with storage })

/-- Gives the storage back; the values it held are answered. -/
def recycle (s : Structure) (pools : StructurePools) : List Value × StructurePools :=
  s.storage.release pools

def rebuild (s : Structure) (pools : StructurePools) (values : List Value) :
    Structure × StructurePools :=
  let values := values.map attach
  match s.storage with
  | .dense d =>
    let (target, pool) := pools.dense.checkout d.capacity
    ({ s with storage := .dense (d.rebuild target values) }, { pools with dense := pool })
  | .keyed t =>
    let (target, pool) := pools.keyed.checkout t.size
    ({ s with storage := .keyed (t.rebuild target values) }, { pools with keyed := pool })
  | .mixed t =>
    let (target, pool) := pools.mixed.checkout t.size
    ({ s with storage := .mixed (t.rebuild target values) }, { pools with mixed := pool })
  | .ring r =>
    let (target, pool) := pools.ring.checkout r.span
    ({ s with storage := .ring (r.rebuild target values) }, { pools with ring := pool })

end Structure

end ScriptMachine
