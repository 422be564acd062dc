import ScriptMachine.Value.Basic

/-!
# Pools

A pool keeps emptied objects for later use. Idle objects lie in buckets by capacity, which are the
powers of two from 4 to 4096: a request is rounded up to a bucket, a returned object is rounded down
to one, so what a bucket hands out is always large enough. Requests and objects outside that range
go past the pool.
-/

set_option autoImplicit false

namespace ScriptMachine

class Pooled (α : Type) where
  fresh : (capacity : Nat) → α
  /-- Capacity that decides the bucket. -/
  capacity : α → Nat
  /-- The values held, in order, and the object without them. -/
  drain : α → List Value × α

structure PoolStats where
  fresh : Nat := 0
  recycled : Nat := 0
  returned : Nat := 0
  bypassed : Nat := 0
deriving DecidableEq, Repr, Inhabited

namespace Pool

def minBucket : Nat := 4

def maxBucket : Nat := 4096

def bucketCount : Nat := 11

def bucketDepth : Nat := 64

def sizeAt (bucket : Nat) : Nat := 2 ^ (bucket + 2)

def bucketFor? (capacity : Nat) : Option Nat :=
  (List.range bucketCount).find? fun bucket => decide (capacity ≤ sizeAt bucket)

def bucketSize? (capacity : Nat) : Option Nat := (bucketFor? capacity).map sizeAt

def bucketOf? (capacity : Nat) : Option Nat :=
  if minBucket ≤ capacity ∧ capacity ≤ maxBucket then some (capacity.log2 - 2) else none

end Pool

/-- Idle objects by bucket, and statistics. -/
structure Pool (α : Type) where
  buckets : List (List α) := List.replicate Pool.bucketCount []
  stats : PoolStats := {}
deriving Repr, Inhabited

namespace Pool

variable {α : Type}

def idle (p : Pool α) : Nat := p.buckets.foldl (fun n bucket => n + bucket.length) 0

/-- Objects idle in one bucket, the last one returned first. -/
def bucket (p : Pool α) (i : Nat) : List α := p.buckets.getD i []

variable [Pooled α]

def checkout (p : Pool α) (capacity : Nat) : α × Pool α :=
  match bucketFor? capacity with
  | none => (Pooled.fresh capacity, { p with stats.bypassed := p.stats.bypassed + 1 })
  | some i =>
    match p.bucket i with
    | object :: rest =>
      (object, { buckets := p.buckets.set i rest, stats.recycled := p.stats.recycled + 1,
                 stats.fresh := p.stats.fresh, stats.returned := p.stats.returned,
                 stats.bypassed := p.stats.bypassed })
    | [] => (Pooled.fresh (sizeAt i), { p with stats.fresh := p.stats.fresh + 1 })

/-- Takes an object back; the values it still held are answered. A full bucket lets it go. -/
def checkin (p : Pool α) (object : α) : List Value × Pool α :=
  let (values, emptied) := Pooled.drain object
  match bucketOf? (Pooled.capacity emptied) with
  | none => (values, { p with stats.bypassed := p.stats.bypassed + 1 })
  | some i =>
    if (p.bucket i).length < bucketDepth then
      (values, { buckets := p.buckets.set i (emptied :: p.bucket i)
                 stats := { p.stats with returned := p.stats.returned + 1 } })
    else (values, p)

end Pool

/-- A growable row of values that remembers its capacity. -/
structure Buffer where
  items : List Value := []
  capacity : Nat := 0
deriving DecidableEq, Repr, Inhabited

namespace Buffer

/-- Capacity after making room for `extra` more items: at least doubled, and never below four. -/
def grown (b : Buffer) (extra : Nat) : Nat :=
  let needed := b.items.length + extra
  if needed ≤ b.capacity then b.capacity else max (max (2 * b.capacity) needed) 4

def append (b : Buffer) (values : List Value) : Buffer :=
  ⟨b.items ++ values, b.grown values.length⟩

def push (b : Buffer) (value : Value) : Buffer := b.append [value]

instance : Pooled Buffer where
  fresh capacity := ⟨[], capacity⟩
  capacity b := b.capacity
  drain b := (b.items, ⟨[], b.capacity⟩)

end Buffer

end ScriptMachine
