import Mathlib.Data.Multiset.Defs
import ScriptMachine.Proofs.Structure.Room

/-!
# Structures that share pools

Several structures are made, used and given back in any interleaving, and all of them draw their
storage from the same pools.
-/

set_option autoImplicit false

namespace ScriptMachine

inductive Probe where
  | get (key : Key)
  | contains (key : Key)
  | update (key : Key) (f : Value → Value)
  | delete (key : Key)
  | popFront
  | popBack
  | firstKey
  | lastKey
  | nextKey (key : Key)
  | prevKey (key : Key)
  | keys
  | appendKey
  | prependKey

inductive Reply where
  | done
  | value (v : Option Value)
  | truth (b : Bool)
  | key (key : Option Key)
  | keys (keys : List Key)
  | placed (key : Key) (displaced : Option Value)
  | drained (values : List Value)
  /-- The values of a table come in no order that can be told. -/
  | spilled (values : Multiset Value)
  | overflow

def Probe.uses : Probe → List Use
  | get key | contains key | update key _ | delete key => [.read key]
  | popFront => [.popFront]
  | lastKey | appendKey => [.behind]
  | prependKey => [.before]
  | nextKey key => [.next key]
  | prevKey key => [.prev key]
  | popBack | firstKey | keys => []

def Probe.on (s : Structure) : Probe → Reply × Structure
  | get key => (.value (s.get? key), s)
  | contains key => (.truth (s.contains key), s)
  | update key f => (.done, s.update key f)
  | delete key => (s.delete key).map .value id
  | popFront => s.popFront.map .value id
  | popBack => s.popBack.map .value id
  | firstKey => s.firstKey?.map .key id
  | lastKey => s.lastKey?.map .key id
  | nextKey key => (s.nextKey? key).map .key id
  | prevKey key => (s.prevKey? key).map .key id
  | keys => s.keys.map .keys id
  | appendKey => s.appendKey.map (.key ∘ some) id
  | prependKey => s.prependKey.map (.key ∘ some) id

/-- Operations on structures that share pools. A structure goes by its number. -/
inductive Work where
  | new (capacity : Nat)
  | queue (limit : Nat)
  | probe (i : Nat) (probe : Probe)
  | set (i : Nat) (key : Key) (value : Value)
  | append (i : Nat) (value : Value)
  | prepend (i : Nat) (value : Value)
  /-- A new structure with the layout and the keys of another one, and values made of its own. -/
  | copy (i : Nat) (renew : Key → Value → Value)
  | recycle (i : Nat)

def Work.target? : Work → Option (Nat × (Structure → List Use))
  | .probe i question => some (i, fun _ => question.uses)
  | .set i key _ => some (i, fun _ => [.write key])
  | .append i _ => some (i, fun s => [.behind, .write s.appendKey.1])
  | .prepend i _ => some (i, fun s => [.before, .write s.prependKey.1])
  | _ => none

structure Workshop where
  made : List (Option Structure) := []
  pools : StructurePools

namespace Workshop

/-- Does something with one structure; nothing happens if there is none of that number. -/
def change (w : Workshop) (i : Nat)
    (op : Structure → StructurePools → Reply × Option Structure × StructurePools) :
    Reply × Workshop :=
  match (w.made[i]?).join with
  | none => (.done, w)
  | some s =>
    let (reply, s, pools) := op s w.pools
    (reply, ⟨w.made.set i s, pools⟩)

def put (keyed : Structure → Key × Structure) (v : Value) (s : Structure) (pools : StructurePools) :
    Reply × Option Structure × StructurePools :=
  let (key, s) := keyed s
  let (displaced, s, pools) := s.set pools key v
  (.placed key displaced, some s, pools)

theorem put_eq (keyed : Structure → Key × Structure) (v : Value) (s : Structure)
    (pools : StructurePools) : put keyed v s pools =
      let stored := (keyed s).2.set pools (keyed s).1 v
      (.placed (keyed s).1 stored.1, some stored.2.1, stored.2.2) := rfl

def copy (w : Workshop) (i : Nat) (renew : Key → Value → Value) : Reply × Workshop :=
  match (w.made[i]?).join with
  | none => (.done, w)
  | some s =>
    let (copy, pools) := s.rebuild w.pools (s.entries.map fun (k, v) => renew k v)
    (.done, ⟨w.made ++ [some copy], pools⟩)

/-- What comes of a structure that is given back. -/
def spill (s : Structure) (values : List Value) : Reply :=
  match s.layout with
  | .dense | .ring => .drained values
  | .keyed | .mixed => .spilled values

def perform (w : Workshop) : Work → Reply × Workshop
  | .new capacity =>
    let (s, pools) := Structure.new w.pools capacity
    (.done, ⟨w.made ++ [some s], pools⟩)
  | .queue limit =>
    let (s, pools) := Structure.queue w.pools limit
    (.done, ⟨w.made ++ [some s], pools⟩)
  | .probe i probe =>
    w.change i fun s pools => ((probe.on s).1, some (probe.on s).2, pools)
  | .set i key v => w.change i (put (key, ·) v)
  | .append i v => w.change i (put Structure.appendKey v)
  | .prepend i v => w.change i (put Structure.prependKey v)
  | .copy i renew => w.copy i renew
  | .recycle i =>
    w.change i fun s pools => (s.recycle pools).map (spill s) fun pools => (none, pools)

def overflows (w : Workshop) (work : Work) : Bool :=
  work.target?.any fun (i, uses) => ((w.made[i]?).join).any fun s => s.overflows (uses s)

structure Look where
  layout : Layout
  size : Nat
  migrations : Nat
  entries : List (Key × Value)

def looks (w : Workshop) : List (Option Look) :=
  w.made.map (Option.map fun s => ⟨s.layout, s.size, s.migrations, s.entries⟩)

/-- Performs operations one after the other; each is logged by its reply and by what can be told
then. Nothing is done behind a key that overflows. -/
def performAll : List Work → Workshop → List (Reply × List (Option Look)) × Workshop
  | [], w => ([], w)
  | work :: works, w =>
    if w.overflows work then ([(.overflow, w.looks)], w)
    else
      let (reply, w) := w.perform work
      let (log, after) := performAll works w
      ((reply, w.looks) :: log, after)

/-! ## Traffic -/

variable {w : Workshop}

theorem traffic_put (keyed : Structure → Key × Structure) (v : Value) (s : Structure)
    (pools : StructurePools) : pools.Traffic (put keyed v s pools).2.2 :=
  Structure.traffic_set (keyed s).2 pools (keyed s).1 v

theorem traffic_perform (w : Workshop) (work : Work) :
    w.pools.Traffic (w.perform work).2.pools := by
  have change : ∀ i op, (∀ s (pools : StructurePools), pools.Traffic (op s pools).2.2) →
      w.pools.Traffic (w.change i op).2.pools := by
    intro i op traffic
    unfold Workshop.change
    cases (w.made[i]?).join with
    | none => exact .none
    | some s => exact traffic s w.pools
  cases work with
  | new capacity => exact Structure.traffic_new ..
  | queue limit => exact Structure.traffic_queue ..
  | probe i probe => exact change i _ fun _ _ => .none
  | set i key v => exact change i _ fun s pools => traffic_put _ v s pools
  | append i v => exact change i _ fun s pools => traffic_put _ v s pools
  | prepend i v => exact change i _ fun s pools => traffic_put _ v s pools
  | copy i renew =>
    show w.pools.Traffic (w.copy i renew).2.pools
    unfold Workshop.copy
    cases (w.made[i]?).join with
    | none => exact .none
    | some s => exact s.traffic_rebuild w.pools _
  | recycle i => exact change i _ fun s pools => s.traffic_recycle pools

theorem traffic_performAll (works : List Work) : ∀ w : Workshop,
    w.pools.Traffic (Workshop.performAll works w).2.pools := by
  induction works with
  | nil => exact fun _ => .none
  | cons work works ih =>
    intro w
    rw [performAll]
    split
    · exact .none
    · exact (traffic_perform w work).trans (ih (w.perform work).2)

end Workshop

end ScriptMachine
