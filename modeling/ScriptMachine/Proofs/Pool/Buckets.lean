import Mathlib.Order.Bounds.Defs
import ScriptMachine.Proofs.Structure.Pooling

/-!
# Buckets

A request is rounded up to a power of two and an object that comes back is rounded down to one. So
the bucket of an idle object is always the largest that the object is good for, whatever objects
were given back and however much they have grown meanwhile, and what a bucket hands out is empty and
large enough. What comes back and what goes out again is counted, and the difference lies idle.

Of an object nothing is used but the laws of `Reusable`: a new one has at least the capacity that
was asked for, and one that was drained is empty.
-/

set_option autoImplicit false

namespace ScriptMachine

class Reusable (α : Type) [Pooled α] where
  /-- The values that an object holds. -/
  held : α → List Value
  Vacant : α → Prop
  /-- So many entries go in without a larger object. -/
  Takes : α → Nat → Prop
  le_capacity_fresh : ∀ n, n ≤ Pooled.capacity (Pooled.fresh n : α)
  vacant_fresh : ∀ n, Vacant (Pooled.fresh n)
  drain_held : ∀ object, (Pooled.drain object).1 = held object
  vacant_drain : ∀ object, Vacant (Pooled.drain object).2
  takes : ∀ object n, Vacant object → n ≤ Pooled.capacity object → Takes object n

open Reusable (Vacant Takes held)

namespace Pool

/-! ## Counting idle objects -/

theorem length_set {α : Type} (buckets : List (List α)) (i : Nat) (objects : List α)
    (inside : i < buckets.length) :
    (buckets.set i objects).flatten.length + (buckets.getD i []).length =
      buckets.flatten.length + objects.length := by
  induction buckets generalizing i with
  | nil => simp at inside
  | cons bucket buckets ih =>
    cases i with
    | zero =>
      simp only [List.set_cons_zero, List.flatten_cons, List.length_append, List.getD_cons_zero]
      omega
    | succ i =>
      have rest := ih i (by simpa using inside)
      simp only [List.set_cons_succ, List.flatten_cons, List.length_append, List.getD_cons_succ]
      omega

theorem foldl_length {α : Type} (buckets : List (List α)) (n : Nat) :
    buckets.foldl (fun n bucket => n + bucket.length) n = n + buckets.flatten.length := by
  induction buckets generalizing n with
  | nil => rfl
  | cons bucket buckets ih =>
    rw [List.foldl_cons, ih, List.flatten_cons, List.length_append, Nat.add_assoc]

variable {α : Type} {p : Pool α}

theorem idle_eq (p : Pool α) : p.idle = p.buckets.flatten.length := by
  rw [idle, foldl_length, Nat.zero_add]

theorem idle_set {i : Nat} (inside : i < p.buckets.length) (objects : List α) (stats : PoolStats) :
    ({ buckets := p.buckets.set i objects, stats } : Pool α).idle + (p.bucket i).length =
      p.idle + objects.length := by
  rw [idle_eq, idle_eq]
  exact length_set p.buckets i objects inside

theorem bucket_set_self {i : Nat} (inside : i < p.buckets.length) (objects : List α)
    (stats : PoolStats) :
    ({ buckets := p.buckets.set i objects, stats } : Pool α).bucket i = objects := by
  simp [bucket, inside]

theorem bucket_set_ne {i j : Nat} (other : i ≠ j) (objects : List α) (stats : PoolStats) :
    ({ buckets := p.buckets.set i objects, stats } : Pool α).bucket j = p.bucket j := by
  simp [bucket, List.getElem?_set_ne other]

theorem bucket_empty (i : Nat) : ({} : Pool α).bucket i = [] := by
  simp only [bucket, List.getD_eq_getElem?_getD, List.getElem?_replicate]
  split <;> rfl

theorem forall_bucket_set {P : Nat → α → Prop} {i : Nat} {objects : List α} (stats : PoolStats)
    (before : ∀ j, ∀ object ∈ p.bucket j, P j object) (changed : ∀ object ∈ objects, P i object) :
    ∀ j, ∀ object ∈ ({ buckets := p.buckets.set i objects, stats } : Pool α).bucket j,
      P j object := by
  intro j object mem
  rcases bucket_set p stats i objects j mem with ⟨same, inside⟩ | elsewhere
  · exact same ▸ changed object inside
  · exact before j object elsewhere

/-! ## Bucket sizes -/

theorem lt_of_bucketFor? {capacity i : Nat} (served : bucketFor? capacity = some i) :
    i < bucketCount := by
  simpa using List.mem_of_find?_eq_some served

theorem bucketOf?_spec {capacity i : Nat} (found : bucketOf? capacity = some i) :
    i < bucketCount ∧ sizeAt i = 2 ^ capacity.log2 ∧ capacity ≠ 0 := by
  unfold bucketOf? at found
  split at found
  · rename_i range
    cases found
    have low : 4 ≤ capacity := range.1
    have high : capacity ≤ 4096 := range.2
    have positive : capacity ≠ 0 := by omega
    have least : 2 ≤ capacity.log2 := (Nat.le_log2 positive).mpr low
    have greatest : capacity.log2 < 13 := (Nat.log2_lt positive).mpr (by omega)
    refine ⟨show capacity.log2 - 2 < 11 by omega, ?_, positive⟩
    rw [sizeAt, Nat.sub_add_cancel least]
  · cases found

def SizesWithin (capacity : Nat) : Set Nat := { size | size ≤ capacity ∧ ∃ k, size = 2 ^ k }

theorem isGreatest_sizeAt {capacity i : Nat} (found : bucketOf? capacity = some i) :
    IsGreatest (SizesWithin capacity) (sizeAt i) := by
  obtain ⟨-, size, positive⟩ := bucketOf?_spec found
  rw [size]
  refine ⟨⟨Nat.log2_self_le positive, _, rfl⟩, ?_⟩
  rintro _ ⟨within, k, rfl⟩
  exact Nat.pow_le_pow_right (by decide) ((Nat.le_log2 positive).mpr within)

/-! ## Use of a pool -/

variable [Pooled α] [Reusable α]

structure Tidy (p : Pool α) : Prop where
  count : p.buckets.length = bucketCount
  vacant : ∀ i, ∀ object ∈ p.bucket i, Vacant object
  sized : ∀ i, ∀ object ∈ p.bucket i,
    IsGreatest (SizesWithin (Pooled.capacity object)) (sizeAt i)
  depth : ∀ i, (p.bucket i).length ≤ bucketDepth
  balance : p.idle + p.stats.recycled = p.stats.returned

theorem tidy_empty : Tidy ({} : Pool α) where
  count := rfl
  vacant i object mem := by simp [bucket_empty] at mem
  sized i object mem := by simp [bucket_empty] at mem
  depth i := by simp [bucket_empty]
  balance := rfl

/-- Only the counters of lent and returned objects matter beside the buckets. -/
theorem Tidy.counted (tidy : p.Tidy) {stats : PoolStats}
    (recycled : stats.recycled = p.stats.recycled) (returned : stats.returned = p.stats.returned) :
    Tidy ({ buckets := p.buckets, stats } : Pool α) :=
  ⟨tidy.count, tidy.vacant, tidy.sized, tidy.depth, by
    rw [recycled, returned]
    exact tidy.balance⟩

theorem Tidy.set (tidy : p.Tidy) {i : Nat} (inside : i < bucketCount) {objects : List α}
    {stats : PoolStats} (vacant : ∀ object ∈ objects, Vacant object)
    (sized : ∀ object ∈ objects, IsGreatest (SizesWithin (Pooled.capacity object)) (sizeAt i))
    (depth : objects.length ≤ bucketDepth)
    (balance : p.idle + objects.length + stats.recycled = stats.returned + (p.bucket i).length) :
    Tidy ({ buckets := p.buckets.set i objects, stats } : Pool α) := by
  have within : i < p.buckets.length := tidy.count ▸ inside
  refine ⟨by simpa using tidy.count, forall_bucket_set _ tidy.vacant vacant,
    forall_bucket_set _ tidy.sized sized, fun j => ?_, ?_⟩
  · by_cases same : i = j
    · subst same
      rwa [bucket_set_self within]
    · rw [bucket_set_ne same]
      exact tidy.depth j
  · have counted := idle_set within objects stats
    simp only
    omega

theorem Tidy.checkout (tidy : p.Tidy) (capacity : Nat) : (p.checkout capacity).2.Tidy := by
  unfold Pool.checkout
  cases served : bucketFor? capacity with
  | none => exact tidy.counted rfl rfl
  | some i =>
    simp only
    cases idle : p.bucket i with
    | nil => exact tidy.counted rfl rfl
    | cons object rest =>
      have left : ∀ o ∈ rest, o ∈ p.bucket i := fun o mem => idle ▸ List.mem_cons_of_mem _ mem
      have depth := tidy.depth i
      have balance := tidy.balance
      rw [idle, List.length_cons] at depth
      refine tidy.set (lt_of_bucketFor? served) (fun o mem => tidy.vacant i o (left o mem))
        (fun o mem => tidy.sized i o (left o mem)) (by omega) ?_
      simp only [idle, List.length_cons]
      omega

theorem Tidy.checkin (tidy : p.Tidy) (object : α) : (p.checkin object).2.Tidy := by
  unfold Pool.checkin
  have vacant := Reusable.vacant_drain object
  generalize Pooled.drain object = drained at vacant
  obtain ⟨values, emptied⟩ := drained
  simp only at vacant ⊢
  cases returns : bucketOf? (Pooled.capacity emptied) with
  | none => exact tidy.counted rfl rfl
  | some i =>
    have balance := tidy.balance
    simp only
    split
    · rename_i room
      refine tidy.set (bucketOf?_spec returns).1
        (List.forall_mem_cons.mpr ⟨vacant, tidy.vacant i⟩)
        (List.forall_mem_cons.mpr ⟨isGreatest_sizeAt returns, tidy.sized i⟩) room ?_
      simp only [List.length_cons]
      omega
    · exact tidy

theorem tidy_used (uses : List (Nat ⊕ α)) : (used uses).Tidy := by
  unfold used
  apply List.foldlRecOn
  · exact tidy_empty
  · intro p tidy use _
    cases use with
    | inl capacity => exact tidy.checkout capacity
    | inr object => exact tidy.checkin object

/-- A tidy pool hands out empty objects that are large enough. -/
theorem Tidy.checkout_spec (tidy : p.Tidy) (capacity : Nat) :
    Vacant (p.checkout capacity).1 ∧ capacity ≤ Pooled.capacity (p.checkout capacity).1 := by
  unfold Pool.checkout
  cases served : bucketFor? capacity with
  | none => exact ⟨Reusable.vacant_fresh _, Reusable.le_capacity_fresh _⟩
  | some i =>
    have request := le_sizeAt_of_bucketFor? served
    simp only
    cases idle : p.bucket i with
    | nil =>
      exact ⟨Reusable.vacant_fresh _, Nat.le_trans request (Reusable.le_capacity_fresh _)⟩
    | cons object rest =>
      have mem : object ∈ p.bucket i := idle ▸ List.mem_cons_self ..
      exact ⟨tidy.vacant i object mem, Nat.le_trans request (tidy.sized i object mem).1.1⟩

/-- Whatever objects a pool lent and took back: each idle one is empty and lies in the bucket of the
largest power of two that is not above its capacity, no bucket has more than 64 of them, and their
number is that of the objects taken back less that of the objects lent again. So a request is
answered by an empty object that takes as many entries as were asked for, and an object that comes
back leaves exactly the values that it held. -/
theorem buckets_hold (uses : List (Nat ⊕ α)) :
    let p : Pool α := used uses
    (∀ i, ∀ object ∈ p.bucket i, Vacant object ∧
      IsGreatest { size | size ≤ Pooled.capacity object ∧ ∃ k, size = 2 ^ k } (sizeAt i)) ∧
    (∀ bucket ∈ p.buckets, bucket.length ≤ 64) ∧
    p.idle + p.stats.recycled = p.stats.returned ∧
    (∀ capacity, let object := (p.checkout capacity).1
      Vacant object ∧ capacity ≤ Pooled.capacity object ∧ Takes object capacity) ∧
    ∀ object, (p.checkin object).1 = held object := by
  intro p
  have tidy : p.Tidy := tidy_used uses
  refine ⟨fun i object mem => ⟨tidy.vacant i object mem, tidy.sized i object mem⟩, ?_,
    tidy.balance, fun capacity => ?_, fun object => ?_⟩
  · intro bucket mem
    obtain ⟨i, inside, rfl⟩ := List.mem_iff_getElem.mp mem
    have same : p.bucket i = p.buckets[i] := by simp [Pool.bucket, inside]
    exact same ▸ tidy.depth i
  · obtain ⟨vacant, room⟩ := tidy.checkout_spec capacity
    exact ⟨vacant, room, Reusable.takes _ _ vacant room⟩
  · rw [checkin_values, Reusable.drain_held]

end Pool

/-! ## The objects that are pooled -/

/-- What is allocated for an object while entries are put in one after the other: as much as before
if that is enough, and otherwise at least twice as much. -/
def allocated {β ε : Type} (put : β → ε → β) (size : β → Nat) :
    (entries : List ε) → (object : β) → (before : Nat) → Nat
  | [], _, before => before
  | e :: rest, object, before =>
    let object := put object e
    allocated put size rest object
      (if size object ≤ before then before else max (2 * before) (size object))

theorem allocated_of_room {β ε : Type} {put : β → ε → β} {size : β → Nat} {I : β → Prop}
    (single : ∀ object e, I object → I (put object e) ∧ size (put object e) ≤ size object + 1)
    {entries : List ε} {object : β} {before : Nat} (here : I object)
    (room : size object + entries.length ≤ before) :
    allocated put size entries object before = before := by
  induction entries generalizing object with
  | nil => rfl
  | cons e rest ih =>
    obtain ⟨kept, one⟩ := single object e here
    rw [List.length_cons] at room
    rw [allocated, if_pos (by omega)]
    exact ih kept (by omega)

theorem Ring.pushBack_of_unlimited {r : Ring} (unlimited : r.limit = none) (v : Value) :
    (r.pushBack v).2 = r.append (some v) := by
  simp [pushBack, overLimit, append, unlimited]

theorem Ring.foldl_pushBack {r : Ring} (unlimited : r.limit = none) (values : List Value) :
    (values.foldl (fun r v => (r.pushBack v).2) r).values = r.values ++ values := by
  induction values generalizing r with
  | nil => exact (List.append_nil _).symm
  | cons v rest ih =>
    rw [List.foldl_cons, pushBack_of_unlimited unlimited, ih (r := r.append (some v)) unlimited]
    simp [Ring.values, Ring.append, Cells.values]

theorem Ring.allocated_of_vacant {r : Ring} {values : List Value} {before : Nat}
    (vacant : r = .vacant r.capacity) (few : values.length ≤ r.capacity)
    (le : r.capacity ≤ before) :
    (values.foldl (fun r v => (r.pushBack v).2) r).values = values ∧
      allocated (fun r v => (r.pushBack v).2) Ring.span values r before = before := by
  have unlimited : r.limit = none := by
    rw [vacant]
    rfl
  have empty : r.cells = #[] := by
    rw [vacant]
    rfl
  constructor
  · rw [Ring.foldl_pushBack unlimited, Ring.values, empty]
    rfl
  · refine allocated_of_room (I := fun r => r.limit = none) (fun r v unlimited => ?_) unlimited ?_
    · rw [Ring.pushBack_of_unlimited unlimited]
      exact ⟨unlimited, Nat.le_of_eq (Array.size_push _)⟩
    · rw [Ring.span, empty, Array.size_empty]
      omega

instance : Reusable Buffer where
  held b := b.items
  Vacant b := b.items = []
  Takes b n := ∀ values : List Value, values.length ≤ n → (b.append values).capacity = b.capacity
  le_capacity_fresh _ := Nat.le_refl _
  vacant_fresh _ := rfl
  drain_held _ := rfl
  vacant_drain _ := rfl
  takes b n vacant room values few := by
    have fits : b.items.length + values.length ≤ b.capacity := by
      rw [vacant, List.length_nil, Nat.zero_add]
      exact Nat.le_trans few room
    simp [Buffer.append, Buffer.grown, fits]

instance : Reusable Dense where
  held := Dense.values
  Vacant d := d = Dense.vacant d.capacity
  Takes d n := ∀ (key : Key) (i : Nat) (v : Value), Dense.index? key = some i → i < n →
    ∃ old d', d.place key v = .stored old d' ∧ d'.capacity = d.capacity
  le_capacity_fresh n := Nat.le_of_eq (LawfulPooled.capacity_fresh (α := Dense) n).symm
  vacant_fresh n := (congrArg Dense.vacant (LawfulPooled.capacity_fresh (α := Dense) n)).symm
  drain_held := Dense.drain_values
  vacant_drain d := by
    have drained : (Pooled.drain d).2 = Dense.vacant d.capacity := LawfulPooled.drain_eq d
    have capacity : (Dense.vacant d.capacity).capacity = d.capacity :=
      LawfulPooled.capacity_fresh (α := Dense) d.capacity
    rw [drained, capacity]
  takes d n _ room key i v found inside := by
    have fits : ¬ d.capacity ≤ i := Nat.not_le.mpr (Nat.lt_of_lt_of_le inside room)
    refine ⟨d.cells.at? i, d.store i v, ?_, ?_⟩
    · simp only [Dense.place, found, if_neg fits]
    · exact Dense.capacity_store (Nat.lt_of_not_le fits) v

/-- A table of which nothing was given back takes entries without growing. -/
instance {κ : Type} [Ord κ] : Reusable (Table κ) where
  held := Table.values
  Vacant t := t.map = {} ∧ t.index = some []
  Takes t n := ∀ (entries : List (κ × Value)) (before : Nat), entries.length ≤ n →
    t.capacity ≤ before →
      allocated (fun t e => (t.insert e.1 e.2).2) Table.size entries t before = before
  le_capacity_fresh _ := Nat.le_refl _
  vacant_fresh _ := ⟨rfl, rfl⟩
  drain_held _ := rfl
  vacant_drain _ := ⟨rfl, rfl⟩
  takes t n vacant room entries before few le := by
    have empty : t.size = 0 := congrArg SortedMap.size vacant.1
    have enough : n ≤ t.capacity := room
    refine allocated_of_room (I := fun _ => True) (fun t e _ => ?_) trivial (by omega)
    exact ⟨trivial, SortedMap.length_put_le _ _ _⟩

instance : Reusable Ring where
  held := Ring.values
  Vacant r := r = .vacant r.capacity
  Takes r n := ∀ (values : List Value) (before : Nat), values.length ≤ n → r.capacity ≤ before →
    (values.foldl (fun r v => (r.pushBack v).2) r).values = values ∧
      allocated (fun r v => (r.pushBack v).2) Ring.span values r before = before
  le_capacity_fresh _ := Nat.le_refl _
  vacant_fresh _ := rfl
  drain_held _ := rfl
  vacant_drain _ := rfl
  takes _ _ vacant room _ _ few le := Ring.allocated_of_vacant vacant (Nat.le_trans few room) le

/-- A frame that is vacant has nothing of its last call but its capacity. There is room for the
locals of a unit that it is large enough for, and the operands of the unit do not make it grow. -/
instance : Reusable Frame where
  held := Frame.held
  Vacant f := f = f.cleared
  Takes f n := ∀ (unit : CodeUnit) (operands : List Value) (before : Nat),
    unit.frameCapacity ≤ n → operands.length ≤ unit.maxStack → f.capacity ≤ before →
      let frame := f.reset unit
      frame.locals.length + operands.length ≤ before ∧
        allocated Frame.push (fun f => f.stack.length) operands frame before = before
  le_capacity_fresh _ := Nat.le_refl _
  vacant_fresh _ := rfl
  drain_held _ := rfl
  vacant_drain _ := rfl
  takes f n _ room unit operands before fits few le := by
    have slots : (f.reset unit).locals.length = unit.slots := List.length_replicate
    have empty : (f.reset unit).stack.length = 0 := rfl
    have needed : unit.slots + unit.maxStack ≤ f.capacity := Nat.le_trans fits room
    refine ⟨by omega, allocated_of_room (I := fun _ => True) (fun f v _ => ?_) trivial ?_⟩
    · exact ⟨trivial, Nat.le_refl _⟩
    · simp only [empty]
      omega

/-! A row that grew to nine cells goes to the bucket of eight and serves a request for five. -/

example :
    let p : Pool Buffer := Pool.used [.inr ⟨[.int 1], 9⟩]
    p.bucket 1 = [⟨[], 9⟩] ∧ (p.checkout 5).1 = ⟨[], 9⟩ ∧ (p.checkout 5).2.idle = 0 := by
  decide

end ScriptMachine
