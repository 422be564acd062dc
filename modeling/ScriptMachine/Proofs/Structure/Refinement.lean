import ScriptMachine.Proofs.Structure.Operations

/-!
# A structure is a finite map

A structure that starts empty, as a plain one or as a queue without a limit, behaves as a finite map
from keys to values under every sequence of operations, however often it grows or moves to another
layout on the way. The pools it draws its storage from are shared: before it is made and between two
of its operations anything may be taken from them or given back to them.
-/

set_option autoImplicit false

namespace ScriptMachine.Structure

open SortedMap (IsFirst IsLast)

/-! ## The map -/

abbrev Contents := Key → Option Value

namespace Contents

def empty : Contents := fun _ => none

def put (m : Contents) (k : Key) (v : Value) : Contents := fun k' =>
  if k' = k then some { v with flags := { v.flags with child := true } } else m k'

def erase (m : Contents) (k : Key) : Contents := fun k' => if k' = k then none else m k'

def handOut (m : Contents) (k : Key) : Option Value :=
  (m k).map fun v => { v with flags := { v.flags with child := false } }

end Contents

/-- What a structure is used for: the operations on its entries, and those of others on the pools.
-/
inductive Operation where
  | set (key : Key) (value : Value)
  | delete (key : Key)
  | popFront
  | popBack
  /-- Sets a value under the key that is used to append. -/
  | append (value : Value)
  | prepend (value : Value)
  /-- Goes on with a new structure of the same keys that holds shares of the values. -/
  | share
  | lend (layout : Layout) (capacity : Nat)
  | giveBack (storage : Storage)

inductive Contents.Step : Operation → Contents → Option Value → Contents → Prop
  | set (m : Contents) (k : Key) (v : Value) : Step (.set k v) m (m.handOut k) (m.put k v)
  | delete (m : Contents) (k : Key) : Step (.delete k) m (m.handOut k) (m.erase k)
  | popFrontNone (m : Contents) (none : ∀ k, m k = Option.none) : Step .popFront m Option.none m
  | popBackNone (m : Contents) (none : ∀ k, m k = Option.none) : Step .popBack m Option.none m
  | popFront (m : Contents) (k : Key) (held : (m k).isSome)
      (least : ∀ k', (m k').isSome → k' ≠ k → compare k k' = .lt) :
      Step .popFront m (m.handOut k) (m.erase k)
  | popBack (m : Contents) (k : Key) (held : (m k).isSome)
      (greatest : ∀ k', (m k').isSome → k' ≠ k → compare k' k = .lt) :
      Step .popBack m (m.handOut k) (m.erase k)
  | append (m : Contents) (v : Value) (top : Option Int64)
      (greatest : IsGreatestInt (fun w => m (.int w)) top) :
      Step (.append v) m (m.handOut (keyBehind top)) (m.put (keyBehind top) v)
  | prepend (m : Contents) (v : Value) (low : Option Int64)
      (least : IsLeastInt (fun w => m (.int w)) low) :
      Step (.prepend v) m (m.handOut (keyBefore low)) (m.put (keyBefore low) v)
  | share (m : Contents) :
      Step .share m none fun k =>
        (m k).map fun v => { v.share with flags := { v.share.flags with child := true } }
  | lend (m : Contents) (layout : Layout) (capacity : Nat) : Step (.lend layout capacity) m none m
  | giveBack (m : Contents) (storage : Storage) : Step (.giveBack storage) m none m

/-- Operations one after the other, with their answers. -/
inductive Contents.Run : List Operation → Contents → List (Option Value) → Contents → Prop
  | nil (m : Contents) : Run [] m [] m
  | cons {op : Operation} {ops : List Operation} {m m' m'' : Contents} {answer : Option Value}
      {answers : List (Option Value)} (first : Contents.Step op m answer m')
      (rest : Run ops m' answers m'') : Run (op :: ops) m (answer :: answers) m''

/-! ## The structure -/

def lendFrom (pools : StructurePools) (layout : Layout) (capacity : Nat) : StructurePools :=
  match layout with
  | .dense => { pools with dense := (pools.dense.checkout capacity).2 }
  | .keyed => { pools with keyed := (pools.keyed.checkout capacity).2 }
  | .mixed => { pools with mixed := (pools.mixed.checkout capacity).2 }
  | .ring => { pools with ring := (pools.ring.checkout capacity).2 }

abbrev State := Structure × StructurePools

def Operation.uses (s : Structure) : Operation → List Use
  | .set key _ => [.write key]
  | .delete key => [.read key]
  | .popFront => [.popFront]
  | .append _ => [.behind, .write s.appendKey.1]
  | .prepend _ => [.before, .write s.prependKey.1]
  | _ => []

def perform (state : State) : Operation → Option Value × State
  | .set key value => state.1.set state.2 key value
  | .delete key => ((state.1.delete key).1, (state.1.delete key).2, state.2)
  | .popFront => (state.1.popFront.1, state.1.popFront.2, state.2)
  | .popBack => (state.1.popBack.1, state.1.popBack.2, state.2)
  | .append value => state.1.appendKey.2.set state.2 state.1.appendKey.1 value
  | .prepend value => state.1.prependKey.2.set state.2 state.1.prependKey.1 value
  | .share => (none, state.1.rebuild state.2 (state.1.values.map Value.share))
  | .lend layout capacity => (none, state.1, lendFrom state.2 layout capacity)
  | .giveBack storage => (none, state.1, (storage.release state.2).2)

/-- Performs operations one after the other and collects their answers. Nothing comes of a run in
which a key overflows. -/
def performAll : List Operation → State → Option (List (Option Value) × State)
  | [], state => some ([], state)
  | op :: ops, state =>
    if state.1.overflows (op.uses state.1) then none
    else (performAll ops (perform state op).2).map fun (answers, after) =>
      ((perform state op).1 :: answers, after)

def usedPools (uses : List (Layout × Nat ⊕ Storage)) : StructurePools :=
  uses.foldl (fun pools use =>
    match use with
    | .inl (layout, capacity) => lendFrom pools layout capacity
    | .inr storage => (storage.release pools).2) {}

/-- An empty structure of some capacity, or a queue without a limit. -/
def start (pools : StructurePools) : Option Nat → State
  | some capacity => new pools capacity
  | none => queue pools 0

/-- A structure whose entries are exactly what a map holds, in ascending order. -/
structure Represents (s : Structure) (m : Contents) : Prop where
  get? : ∀ k, s.get? k = m k
  contains : ∀ k, s.contains k = (m k).isSome
  ascending : s.entries.Pairwise fun a b => compare a.1 b.1 = .lt
  mem_entries : ∀ k v, (k, v) ∈ s.entries ↔ m k = some v
  size : s.size = s.entries.length
  child : ∀ k v, m k = some v → v.flags.child = true

/-! ## One operation -/

structure Holds (state : State) (m : Contents) : Prop where
  valid : state.1.storage.Valid
  unbounded : state.1.storage.Unbounded
  clean : state.2.Clean
  lookup : ∀ k, SortedMap.lookup k state.1.entries = m k
  child : ∀ k v, m k = some v → v.flags.child = true

variable {state : State} {m : Contents}

theorem Holds.represents (holds : Holds state m) : Represents state.1 m := by
  have get : ∀ k, state.1.get? k = m k := fun k =>
    (holds.valid.get?_eq k).trans (holds.lookup k)
  refine ⟨get, fun k => ?_, holds.valid.ascending, fun k v => ?_, state.1.storage.size_eq,
    holds.child⟩
  · rw [contains, get]
  · rw [← holds.lookup]
    exact (SortedMap.lookup_eq_some_iff holds.valid.ascending).symm

theorem attach_eq (v : Value) : attach v = { v with flags := { v.flags with child := true } } := by
  simp [attach, Value.withFlags, Flags.union]

theorem Holds.put_child (holds : Holds state m) (k : Key) (v : Value) :
    ∀ k' w, m.put k v k' = some w → w.flags.child = true := by
  intro k' w held
  simp only [Contents.put] at held
  split at held
  · cases held
    rfl
  · exact holds.child k' w held

theorem Holds.erase_child (holds : Holds state m) (k : Key) :
    ∀ k' w, m.erase k k' = some w → w.flags.child = true := by
  intro k' w held
  simp only [Contents.erase] at held
  split at held
  · simp at held
  · exact holds.child k' w held

theorem Holds.set (holds : Holds state m) (k : Key) (v : Value) :
    (state.1.set state.2 k v).1 = m.handOut k ∧ Holds (state.1.set state.2 k v).2 (m.put k v) := by
  obtain ⟨old, answer, stored, clean⟩ := set_spec holds.valid holds.clean k v
  rcases stored.entries with ⟨displaced, entries⟩ | ⟨bounded, -⟩
  · refine ⟨?_, stored.valid, stored.unbounded holds.unbounded, clean, fun k' => ?_,
      holds.put_child k v⟩
    · rw [answer, displaced]
      exact congrArg _ (holds.lookup k)
    · rw [show (state.1.set state.2 k v).2.1.entries = _ from entries,
        SortedMap.lookup_put holds.valid.ascending, attach_eq]
      simp only [Contents.put]
      split
      · rfl
      · exact holds.lookup k'
  · exact absurd holds.unbounded bounded

/-- An ordered reading changes nothing that a map could tell. -/
theorem Holds.read (holds : Holds state m) {after : Structure} (read : Read state.1 after) :
    Holds (after, state.2) m :=
  ⟨read.valid, read.unbounded holds.unbounded, holds.clean,
    fun k => (congrArg _ read.entries).trans (holds.lookup k), holds.child⟩

theorem Holds.drop (holds : Holds state m) {after : Structure} (valid : after.storage.Valid)
    (unbounded : after.storage.Unbounded) {k : Key}
    (entries : after.entries = SortedMap.drop k state.1.entries) :
    Holds (after, state.2) (m.erase k) := by
  have ascending : SortedMap.Ascending state.1.entries := holds.valid.ascending
  refine ⟨valid, unbounded, holds.clean, fun k' => ?_, holds.erase_child k⟩
  rw [entries, SortedMap.lookup_drop ascending, holds.lookup]
  rfl

theorem Holds.mem_iff (holds : Holds state m) {k : Key} {v : Value} :
    (k, v) ∈ state.1.entries ↔ m k = some v := by
  rw [← holds.lookup]
  exact (SortedMap.lookup_eq_some_iff holds.valid.ascending).symm

theorem Holds.eq_none (holds : Holds state m) (empty : state.1.entries = []) (k : Key) :
    m k = none := by
  rw [← holds.lookup, empty]
  rfl

theorem Holds.least (holds : Holds state m) {k : Key} (first : IsFirst state.1.entries (some k)) :
    (m k).isSome ∧ ∀ k', (m k').isSome → k' ≠ k → compare k k' = .lt := by
  obtain ⟨v, mem, least⟩ := first
  refine ⟨by rw [holds.mem_iff.mp mem]; rfl, fun k' held ne => ?_⟩
  obtain ⟨v', found⟩ := Option.isSome_iff_exists.mp held
  have notLess := least _ (holds.mem_iff.mpr found)
  cases cmp : compare k k' with
  | lt => rfl
  | eq => exact absurd (Std.LawfulEqOrd.eq_of_compare cmp).symm ne
  | gt => exact absurd (Std.OrientedCmp.lt_of_gt cmp) notLess

theorem Holds.greatest (holds : Holds state m) {k : Key} (last : IsLast state.1.entries (some k)) :
    (m k).isSome ∧ ∀ k', (m k').isSome → k' ≠ k → compare k' k = .lt := by
  obtain ⟨v, mem, greatest⟩ := last
  refine ⟨by rw [holds.mem_iff.mp mem]; rfl, fun k' held ne => ?_⟩
  obtain ⟨v', found⟩ := Option.isSome_iff_exists.mp held
  have notLess := greatest _ (holds.mem_iff.mpr found)
  cases cmp : compare k' k with
  | lt => rfl
  | eq => exact absurd (Std.LawfulEqOrd.eq_of_compare cmp) ne
  | gt => exact absurd (Std.OrientedCmp.lt_of_gt cmp) notLess

theorem Holds.share (holds : Holds state m) :
    Holds (state.1.rebuild state.2 (state.1.values.map Value.share)) fun k =>
      (m k).map fun v => { v.share with flags := { v.share.flags with child := true } } := by
  have length : (state.1.values.map Value.share).length = state.1.size := by
    rw [List.length_map, values, Storage.values_eq, List.length_map]
    exact state.1.storage.size_eq.symm
  obtain ⟨valid, unbounded, entries, clean⟩ := rebuild_spec holds.valid holds.clean length
  refine ⟨valid, unbounded holds.unbounded, clean, fun k => ?_, fun k v held => ?_⟩
  · have shares : (state.1.entries.map Prod.fst).zip
        ((state.1.values.map Value.share).map attach) =
          state.1.entries.map fun e => (e.1, attach e.2.share) := by
      rw [values, Storage.values_eq, List.map_map, List.map_map]
      exact List.zip_map'
    rw [entries, shares, SortedMap.lookup_map (fun v => attach v.share), holds.lookup]
    simp only [attach_eq]
  · obtain ⟨v', -, rfl⟩ := Option.map_eq_some_iff.mp held
    rfl

theorem lendFrom_clean {pools : StructurePools} (clean : pools.Clean) (layout : Layout)
    (capacity : Nat) : (lendFrom pools layout capacity).Clean := by
  cases layout with
  | dense =>
    obtain ⟨-, -, -, clean'⟩ := clean.dense.checkout capacity
    exact { clean with dense := clean' }
  | keyed =>
    obtain ⟨-, -, -, clean'⟩ := clean.keyed.checkout capacity
    exact { clean with keyed := clean' }
  | mixed =>
    obtain ⟨-, -, -, clean'⟩ := clean.mixed.checkout capacity
    exact { clean with mixed := clean' }
  | ring =>
    obtain ⟨-, -, -, clean'⟩ := clean.ring.checkout capacity
    exact { clean with ring := clean' }

theorem Holds.step (holds : Holds state m) (op : Operation)
    (safe : state.1.overflows (op.uses state.1) = false) :
    ∃ m', Contents.Step op m (perform state op).1 m' ∧ Holds (perform state op).2 m' := by
  cases op with
  | set k v =>
    obtain ⟨answer, holds'⟩ := holds.set k v
    exact ⟨m.put k v, by rw [perform, answer]; exact .set m k v, holds'⟩
  | delete k =>
    obtain ⟨valid, unbounded, answer, entries⟩ := delete_spec holds.valid k
    refine ⟨m.erase k, ?_, holds.drop valid (unbounded holds.unbounded) entries⟩
    have handed : (perform state (.delete k)).1 = m.handOut k := by
      rw [perform, answer, holds.lookup]
      rfl
    rw [handed]
    exact .delete m k
  | popFront =>
    have popped := popFront_spec holds.valid
    rcases popped.either with ⟨empty, answer, entries⟩ | ⟨k, v, first, mem, answer, entries⟩
    · have none := holds.eq_none empty
      refine ⟨m, ?_, holds.read ⟨popped.valid, popped.unbounded, entries.trans empty.symm⟩⟩
      rw [perform, answer]
      exact .popFrontNone m none
    · obtain ⟨held, least⟩ := holds.least first
      refine ⟨m.erase k, ?_, holds.drop popped.valid (popped.unbounded holds.unbounded) entries⟩
      have handed : (perform state .popFront).1 = m.handOut k := by
        rw [perform, answer, Contents.handOut, holds.mem_iff.mp mem]
        rfl
      rw [handed]
      exact .popFront m k held least
  | popBack =>
    have popped := popBack_spec holds.valid
    rcases popped.either with ⟨empty, answer, entries⟩ | ⟨k, v, last, mem, answer, entries⟩
    · have none := holds.eq_none empty
      refine ⟨m, ?_, holds.read ⟨popped.valid, popped.unbounded, entries.trans empty.symm⟩⟩
      rw [perform, answer]
      exact .popBackNone m none
    · obtain ⟨held, greatest⟩ := holds.greatest last
      refine ⟨m.erase k, ?_, holds.drop popped.valid (popped.unbounded holds.unbounded) entries⟩
      have handed : (perform state .popBack).1 = m.handOut k := by
        rw [perform, answer, Contents.handOut, holds.mem_iff.mp mem]
        rfl
      rw [handed]
      exact .popBack m k held greatest
  | append v =>
    obtain ⟨top, greatest, behind, read⟩ := appendKey_spec holds.valid
    have key := behind (not_overflows_head safe)
    obtain ⟨answer, holds'⟩ := (holds.read read).set state.1.appendKey.1 v
    refine ⟨m.put (keyBehind top) v, ?_, key ▸ holds'⟩
    have handed : (perform state (.append v)).1 = m.handOut (keyBehind top) := key ▸ answer
    have held : ints state.1.entries = fun w => m (.int w) := funext fun w => holds.lookup (.int w)
    rw [handed]
    exact .append m v top (held ▸ greatest)
  | prepend v =>
    obtain ⟨low, least, before, read⟩ := prependKey_spec holds.valid
    have key := before (not_overflows_head safe)
    obtain ⟨answer, holds'⟩ := (holds.read read).set state.1.prependKey.1 v
    refine ⟨m.put (keyBefore low) v, ?_, key ▸ holds'⟩
    have handed : (perform state (.prepend v)).1 = m.handOut (keyBefore low) := key ▸ answer
    have held : ints state.1.entries = fun w => m (.int w) := funext fun w => holds.lookup (.int w)
    rw [handed]
    exact .prepend m v low (held ▸ least)
  | share => exact ⟨_, .share m, holds.share⟩
  | lend layout capacity =>
    exact ⟨m, .lend m layout capacity,
      { holds with clean := lendFrom_clean holds.clean layout capacity }⟩
  | giveBack storage =>
    exact ⟨m, .giveBack m storage, { holds with clean := storage.release_clean holds.clean }⟩

/-! ## All operations -/

theorem Holds.run (holds : Holds state m) (ops : List Operation) {answers : List (Option Value)}
    {after : State} (performed : performAll ops state = some (answers, after)) :
    ∃ m', Contents.Run ops m answers m' ∧ Holds after m' := by
  induction ops generalizing state m answers with
  | nil =>
    cases performed
    exact ⟨m, .nil m, holds⟩
  | cons op ops ih =>
    rw [performAll] at performed
    split at performed
    · cases performed
    · rename_i safe
      obtain ⟨⟨answers', after'⟩, performed', eq⟩ := Option.map_eq_some_iff.mp performed
      cases eq
      obtain ⟨m', first, holds'⟩ := holds.step op (Bool.eq_false_iff.mpr safe)
      obtain ⟨m'', rest, holds''⟩ := ih holds' performed'
      exact ⟨m'', .cons first rest, holds''⟩

theorem Holds.edge (holds : Holds state m) {op : Operation}
    (overflow : state.1.overflows (op.uses state.1) = true) :
    (m (.int Int64.maxValue)).isSome ∨ (m (.int Int64.minValue)).isSome := by
  rw [overflows] at overflow
  cases layout : state.1.storage with
  | ring r =>
    rw [layout] at overflow
    obtain ⟨use, mem, past⟩ := List.any_eq_true.mp overflow
    have stays : ∀ k, use ≠ .next k ∧ use ≠ .prev k := by
      intro k
      cases op <;> simp only [Operation.uses, List.mem_cons, List.not_mem_nil, or_false] at mem
      case append | prepend => rcases mem with rfl | rfl <;> simp
      all_goals subst mem; simp
    have get : ∀ k, r.get? k = m k := fun k => by
      rw [← holds.represents.get?, get?, layout]
      rfl
    have valid := holds.valid
    rw [layout] at valid
    rw [← get, ← get]
    exact Ring.Valid.held_of_overflows valid past stays
  | _ => simp [layout] at overflow

/-- A run that comes to nothing had reached a map with an entry under the greatest or the least
word. -/
theorem Holds.run_none (holds : Holds state m) (ops : List Operation)
    (stopped : performAll ops state = none) :
    ∃ done op rest answers after m', ops = done ++ op :: rest ∧
      performAll done state = some (answers, after) ∧ Contents.Run done m answers m' ∧
      ((m' (.int Int64.maxValue)).isSome ∨ (m' (.int Int64.minValue)).isSome) := by
  induction ops generalizing state m with
  | nil => cases stopped
  | cons op ops ih =>
    rw [performAll] at stopped
    split at stopped
    · rename_i overflow
      exact ⟨[], op, ops, [], state, m, rfl, rfl, .nil m, holds.edge overflow⟩
    · rename_i safe
      obtain ⟨m', first, holds'⟩ := holds.step op (Bool.eq_false_iff.mpr safe)
      obtain ⟨done, op', rest, answers, after, m'', eq, performed, run, edge⟩ :=
        ih holds' (Option.map_eq_none_iff.mp stopped)
      refine ⟨op :: done, op', rest, _ :: answers, after, m'', congrArg _ eq, ?_,
        .cons first run, edge⟩
      rw [performAll, if_neg safe, performed]
      rfl

theorem usedPools_clean (uses : List (Layout × Nat ⊕ Storage)) : (usedPools uses).Clean := by
  have step : ∀ pools : StructurePools, pools.Clean →
      (uses.foldl (fun pools use =>
        match use with
        | .inl (layout, capacity) => lendFrom pools layout capacity
        | .inr storage => (storage.release pools).2) pools).Clean := by
    induction uses with
    | nil => exact fun _ clean => clean
    | cons use uses ih =>
      intro pools clean
      apply ih
      cases use with
      | inl request => exact lendFrom_clean clean request.1 request.2
      | inr storage => exact storage.release_clean clean
  exact step {} StructurePools.clean_empty

theorem holds_start (uses : List (Layout × Nat ⊕ Storage)) (capacity : Option Nat) :
    Holds (start (usedPools uses) capacity) Contents.empty := by
  have clean := usedPools_clean uses
  have empty : ∀ s : Structure, s.entries = [] → ∀ k,
      SortedMap.lookup k s.entries = Contents.empty k := by
    intro s none k
    rw [none]
    rfl
  cases capacity with
  | some capacity =>
    obtain ⟨valid, unbounded, none, clean'⟩ := new_spec clean capacity
    exact ⟨valid, unbounded, clean', empty _ none, fun _ _ held => by simp [Contents.empty] at held⟩
  | none =>
    obtain ⟨valid, unbounded, none, clean'⟩ := queue_spec clean 0
    exact ⟨valid, unbounded rfl, clean', empty _ none,
      fun _ _ held => by simp [Contents.empty] at held⟩

theorem Contents.Step.answer_child {op : Operation} {m m' : Contents} {answer : Option Value}
    (step : Contents.Step op m answer m') : ∀ v ∈ answer, v.flags.child = false := by
  have handed : ∀ (m : Contents) (k : Key), ∀ v ∈ m.handOut k, v.flags.child = false := by
    intro m k v mem
    obtain ⟨w, -, rfl⟩ := Option.map_eq_some_iff.mp mem
    rfl
  cases step <;> first | exact handed _ _ | simp

theorem Contents.Run.answer_child {ops : List Operation} {m m' : Contents}
    {answers : List (Option Value)} (run : Contents.Run ops m answers m') :
    ∀ answer ∈ answers, ∀ v ∈ answer, v.flags.child = false := by
  induction run with
  | nil => simp
  | cons first rest ih =>
    intro answer mem
    rcases List.mem_cons.mp mem with rfl | mem
    · exact first.answer_child
    · exact ih answer mem

/-- Whatever is done with a structure, its answers and its entries are those of a finite map under
the same operations. What it holds is marked as an entry, and what it hands out is not. Only where
an entry is under the greatest or the least word can a key overflow and the run come to nothing. -/
theorem performAll_refines_map (uses : List (Layout × Nat ⊕ Storage)) (capacity : Option Nat)
    (ops : List Operation) :
    match performAll ops (start (usedPools uses) capacity) with
    | some (answers, after) =>
      ∃ m, Contents.Run ops Contents.empty answers m ∧ Represents after.1 m ∧
        ∀ answer ∈ answers, ∀ v ∈ answer, v.flags.child = false
    | none =>
      ∃ done op rest answers after m, ops = done ++ op :: rest ∧
        performAll done (start (usedPools uses) capacity) = some (answers, after) ∧
        Contents.Run done Contents.empty answers m ∧
        ((m (.int Int64.maxValue)).isSome ∨ (m (.int Int64.minValue)).isSome) := by
  have holds := holds_start uses capacity
  cases performed : performAll ops (start (usedPools uses) capacity) with
  | some result =>
    obtain ⟨m, run, holds'⟩ := holds.run ops performed
    exact ⟨m, run, holds'.represents, run.answer_child⟩
  | none => exact holds.run_none ops performed

end ScriptMachine.Structure
