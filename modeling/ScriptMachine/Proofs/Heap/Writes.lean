import ScriptMachine.Proofs.Heap.Appending
import ScriptMachine.Proofs.Heap.Freed
import ScriptMachine.Proofs.Structure.Limits

/-!
# Writing into structures

Whoever writes gives the value away. A write that is refused disposes it and changes nothing else. A
write that is done disposes what it took away, which is the entry that was there before or the one
that a full queue evicts, and the structure holds the new entry. Nothing that the structure owns
leads back to the structure where no object owns itself, so what is taken away can be disposed after
the structure was changed: it leads to what it led to before.
-/

set_option autoImplicit false

namespace ScriptMachine

open Relation (ReflTransGen TransGen)

namespace Structure

open SortedMap (put drop lookup)

variable {s read : Structure} {pools : StructurePools} {k : Key} {v : Value} {old : Option Value}
  {entries : List (Key × Value)}

inductive Written (s : Structure) (k : Key) (v : Value) : Option Value → List (Key × Value) → Prop
  | displaced : Written s k v (s.get? k) (put k (attach v) s.entries)
  /-- Another entry makes room for the new one in a queue with a limit. -/
  | evicted {k' : Key} {w : Value} (bounded : ¬ s.storage.Unbounded) (new : s.get? k = none)
      (mem : (k', w) ∈ s.entries) : Written s k v (some w) (drop k' (put k (attach v) s.entries))
  /-- The new entry itself, where there is no room for anything. -/
  | rejected (roomless : s.Roomless) (new : s.get? k = none) :
      Written s k v (some (attach v)) s.entries

theorem set_written (valid : s.storage.Valid) (clean : pools.Clean) (k : Key) (v : Value) :
    ∃ old, (s.set pools k v).1 = old.map detach ∧ s.Written k v old (s.set pools k v).2.1.entries := by
  obtain ⟨old, answer, stored, -⟩ := set_spec valid clean k v
  have ascending : SortedMap.Ascending s.entries := valid.ascending
  have looked : s.get? k = lookup k s.entries := valid.get?_eq k
  have kept := SortedMap.lookup_put ascending k (attach v)
  refine ⟨old, answer, ?_⟩
  rcases stored.entries with ⟨rfl, entries⟩ | ⟨bounded, new, k', w, rfl, mem, entries⟩
  · have left : (s.set pools k v).2.1.entries = put k (attach v) s.entries := entries
    rw [left]
    exact looked ▸ .displaced
  have left : (s.set pools k v).2.1.entries = drop k' (put k (attach v) s.entries) := entries
  have put_ascending := SortedMap.ascending_put ascending k (attach v)
  have found := (SortedMap.lookup_eq_some_iff put_ascending).mpr mem
  rw [kept] at found
  by_cases itself : k' = k
  · subst itself
    rw [if_pos rfl] at found
    cases found
    have lost : (s.set pools k' v).2.1.get? k' = none := by
      have looked' : (s.set pools k' v).2.1.get? k' = lookup k' (s.set pools k' v).2.1.entries :=
        stored.valid.get?_eq k'
      rw [looked', left, SortedMap.lookup_drop put_ascending, if_pos rfl]
    have same : drop k' (put k' (attach v) s.entries) = s.entries := by
      refine SortedMap.eq_of_lookup_eq (SortedMap.ascending_drop put_ascending k') ascending
        fun k => ?_
      rw [SortedMap.lookup_drop put_ascending, kept]
      by_cases here : k = k'
      · rw [if_pos here, here]
        exact new.symm
      · rw [if_neg here, if_neg here]
    rw [left, same]
    refine .rejected (Classical.byContradiction fun room => ?_) (looked.trans new)
    rw [get?_set valid clean room] at lost
    cases lost
  · rw [if_neg itself] at found
    rw [left]
    exact .evicted bounded (looked.trans new) ((SortedMap.lookup_eq_some_iff ascending).mp found)

/-- What is taken away was an entry, or no entry has changed. -/
theorem Written.takes (valid : s.storage.Valid) (written : s.Written k v old entries) {u : Value}
    (lost : old = some u) : u ∈ s.values ∨ s.Roomless ∧ entries = s.entries := by
  rw [values_eq]
  cases written with
  | displaced =>
    have looked : s.get? k = lookup k s.entries := valid.get?_eq k
    exact .inl (List.mem_map_of_mem (f := Prod.snd)
      ((SortedMap.lookup_eq_some_iff valid.ascending).mp (looked.symm.trans lost)))
  | evicted _ _ mem =>
    cases lost
    exact .inl (List.mem_map_of_mem (f := Prod.snd) mem)
  | rejected roomless => exact .inr ⟨roomless, rfl⟩

theorem Written.of_read (valid : s.storage.Valid) (same : Read s read)
    (roomless : read.Roomless → s.Roomless) (written : read.Written k v old entries) :
    s.Written k v old entries := by
  have got : read.get? k = s.get? k := by
    have before : s.get? k = lookup k s.entries := valid.get?_eq k
    have after : read.get? k = lookup k read.entries := same.valid.get?_eq k
    rw [before, after, same.entries]
  have bound : ¬ read.storage.Unbounded → ¬ s.storage.Unbounded := mt same.unbounded
  cases written with
  | displaced =>
    rw [got, same.entries]
    exact .displaced
  | evicted bounded new mem =>
    rw [same.entries] at mem ⊢
    exact .evicted (bound bounded) (got.symm.trans new) mem
  | rejected none new =>
    rw [same.entries]
    exact .rejected (roomless none) (got.symm.trans new)

end Structure

namespace Heap

variable {H : Type} {h k : Heap H} {x y z : Handle} {o o' : Object H} {vs : List Value}
  {S E : Handle → Prop} {u target value : Value} {key : Key} {s read after : Structure}
  {old : Option Value}

/-! ## Replaced objects -/

theorem owns_setObject (found : h.object? x = some o) (o' : Object H) (other : y ≠ x) :
    (h.setObject x o').Owns y z ↔ h.Owns y z := by
  unfold Owns
  rw [object?_setObject found, if_neg other]

theorem below_setObject (found : h.object? x = some o) (o' : Object H) (apart : ¬ h.Below vs x) :
    (h.setObject x o').Below vs y ↔ h.Below vs y := by
  constructor
  · rintro ⟨z, pos, path⟩
    induction path with
    | refl => exact below_of_tally pos
    | tail _ owns below =>
      exact below.owns ((owns_setObject found o' fun same => apart (same ▸ below)).mp owns)
  · rintro ⟨z, pos, path⟩
    induction path with
    | refl => exact below_of_tally pos
    | @tail a b path owns below =>
      have other : a ≠ x := fun same => apart (same ▸ ⟨z, pos, path⟩)
      exact below.owns ((owns_setObject found o' other).mpr owns)

theorem owns_setObject_same (found : h.object? x = some o) (same : SameOwners o'.held o.held) :
    (h.setObject x o').Owns = h.Owns := by
  funext y z
  by_cases here : y = x
  · subst here
    simp only [Owns, object?_setObject found, if_pos, found, Option.some.injEq, exists_eq_left',
      same z]
  · exact propext (owns_setObject found o' here)

theorem isSome_setObject (found : h.object? x = some o) (o' : Object H) (y : Handle) :
    ((h.setObject x o').object? y).isSome = (h.object? y).isSome := by
  rw [object?_setObject found]
  split
  · rename_i here
    rw [here, found]
    rfl
  · rfl

theorem slots_setObject_twice (h : Heap H) (x : Handle) (o o' : Object H) :
    ((h.setObject x o).setObject x o').slots = (h.setObject x o').slots := by
  refine Array.ext_getElem? fun i => ?_
  simp only [setObject, Array.getElem?_modify]
  split
  · cases h.slots[i]? <;> rfl
  · rfl

theorem Clears.of_setObject (found : h.object? x = some o) (o' : Object H) (freed : S x)
    (clears : (h.setObject x o').Clears S E k) : h.Clears S E k := by
  obtain ⟨slot, hslot, same, object⟩ := object?_eq_some_iff.mp found
  intro i
  rw [clears i]
  simp only [setObject, Array.getElem?_modify]
  split
  · rename_i here
    subst here
    have handle : (⟨x.index, slot.generation⟩ : Handle) = x := by rw [same]
    simp [hslot, Slot.cleared, object, handle, freed, Slot.freed]
  · rfl

theorem Forest.not_below (forest : h.Forest) (found : h.object? x = some o) (mem : u ∈ o.held) :
    ¬ h.Below [u] x := by
  rintro ⟨y, pos, path⟩
  rw [tally_cons, tally_nil] at pos
  have counted := owners_le_tally (x := y) mem
  exact forest x (TransGen.head' ⟨o, found, by omega⟩ path)

/-! ## Writes -/

/-- The ways to write an entry. -/
inductive Write where
  | child (key : Value)
  | childKey (key : Key)
  /-- Behind the greatest integer, or before the least one. -/
  | append (front : Bool)
deriving DecidableEq, Repr

namespace Write

def run : Write → Value → Value → HeapM H Unit
  | child key, target, value => setChild target key value
  | childKey key, target, value => setChildKey target key value
  | append front, target, value => Heap.append target value front

def key? : Write → Structure → Except Error Key
  | child key, _ => Key.ofValue key
  | childKey key, _ => .ok key
  | append front, s => .ok (s.edgeKey front).1

def uses : Write → Structure → List Use
  | child key, _ => ((Key.ofValue key).toOption.map Use.write).toList
  | childKey key, _ => [.write key]
  | append front, s => [Structure.edgeUse front, .write (s.edgeKey front).1]

end Write

theorem ofValue_eq_error {key : Value} {e : Error} (refused : Key.ofValue key = .error e) :
    e.panic? = none := by
  unfold Key.ofValue at refused
  repeat' split at refused
  all_goals cases refused
  all_goals rfl

def OwnsItself (target value : Value) : Prop := value.owns = true ∧ value.ref? = target.ref?

/-- The value was put into the structure `s` at `x`. What that took away was disposed, and all else
is as it was. -/
structure Wrote (h : Heap H) (x : Handle) (s : Structure) (key : Key) (value : Value)
    (old : Option Value) (after : Structure) (k : Heap H) : Prop where
  before : h.object? x = some (.struct s)
  written : s.Written key value old after.entries
  stays : ¬ s.Roomless → k.object? x = some (.struct after)
  clears : (h.setObject x (.struct after)).Clears (fun y => ∃ u, old = some u ∧ h.Reaches u y)
    (fun _ => False) k

theorem Clears.reaches (clears : h.Clears (h.Below [u]) E k) : h.Clears (h.Reaches u) E k :=
  clears.congr (fun _ live => by rw [reaches_iff]; exact (and_iff_right live).symm)
    fun _ _ => Iff.rfl

/-- The structure was changed first, and what came out of it was disposed then. -/
theorem Wrote.of_set (orderly : h.Orderly []) (forest : h.Forest)
    (found : h.object? x = some (.struct s)) (key : Key) (value : Value) (pools : Pools) :
    ∃ old, h.Wrote x s key value old (s.set h.pools.structures key value).2.1
      ({ h.setObject x (.struct (s.set h.pools.structures key value).2.1) with pools }.disposeAll
        (s.set h.pools.structures key value).1.toList) := by
  have valid : s.storage.Valid := orderly.valid.object? found
  obtain ⟨old, answer, written⟩ := Structure.set_written valid orderly.clean.structures key value
  rw [answer]
  generalize (s.set h.pools.structures key value).2.1 = after at written ⊢
  let changed : Heap H := { h.setObject x (.struct after) with pools }
  have owners : ∀ y, changed.Below (old.map Structure.detach).toList y ↔
      ∃ u, old = some u ∧ changed.Below [u] y := by
    intro y
    cases old with
    | none => simp [not_below_nil]
    | some u => simp [Below]
  have placed : changed.object? x = some (.struct after) :=
    (object?_setObject found x).trans (if_pos rfl)
  have leads : ∀ u, old = some u → (∀ y, changed.Below [u] y ↔ h.Below [u] y) ∧
      (¬ s.Roomless → ¬ h.Below [u] x) := by
    intro u lost
    rcases written.takes valid lost with mem | ⟨roomless, same⟩
    · have apart := forest.not_below found mem
      exact ⟨fun y => below_setObject found _ apart, fun _ => apart⟩
    · have held : (Object.struct after : Object H).held = (Object.struct s : Object H).held := by
        simp only [Object.held, Structure.values_eq]
        exact congrArg (List.map _) same
      have owns : changed.Owns = h.Owns := owns_setObject_same found fun y => by rw [held]
      exact ⟨fun y => by unfold Below; rw [owns], fun room => absurd roomless room⟩
  refine ⟨old, found, written, fun room => ?_, ?_⟩
  · obtain ⟨-, kept⟩ := object?_disposeAll (h := changed) (old.map Structure.detach).toList x
    refine (kept ?_).trans placed
    rw [owners]
    rintro ⟨u, lost, below⟩
    exact (leads u lost).2 room (((leads u lost).1 x).mp below)
  · refine (clears_disposeAll (old.map Structure.detach).toList changed).congr (fun y live => ?_)
      fun _ _ => Iff.rfl
    have there : (h.object? y).isSome := by
      rwa [← isSome_setObject found (.struct after) y]
    rw [owners]
    refine exists_congr fun u => and_congr_right fun lost => ?_
    rw [(leads u lost).1 y, reaches_iff, and_iff_right there]

/-- The keys of the structure that a value refers to can not be used so. -/
def Overflows (h : Heap H) (target : Value) (uses : Structure → List Use) : Prop :=
  ∃ s, h.structureOf target = .ok s ∧ s.overflows (uses s) = true

/-- How a write fails: with a plain error for one of some reasons, after which the value is
disposed, or in a panic. -/
def Declines (h : Heap H) (value : Value) (reason overflow : Prop) (e : Error) (k : Heap H) : Prop :=
  (e.panic? = none ∧ reason ∧ h.Clears (h.Reaches value) (fun _ => False) k) ∨
    (e = .ofPanic .overflow ∧ overflow)

theorem not_overflows {uses : Structure → List Use} (found : h.structureFor target uses = .ok s) :
    ¬ h.Overflows target uses := by
  rintro ⟨t, there, past⟩
  obtain ⟨here, fits⟩ := structureFor_eq_ok.mp found
  cases here.symm.trans there
  rw [fits] at past
  cases past

theorem declines_of_structureFor {uses : Structure → List Use} {e : Error}
    (failed : h.structureFor target uses = .error e)
    (disposed : h.Clears (h.Reaches value) (fun _ => False) k) :
    h.Declines value (OwnsItself target value ∨ ∃ e, h.structureOf target = .error e)
      (h.Overflows target uses) e k := by
  rcases structureFor_eq_error failed with missing | overflow
  · exact .inl ⟨structureOf_eq_error missing, .inr ⟨e, missing⟩, disposed⟩
  · exact .inr overflow

theorem setChildKey_writes (orderly : h.Orderly []) (forest : h.Forest) (target : Value) (key : Key)
    (value : Value) :
    (setChildKey target key value).Ensures h
      (fun _ k => ¬ OwnsItself target value ∧ ¬ h.Overflows target (fun _ => [.write key]) ∧
        ∃ x s old after, target.ref? = some ⟨.struct, x⟩ ∧ h.Wrote x s key value old after k)
      (h.Declines value (OwnsItself target value ∨ ∃ e, h.structureOf target = .error e)
        (h.Overflows target fun _ => [.write key])) := by
  have disposed := (clears_dispose h value).reaches
  unfold setChildKey
  rw [Effect.ensures_ite]
  split
  · rename_i guard
    have itself : OwnsItself target value := by simpa [OwnsItself] using guard
    exact .inl ⟨rfl, .inl itself, disposed⟩
  · rename_i guard
    have other : ¬ OwnsItself target value := by simpa [OwnsItself] using guard
    rw [Effect.ensures_bind, Effect.ensures_get]
    split
    · rename_i e missing
      exact declines_of_structureFor missing disposed
    · rename_i s' found
      rw [Effect.ensures_bind]
      refine ensures_changeStructure (fun e missing => ?_) fun x s refers fits object => ?_
      · rw [found] at missing
        cases missing
      · obtain ⟨old, wrote⟩ := Wrote.of_set orderly forest object key value _
        exact ⟨other, not_overflows fits, x, s, old, _, refers, wrote⟩

/-! ## After a reading -/

section Read
variable (found : h.object? x = some (.struct s)) (valid : s.storage.Valid)
  (same : Structure.Read s read)
include found same

theorem owns_read : (h.setObject x (.struct read)).Owns = h.Owns :=
  owns_setObject_same found fun y => by simp only [Object.held, same.values]

theorem reaches_read : (h.setObject x (.struct read)).Reaches u y ↔ h.Reaches u y := by
  rw [reaches_iff, reaches_iff, isSome_setObject found]
  unfold Below
  rw [owns_read found same]

include valid in
theorem Wrote.of_read (roomless : read.Roomless → s.Roomless)
    (wrote : (h.setObject x (.struct read)).Wrote x read key value old after k) :
    h.Wrote x s key value old after k := by
  refine ⟨found, wrote.written.of_read valid same roomless,
    fun room => wrote.stays (mt roomless room), ?_⟩
  have clears : (h.setObject x (.struct after)).Clears _ _ k := fun i => by
    rw [wrote.clears i, slots_setObject_twice]
  refine clears.congr (fun y _ => ?_) fun _ _ => Iff.rfl
  simp only [reaches_read found same]

end Read

/-! ## A value at one end -/

theorem overflows_uses (s : Structure) (front : Bool) :
    s.overflows ((Write.append front).uses s) =
      (s.overflows (endUses front) || s.overflows [.write (s.edgeKey front).1]) :=
  s.overflows_append (endUses front) _

theorem roomless_of_edgeKey {front : Bool} (roomless : (s.edgeKey front).2.Roomless) :
    s.Roomless := by
  have shrinks : s.Shrinks (s.edgeKey front).2 := by
    cases front with
    | true => exact Structure.shrinks_prependKey s
    | false => exact Structure.shrinks_appendKey s
  obtain ⟨r, ring, none⟩ := roomless
  obtain ⟨r', ring', limit, -⟩ := shrinks r ring
  exact ⟨r', ring', limit.symm.trans none⟩

/-- Once the key at one end was found, an append overflows only where that key is written. -/
theorem overflows_append_iff {front : Bool} (found : h.structureOf target = .ok s)
    (safe : s.overflows (endUses front) = false)
    (read : k.structureOf target = .ok (s.edgeKey front).2) :
    h.Overflows target (Write.append front).uses ↔
      k.Overflows target fun _ => [.write (s.edgeKey front).1] := by
  constructor
  · rintro ⟨t, there, past⟩
    cases found.symm.trans there
    rw [overflows_uses, safe, Bool.false_or] at past
    exact ⟨_, read, (s.overflows_edgeKey front _).trans past⟩
  · rintro ⟨t, there, past⟩
    cases read.symm.trans there
    exact ⟨s, found, by rw [overflows_uses, safe, Bool.false_or, ← s.overflows_edgeKey front, past]⟩

theorem append_writes (orderly : h.Orderly []) (forest : h.Forest) (target value : Value)
    (front : Bool) :
    (Heap.append target value front).Ensures h
      (fun _ k => ¬ OwnsItself target value ∧ ¬ h.Overflows target (Write.append front).uses ∧
        ∃ x s old after, target.ref? = some ⟨.struct, x⟩ ∧
          h.Wrote x s (s.edgeKey front).1 value old after k)
      (h.Declines value (OwnsItself target value ∨ ∃ e, h.structureOf target = .error e)
        (h.Overflows target (Write.append front).uses)) := by
  unfold Heap.append
  rw [Effect.ensures_bind, Effect.ensures_get]
  split
  · rename_i e missing
    refine (declines_of_structureFor missing (clears_dispose h value).reaches).imp_right ?_
    rintro ⟨rfl, s, found, past⟩
    exact ⟨rfl, s, found, by rw [overflows_uses, past, Bool.true_or]⟩
  rename_i s found
  rw [Effect.ensures_bind]
  unfold readStructure
  refine ensures_changeStructure (fun e missing => ?_) fun x s' refers found' object => ?_
  · rw [found] at missing
    cases missing
  cases found.symm.trans found'
  obtain ⟨live, safe⟩ := structureFor_eq_ok.mp found
  have valid : s.storage.Valid := orderly.valid.object? object
  obtain ⟨-, -, same, -⟩ := Structure.edgeKey_spec valid front safe
  have placed : (h.setObject x (.struct (s.edgeKey front).2)).structureOf target =
      .ok (s.edgeKey front).2 :=
    structureOf_of_object? refers ((object?_setObject object x).trans (if_pos rfl))
  have overflow := overflows_append_iff live safe placed
  have writes := setChildKey_writes (h := h.setObject x (.struct (s.edgeKey front).2))
    (orderly.setObject object same.valid)
    (fun y circle => forest y (owns_read object same ▸ circle)) target (s.edgeKey front).1 value
  refine Effect.Ensures.mono writes ?_ ?_
  · rintro - k ⟨other, fits, y, read, old, after, refers', wrote⟩
    cases refers.symm.trans refers'
    have placed := wrote.before
    rw [object?_setObject object, if_pos rfl] at placed
    cases placed
    exact ⟨other, mt overflow.mp fits, x, s, old, after, refers,
      wrote.of_read object valid same roomless_of_edgeKey⟩
  · rintro e k (⟨plain, itself | ⟨e', missing⟩, clears⟩ | ⟨rfl, past⟩)
    · -- the structure goes with the value, so it does not matter that it was read
      have owner := Value.owned?_of_owns itself.1 (itself.2.trans refers)
      have reached : h.Reaches value x := .here owner object
      refine .inl ⟨plain, .inl itself, ?_⟩
      exact (clears.of_setObject object _ ((reaches_read object same).mpr reached)).congr
        (fun y _ => reaches_read object same) fun _ _ => Iff.rfl
    · rw [placed] at missing
      cases missing
    · exact .inr ⟨rfl, overflow.mpr past⟩

/-! ## All writes -/

/-- A write is refused if no structure can hold the key, if the target is no live structure, or if
the value owns the target. -/
def Write.Refused (w : Write) (h : Heap H) (target value : Value) : Prop :=
  (∃ s e, w.key? s = .error e) ∨ (∃ e, h.structureOf target = .error e) ∨ OwnsItself target value

theorem Write.storable {w : Write} {op : HeapM H Unit} {key : Structure → Key}
    (under : ∀ s, w.key? s = .ok (key s))
    (writes : op.Ensures h
      (fun _ k => ¬ OwnsItself target value ∧ ¬ h.Overflows target w.uses ∧ ∃ x s old after,
        target.ref? = some ⟨.struct, x⟩ ∧ h.Wrote x s (key s) value old after k)
      (h.Declines value (OwnsItself target value ∨ ∃ e, h.structureOf target = .error e)
        (h.Overflows target w.uses))) :
    op.Ensures h
      (fun _ k => ¬ w.Refused h target value ∧ ¬ h.Overflows target w.uses ∧
        ∃ x s key old after, target.ref? = some ⟨.struct, x⟩ ∧ w.key? s = .ok key ∧
          h.Wrote x s key value old after k)
      (h.Declines value (w.Refused h target value) (h.Overflows target w.uses)) := by
  refine writes.mono ?_ fun _ k declines => declines.imp_left
    fun ⟨plain, reason, clears⟩ => ⟨plain, .inr reason.symm, clears⟩
  rintro - k ⟨other, fits, x, s, old, after, refers, wrote⟩
  refine ⟨?_, fits, x, s, key s, old, after, refers, under s, wrote⟩
  rintro (⟨s', e, bad⟩ | ⟨e, missing⟩ | itself)
  · cases (under s').symm.trans bad
  · rw [structureOf_of_object? refers wrote.before] at missing
    cases missing
  · exact other itself

/-- A write that fails with an error was refused, and frees exactly the objects that the value
reaches. A write that panics uses a key beside which no word is left. A write that is done frees
exactly those which the entry reaches that it displaced or evicted; the entries of the target are
those from before but for these two, and all else on the heap is as it was. -/
theorem write_frees_only_lost (orderly : h.Orderly []) (forest : h.Forest) (w : Write)
    (target value : Value) :
    (w.run target value).Ensures h
      (fun _ k => ¬ w.Refused h target value ∧ ¬ h.Overflows target w.uses ∧
        ∃ x s key old after, target.ref? = some ⟨.struct, x⟩ ∧ w.key? s = .ok key ∧
          h.Wrote x s key value old after k)
      (h.Declines value (w.Refused h target value) (h.Overflows target w.uses)) := by
  cases w with
  | childKey key =>
    exact Write.storable (fun _ => rfl)
      (setChildKey_writes orderly forest target key value)
  | append front =>
    exact Write.storable (fun _ => rfl)
      (append_writes orderly forest target value front)
  | child key =>
    show (setChild target key value).Ensures h _ _
    unfold setChild
    cases stands : Key.ofValue key with
    | error e =>
      exact .inl ⟨ofValue_eq_error stands, .inl ⟨default, e, stands⟩,
        (clears_dispose h value).reaches⟩
    | ok k =>
      have uses : (Write.child key).uses = fun _ => [.write k] := by
        funext s
        simp [Write.uses, stands, Except.toOption]
      refine Write.storable (fun _ => stands) ?_
      rw [uses]
      exact setChildKey_writes orderly forest target k value

/-! ## A structure in a structure -/

def rising (h : Heap H) : Bool :=
  h.slots.toList.zipIdx.all fun (slot, i) =>
    slot.held.all fun v => v.owned?.all fun ref => i < ref.handle.index

theorem forest_of_rising (rising : h.rising = true) : h.Forest := by
  have step : ∀ y z, h.Owns y z → y.index < z.index := by
    rintro y z ⟨o, found, pos⟩
    obtain ⟨slot, hslot, -, object⟩ := object?_eq_some_iff.mp found
    obtain ⟨v, mem, owner⟩ := exists_mem_of_tally_pos pos
    obtain ⟨ref, owned, rfl⟩ := Value.owned?_of_pos owner
    have inside : (slot, y.index) ∈ h.slots.toList.zipIdx :=
      List.mk_mem_zipIdx_iff_getElem?.mpr (by rwa [Array.getElem?_toList])
    have all := List.all_eq_true.mp (List.all_eq_true.mp rising _ inside) v
      (by rwa [Slot.held_of_some object])
    simpa [owned] using all
  have path : ∀ y z, TransGen h.Owns y z → y.index < z.index := by
    intro y z path
    induction path with
    | single owns => exact step _ _ owns
    | tail _ owns below => exact Nat.lt_trans below (step _ _ owns)
  exact fun y circle => Nat.lt_irrefl _ (path y y circle)

def nested : List (HeapOp Unit) :=
  [.allocStructure 0, .allocStructure 0,
    .setChildKey firstMade (.str "a") (.owned ⟨.struct, ⟨1, 0⟩⟩)]

theorem write_frees_only_lost_nested : (History.run {} nested).heap.Orderly [] ∧
    (History.run {} nested).heap.Forest ∧
    ∃ k, (Write.childKey (.str "a")).run firstMade (.int 5) (History.run {} nested).heap = .ok () k ∧
      k.object? ⟨1, 0⟩ = none ∧ ∃ x s key old after, firstMade.ref? = some ⟨.struct, x⟩ ∧
        (Write.childKey (.str "a")).key? s = .ok key ∧
        (History.run {} nested).heap.Wrote x s key (.int 5) old after k := by
  have orderly : (History.run {} nested).heap.Orderly [] := orderly_of_history (by simp [nested])
  have forest : (History.run {} nested).heap.Forest := forest_of_rising (by decide +kernel)
  have writes := write_frees_only_lost orderly forest (.childKey (.str "a")) firstMade (.int 5)
  obtain ⟨k, ran, gone⟩ : ∃ k, (Write.childKey (.str "a")).run firstMade (.int 5)
      (History.run {} nested).heap = .ok () k ∧ k.object? ⟨1, 0⟩ = none := ⟨_, rfl, rfl⟩
  exact ⟨orderly, forest, k, ran, gone, ((Effect.ensures_of_eq_ok ran).mp writes).2.2⟩

end Heap

end ScriptMachine
