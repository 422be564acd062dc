import ScriptMachine.Proofs.Structure.Appending
import ScriptMachine.Proofs.Structure.Layouts
import ScriptMachine.Proofs.Structure.Refinement

/-!
# Queues with a limit

A queue with a limit evicts an entry for each one that is pushed past it, so pushing, popping and
removing never leave more entries than the limit allows. Setting a key between the ends is no push:
where the entry under it was removed before, the empty cell is filled and nothing is evicted. This
is the only way for a queue to come to hold more than its limit. The entry that is set is never the
one that is evicted.
-/

set_option autoImplicit false

namespace ScriptMachine

namespace Ring

open SortedMap (lookup)

variable {r after : Ring} {k : Key} {v : Value} {old : Option Value} {limit : Nat}

def Vacant (r : Ring) (k : Key) : Prop := ∃ i, r.index? k = some i ∧ r.cells.at? i = none

/-! ## Sizes -/

theorem Popped.size {w : Value} {popped : Option Value × Ring} (valid : r.Valid)
    (pop : Popped r k w popped) : popped.2.size + 1 = r.size := by
  have found := (SortedMap.lookup_eq_some_iff valid.ascending).mpr pop.mem
  have counted := (SortedMap.drop_perm found).length_eq
  rw [size_eq, size_eq, pop.entries]
  simpa using counted

theorem Popped.shrinks {w : Value} {popped : Option Value × Ring} (valid : r.Valid)
    (pop : Popped r k w popped) : popped.2.limit = r.limit ∧ popped.2.size ≤ r.size := by
  have size := pop.size valid
  exact ⟨pop.limit, by omega⟩

theorem Pushed.size {pushed : Ring} (valid : r.Valid) (push : Pushed r k v pushed) :
    pushed.size = r.size + 1 := by
  have counted := (SortedMap.put_perm valid.ascending k v).length_eq
  rw [push.absent] at counted
  rw [size_eq, size_eq, push.entries]
  simpa using counted

theorem Pushed.size_le {pushed : Ring} (push : Pushed r k v pushed) (bounded : r.limit = some limit)
    (fits : ¬ pushed.overLimit = true) : pushed.size ≤ limit := by
  have same := push.limit.trans bounded
  simpa [overLimit, same, Ring.size] using fits

theorem Valid.size_pushBack (valid : r.Valid) (bounded : r.limit = some limit) {w : Int64}
    (next : w.toInt = r.stop) (v : Value) : (r.pushBack v).2.size ≤ max limit r.size := by
  have push := valid.append next v
  have size := push.size valid
  unfold Ring.pushBack
  simp only
  split
  · rcases push.valid.popFront with ⟨none, -⟩ | ⟨k', u, pop, -⟩
    · exact absurd none (push.entries_ne_nil valid)
    · have := pop.size push.valid
      omega
  · rename_i fits
    exact Nat.le_trans (push.size_le bounded fits) (Nat.le_max_left ..)

theorem Valid.size_pushFront (valid : r.Valid) (bounded : r.limit = some limit) {w : Int64}
    (previous : w.toInt = r.first.toInt - 1) (v : Value) :
    (r.pushFront v).2.size ≤ max limit r.size := by
  have push := valid.prepend previous v
  have size := push.size valid
  unfold Ring.pushFront
  simp only
  split
  · rcases push.valid.popBack with ⟨none, -⟩ | ⟨k', u, pop, -⟩
    · exact absurd none (push.entries_ne_nil valid)
    · have := pop.size push.valid
      omega
  · rename_i fits
    exact Nat.le_trans (push.size_le bounded fits) (Nat.le_max_left ..)

/-- Overwriting keeps the size, and so does filling an empty cell but for the new entry. -/
theorem Valid.size_overwritten (valid : r.Valid) {i : Nat} (found : r.index? k = some i)
    (v : Value) : (r.store i v).size =
      if (r.cells.at? i).isSome then r.size else r.size + 1 := by
  obtain ⟨-, old, entries⟩ := valid.overwritten found v
  have counted := (SortedMap.put_perm valid.ascending k v).length_eq
  rw [← old] at counted
  rw [size_eq, size_eq, entries]
  cases cell : r.cells.at? i <;> simp [cell] at counted ⊢ <;> omega

/-- Only an empty cell between the ends makes a queue longer than it may be. -/
theorem Valid.size_place (valid : r.Valid) (bounded : r.limit = some limit)
    (placed : r.place k v = .stored old after) :
    (r.Vacant k → after.size = r.size + 1) ∧ (¬ r.Vacant k → after.size ≤ max limit r.size) := by
  have pushed : r.index? k = none → after.size ≤ max limit r.size →
      (r.Vacant k → after.size = r.size + 1) ∧ (¬ r.Vacant k → after.size ≤ max limit r.size) :=
    fun absent size => ⟨fun ⟨i, found, _⟩ => by simp [absent] at found, fun _ => size⟩
  cases placed_of_place placed with
  | @overwrites _ i found =>
    have size := valid.size_overwritten found v
    refine ⟨?_, fun filled => ?_⟩
    · rintro ⟨j, found', empty⟩
      rw [found] at found'
      cases found'
      simpa [empty] using size
    · have : (r.cells.at? i).isSome := by
        cases cell : r.cells.at? i with
        | none => exact absurd ⟨i, found, cell⟩ filled
        | some u => rfl
      rw [if_pos this] at size
      omega
  | @begins w absent empty =>
    obtain ⟨valid', next⟩ := valid.begins empty w
    exact pushed absent (valid'.size_pushBack bounded next v)
  | behind absent next => exact pushed absent (valid.size_pushBack bounded next v)
  | before absent previous => exact pushed absent (valid.size_pushFront bounded previous v)

/-! ## The entry that is pushed -/

theorem Valid.key_between {u : Value} (valid : r.Valid) (mem : (k, u) ∈ r.entries) :
    ∃ w, k = .int w ∧ r.first.toInt ≤ w.toInt ∧ w.toInt < r.stop := by
  have found := (SortedMap.lookup_eq_some_iff valid.ascending).mpr mem
  rw [← valid.get?_eq, get?] at found
  obtain ⟨i, index, -⟩ := Option.bind_eq_some_iff.mp found
  obtain ⟨inside, w, same, word⟩ := index?_eq_some index
  exact ⟨w, same, by omega, by rw [stop_eq]; omega⟩

/-- An entry that is pushed past the limit is not the one that makes room, unless there is no room
at all. -/
theorem Pushed.stays {pushed : Ring} {k' : Key} {u : Value} {popped : Option Value × Ring}
    (valid : r.Valid) (push : Pushed r k v pushed) (excess : pushed.overLimit = true)
    (room : r.limit ≠ some 0) (pop : Popped pushed k' u popped)
    (farthest : k' = k → r.entries = []) : lookup k popped.2.entries = some v := by
  have other : k ≠ k' := by
    rintro rfl
    have empty : r.size = 0 := by rw [size_eq, farthest rfl, List.length_nil]
    have size := push.size valid
    unfold overLimit at excess
    rw [push.limit] at excess
    cases limit : r.limit with
    | none => simp [limit] at excess
    | some n =>
      simp only [limit, decide_eq_true_eq] at excess
      have single : n < 1 := by rwa [← Nat.zero_add 1, ← empty, ← size]
      exact room (by rw [limit, Nat.lt_one_iff.mp single])
  rw [pop.entries, SortedMap.lookup_drop push.valid.ascending, if_neg other, push.entries,
    SortedMap.lookup_put valid.ascending, if_pos rfl]

theorem Pushed.mem {pushed : Ring} {e : Key × Value} (valid : r.Valid) (push : Pushed r k v pushed)
    (mem : e ∈ r.entries) : e ∈ pushed.entries := by
  have found := (SortedMap.lookup_eq_some_iff valid.ascending).mpr mem
  have other : e.1 ≠ k := fun same => by
    rw [same, push.absent] at found
    cases found
  refine (SortedMap.lookup_eq_some_iff push.valid.ascending).mp ?_
  rw [push.entries, SortedMap.lookup_put valid.ascending, if_neg other, found]

theorem Valid.stays_pushBack (valid : r.Valid) (room : r.limit ≠ some 0) {w : Int64}
    (next : w.toInt = r.stop) (v : Value) : lookup (.int w) (r.pushBack v).2.entries = some v := by
  have push := valid.append next v
  unfold Ring.pushBack
  simp only
  split
  · rename_i excess
    rcases push.valid.popFront with ⟨none, -⟩ | ⟨k', u, pop, least⟩
    · exact absurd none (push.entries_ne_nil valid)
    · refine push.stays valid excess room pop ?_
      rintro rfl
      refine List.eq_nil_iff_forall_not_mem.mpr fun e mem => ?_
      obtain ⟨a, key, -, below⟩ := valid.key_between mem
      refine least e (push.mem valid mem) ?_
      rw [key]
      exact Int.compare_eq_lt.mpr (next ▸ below)
  · rw [push.entries, SortedMap.lookup_put valid.ascending, if_pos rfl]

theorem Valid.stays_pushFront (valid : r.Valid) (room : r.limit ≠ some 0) {w : Int64}
    (previous : w.toInt = r.first.toInt - 1) (v : Value) :
    lookup (.int w) (r.pushFront v).2.entries = some v := by
  have push := valid.prepend previous v
  unfold Ring.pushFront
  simp only
  split
  · rename_i excess
    rcases push.valid.popBack with ⟨none, -⟩ | ⟨k', u, pop, greatest⟩
    · exact absurd none (push.entries_ne_nil valid)
    · refine push.stays valid excess room pop ?_
      rintro rfl
      refine List.eq_nil_iff_forall_not_mem.mpr fun e mem => ?_
      obtain ⟨a, key, above, -⟩ := valid.key_between mem
      refine greatest e (push.mem valid mem) ?_
      rw [key]
      exact Int.compare_eq_lt.mpr (by omega)
  · rw [push.entries, SortedMap.lookup_put valid.ascending, if_pos rfl]

theorem Valid.stays_place (valid : r.Valid) (room : r.limit ≠ some 0)
    (placed : r.place k v = .stored old after) : lookup k after.entries = some v := by
  cases placed_of_place placed with
  | overwrites found =>
    rw [(valid.overwritten found v).2.2, SortedMap.lookup_put valid.ascending, if_pos rfl]
  | @begins w _ empty =>
    obtain ⟨valid', next⟩ := valid.begins empty w
    exact valid'.stays_pushBack room next v
  | behind _ next => exact valid.stays_pushBack room next v
  | before _ previous => exact valid.stays_pushFront room previous v

end Ring

namespace Structure

open SortedMap (lookup)

/-! ## Structures that are queues -/

def Gap (s : Structure) (k : Key) : Prop :=
  ∃ a w b : Int64, k = .int w ∧ a.toInt < w.toInt ∧ w.toInt < b.toInt ∧
    s.contains (.int a) ∧ s.contains (.int b) ∧ ¬ s.contains (.int w)

/-- An operation that sets a key in a gap of a queue which is full. -/
def Overfills (limit : Nat) (s : Structure) (op : Operation) : Prop :=
  s.layout = .ring ∧ limit ≤ s.size ∧ ∃ k v, op = .set k v ∧ s.Gap k

/-- The state that operations lead to, unless a key overflows on the way. -/
def reached (ops : List Operation) (state : State) : Option State :=
  (performAll ops state).map Prod.snd

variable {s : Structure} {pools : StructurePools} {r : Ring} {limit : Nat} {k : Key} {v : Value}

theorem gap_iff (ring : s.storage = .ring r) (valid : r.Valid) : s.Gap k ↔ r.Vacant k := by
  have read : ∀ k, s.contains k = ((r.index? k).bind r.cells.at?).isSome := by
    intro k
    rw [contains, Structure.get?, ring]
    rfl
  have stop := r.stop_eq
  constructor
  · rintro ⟨a, w, b, rfl, below, above, first, last, absent⟩
    rw [read] at first last absent
    have start : r.first.toInt ≤ a.toInt := by
      cases found : r.index? (.int a) with
      | none => simp [found] at first
      | some i =>
        obtain ⟨-, w', same, word⟩ := Ring.index?_eq_some found
        cases same
        omega
    have finish : b.toInt < r.stop := by
      cases found : r.index? (.int b) with
      | none => simp [found] at last
      | some i =>
        obtain ⟨inside, w', same, word⟩ := Ring.index?_eq_some found
        cases same
        omega
    have found : r.index? (.int w) = some (w.toInt - r.first.toInt).toNat := by
      rw [Ring.index?, if_pos (by omega)]
    rw [found] at absent
    exact ⟨_, found, by simpa using absent⟩
  · rintro ⟨i, found, empty⟩
    obtain ⟨inside, w, rfl, word⟩ := Ring.index?_eq_some found
    have front := valid.front (by omega)
    have back := valid.back (by omega)
    have interior : i ≠ 0 ∧ i ≠ r.cells.size - 1 := by
      constructor <;> rintro rfl <;> simp_all [Cells.occupied]
    have atEnd : ∀ j, r.cells.occupied j = true → j < r.cells.size →
        ∃ a : Int64, a.toInt = r.first.toInt + j ∧ s.contains (.int a) := by
      intro j occupied small
      obtain ⟨u, cell⟩ := r.cells.occupied_iff.mp occupied
      obtain ⟨low, high⟩ := valid.fits j u cell
      have word := Cells.toInt_ofInt low high
      refine ⟨_, word, ?_⟩
      rw [read, Ring.index?, word, if_pos (by omega)]
      have position : (r.first.toInt + j - r.first.toInt).toNat = j := by omega
      rw [Option.bind_some, position, cell, Option.isSome_some]
    obtain ⟨a, first, hasFirst⟩ := atEnd 0 front (by omega)
    obtain ⟨b, last, hasLast⟩ := atEnd _ back (by omega)
    refine ⟨a, w, b, rfl, by omega, by omega, hasFirst, hasLast, ?_⟩
    rw [read, found]
    simp [empty]

/-! ## Setting a key -/

theorem set_stored (pools : StructurePools) {after : Ring} {old : Option Value}
    (ring : s.storage = .ring r) (placed : r.place k (attach v) = .stored old after) :
    (s.set pools k v).2.1.storage = .ring after := by
  have run : (s.set pools k v).2.1 = (s.placeWithin pools k (attach v) (3 + 1)).2.1 := rfl
  rw [run, placeWithin, ring]
  simp only [Storage.place, placed]

/-- A structure that is a queue after setting a key was one before, and placed the entry. -/
theorem set_ring (ring : (s.set pools k v).2.1.layout = .ring) :
    ∃ r after old, s.storage = .ring r ∧ r.place k (attach v) = .stored old after ∧
      (s.set pools k v).2.1.storage = .ring after := by
  have before : s.layout = .ring := ((widens_set s pools k v).layout (.inr ring)).trans ring
  obtain ⟨r, storage⟩ := layout_eq_ring.mp before
  have run : (s.set pools k v).2.1 = (s.placeWithin pools k (attach v) (3 + 1)).2.1 := rfl
  rw [run, placeWithin] at ring ⊢
  rw [storage] at ring ⊢
  simp only [Storage.place] at ring ⊢
  cases placed : r.place k (attach v) with
  | stored old after => exact ⟨r, after, old, rfl, placed, rfl⟩
  | needs capacity => exact absurd placed (Ring.place_ne_needs k _ capacity)
  | refused =>
    rw [placed] at ring
    have table : ¬ (s.reshape pools k none).1.Positional := not_positional_migrate s pools _
    exact absurd (.inr (((widens_placeWithin 3 _ _).layout (.inr ring)).trans ring)) table

def Roomless (s : Structure) : Prop := ∃ r, s.storage = .ring r ∧ r.limit = some 0

theorem get?_set (valid : s.storage.Valid) (clean : pools.Clean) (room : ¬ s.Roomless) (k : Key)
    (v : Value) : (s.set pools k v).2.1.get? k = some (attach v) := by
  obtain ⟨old, -, stored, -⟩ := set_spec valid clean k v
  have ascending : SortedMap.Ascending s.entries := valid.ascending
  have looked : (s.set pools k v).2.1.get? k = lookup k _ := stored.valid.get?_eq k
  rw [looked]
  rcases stored.entries with ⟨-, entries⟩ | ⟨bounded, -⟩
  · exact (congrArg (lookup k) entries).trans
      ((SortedMap.lookup_put ascending k _ k).trans (if_pos rfl))
  cases storage : s.storage with
  | ring r =>
    rw [storage] at valid
    cases placed : r.place k (attach v) with
    | stored old after =>
      rw [set_stored pools storage placed]
      exact Ring.Valid.stays_place valid (fun none => room ⟨r, storage, none⟩) placed
    | needs capacity => exact absurd placed (Ring.place_ne_needs k _ capacity)
    | refused =>
      -- the queue becomes a table, which evicts nothing
      have reshaped := migrate_reshaped (storage ▸ valid : s.storage.Valid) clean k (attach v)
      obtain ⟨old', after, stores⟩ := reshaped.stores
      have stored' := reshaped.valid.place_stored stores
      have run : (s.set pools k v).2.1.storage = after := by
        have unfolded : (s.set pools k v).2.1 = (s.placeWithin pools k (attach v) (3 + 1)).2.1 := rfl
        rw [unfolded, placeWithin]
        simp only [storage, Storage.place, placed, reshape]
        rw [← storage, placeWithin]
        simp only [stores]
      obtain ⟨-, entries⟩ := stored'.entries.resolve_right fun past => past.1 reshaped.unbounded
      rw [run, entries]
      exact (SortedMap.lookup_put reshaped.valid.ascending k _ k).trans (if_pos rfl)
  | _ => exact absurd (by rw [storage]; trivial) bounded

/-! ## One operation -/

def Shrinks (s after : Structure) : Prop :=
  ∀ r', after.storage = .ring r' →
    ∃ r, s.storage = .ring r ∧ r'.limit = r.limit ∧ r'.size ≤ r.size

theorem Shrinks.refl (s : Structure) : Shrinks s s :=
  fun r' ring => ⟨r', ring, rfl, Nat.le_refl _⟩

theorem Shrinks.trans {a b c : Structure} (first : Shrinks a b) (second : Shrinks b c) :
    Shrinks a c := by
  intro r'' ring''
  obtain ⟨r', ring', limit', size'⟩ := second r'' ring''
  obtain ⟨r, ring, limit, size⟩ := first r' ring'
  exact ⟨r, ring, limit'.trans limit, Nat.le_trans size' size⟩

theorem shrinks_delete (valid : s.storage.Valid) (k : Key) : Shrinks s (s.delete k).2 := by
  intro r' ring'
  have removed : (s.storage.remove k).2 = .ring r' := ring'
  cases storage : s.storage with
  | ring r =>
    rw [storage] at removed valid
    obtain rfl : (r.remove k).2 = r' := Storage.ring.inj removed
    obtain ⟨-, limit, -, entries⟩ := Ring.Valid.remove valid k
    refine ⟨r, rfl, limit, ?_⟩
    rw [Ring.size_eq, Ring.size_eq, entries]
    exact (SortedMap.drop_sublist k r.entries).length_le
  | keyed t =>
    rw [storage] at removed
    cases k <;> cases removed
  | _ =>
    rw [storage] at removed
    cases removed

theorem shrinks_of_same {after : Structure} (layout : after.layout = s.layout)
    (same : ∀ r, s.storage = .ring r → after = s) : Shrinks s after := by
  intro r' ring'
  obtain ⟨r, ring⟩ := layout_eq_ring.mp (layout.symm.trans (layout_eq_ring.mpr ⟨r', ring'⟩))
  rw [same r ring] at ring'
  exact ⟨r', ring', rfl, Nat.le_refl _⟩

theorem shrinks_firstKey? (s : Structure) : Shrinks s s.firstKey?.2 :=
  shrinks_of_same (layout_firstKey? s) fun r ring => by simp only [firstKey?, ring]

theorem shrinks_lastKey? (s : Structure) : Shrinks s s.lastKey?.2 :=
  shrinks_of_same (layout_lastKey? s) fun r ring => by simp only [lastKey?, ring]

theorem shrinks_appendKey (s : Structure) : Shrinks s s.appendKey.2 :=
  shrinks_of_same (layout_appendKey s) fun r ring => by simp only [appendKey, ring]

theorem shrinks_prependKey (s : Structure) : Shrinks s s.prependKey.2 :=
  shrinks_of_same (layout_prependKey s) fun r ring => by simp only [prependKey, ring]

theorem shrinks_deleteRead {reading : Option Key × Structure} (valid : reading.2.storage.Valid)
    (shrinks : Shrinks s reading.2) : Shrinks s (deleteRead reading).2 := by
  obtain ⟨key, after⟩ := reading
  cases key with
  | none => exact shrinks
  | some k => exact shrinks.trans (shrinks_delete valid k)

theorem shrinks_popFront (valid : s.storage.Valid) : Shrinks s s.popFront.2 := by
  have other := shrinks_deleteRead (firstKey?_spec valid).2.valid (shrinks_firstKey? s)
  unfold popFront
  cases storage : s.storage with
  | ring r =>
    rw [storage] at valid
    rintro r' ring'
    obtain rfl : r.popFront.2 = r' := Storage.ring.inj ring'
    refine ⟨r, storage, ?_⟩
    rcases Ring.Valid.popFront valid with ⟨-, none⟩ | ⟨k, v, pop, -⟩
    · rw [none]
      exact ⟨rfl, Nat.le_refl _⟩
    · exact pop.shrinks valid
  | _ => exact other

theorem shrinks_popBack (valid : s.storage.Valid) : Shrinks s s.popBack.2 := by
  have other := shrinks_deleteRead (lastKey?_spec valid).2.valid (shrinks_lastKey? s)
  unfold popBack
  cases storage : s.storage with
  | ring r =>
    rw [storage] at valid
    rintro r' ring'
    obtain rfl : r.popBack.2 = r' := Storage.ring.inj ring'
    refine ⟨r, storage, ?_⟩
    rcases Ring.Valid.popBack valid with ⟨-, none⟩ | ⟨k, v, pop, -⟩
    · rw [none]
      exact ⟨rfl, Nat.le_refl _⟩
    · exact pop.shrinks valid
  | _ => exact other

theorem shrinks_rebuild (valid : s.storage.Valid) (clean : pools.Clean) {values : List Value}
    (length : values.length = s.size) : Shrinks s (s.rebuild pools values).1 := by
  obtain ⟨-, -, entries, -⟩ := rebuild_spec valid clean length
  intro r' ring'
  cases storage : s.storage with
  | ring r =>
    have same : r'.limit = r.limit := by
      simp only [rebuild, storage, Storage.ring.injEq] at ring'
      rw [← ring', Ring.limit_rebuild]
    have count : (s.rebuild pools values).1.entries.length = s.entries.length := by
      rw [entries, List.length_zip, List.length_map, List.length_map, length]
      exact Nat.min_eq_left (Nat.le_of_eq (Storage.size_eq _).symm)
    refine ⟨r, rfl, same, ?_⟩
    simp only [Structure.entries, ring', storage] at count
    rw [Ring.size_eq, Ring.size_eq]
    exact Nat.le_of_eq count
  | _ => simp [rebuild, storage] at ring'

structure Limited (limit : Nat) (state : State) : Prop where
  valid : state.1.storage.Valid
  clean : state.2.Clean
  limit : ∀ r, state.1.storage = .ring r → r.limit = some limit

def Bounded (limit : Nat) (op : Operation) (s after : Structure) : Prop :=
  (Overfills limit s op → after.layout = .ring ∧ limit < after.size) ∧
    (¬ Overfills limit s op → after.layout = .ring →
      s.layout = .ring ∧ after.size ≤ max limit s.size)

variable {state : State}

theorem Shrinks.size {after : Structure} (shrinks : Shrinks s after) (ring : after.layout = .ring) :
    s.layout = .ring ∧ after.size ≤ s.size := by
  obtain ⟨r', storage'⟩ := layout_eq_ring.mp ring
  obtain ⟨r, storage, -, size⟩ := shrinks r' storage'
  refine ⟨layout_eq_ring.mpr ⟨r, storage⟩, ?_⟩
  rwa [Structure.size, Structure.size, storage, storage']

theorem Shrinks.bounded {after : Structure} (shrinks : Shrinks s after) {op : Operation}
    (adds : ∀ k v, op ≠ .set k v) : Bounded limit op s after := by
  refine ⟨fun ⟨_, _, k, v, set, _⟩ => absurd set (adds k v), fun _ ring => ?_⟩
  obtain ⟨before, size⟩ := shrinks.size ring
  exact ⟨before, Nat.le_trans size (Nat.le_max_right ..)⟩

theorem Limited.shrinks {after : State} (limited : Limited limit state)
    (shrinks : Shrinks state.1 after.1) (valid : after.1.storage.Valid) (clean : after.2.Clean) :
    Limited limit after := by
  refine ⟨valid, clean, fun r' ring' => ?_⟩
  obtain ⟨r, ring, same, -⟩ := shrinks r' ring'
  exact same.trans (limited.limit r ring)

theorem Limited.set (limited : Limited limit state) (k : Key) (v : Value) :
    Limited limit (state.1.set state.2 k v).2 ∧
      Bounded limit (.set k v) state.1 (state.1.set state.2 k v).2.1 := by
  obtain ⟨old, -, stored, clean⟩ := set_spec limited.valid limited.clean k v
  have valid : ∀ {r}, state.1.storage = .ring r → r.Valid := fun ring => by
    have valid := limited.valid
    rwa [ring] at valid
  refine ⟨⟨stored.valid, clean, fun r' ring' => ?_⟩, ?_, fun within ring' => ?_⟩
  · obtain ⟨r, after, old, ring, placed, same⟩ := set_ring (layout_eq_ring.mpr ⟨r', ring'⟩)
    rw [ring'] at same
    cases same
    exact ((valid ring).place_stored placed).2.1.trans (limited.limit r ring)
  · rintro ⟨layout, full, k', v', same, gap⟩
    cases same
    obtain ⟨r, ring⟩ := layout_eq_ring.mp layout
    have vacant := (gap_iff ring (valid ring)).mp gap
    obtain ⟨i, found, -⟩ := id vacant
    obtain ⟨-, w, rfl, -⟩ := Ring.index?_eq_some found
    have placed : r.place (.int w) (attach v) =
        .stored (r.cells.at? i) (r.store i (attach v)) := by
      simp only [Ring.place, found]
    have after := set_stored state.2 ring placed
    have size := ((valid ring).size_place (limited.limit r ring) placed).1 vacant
    rw [Structure.size, ring] at full
    refine ⟨layout_eq_ring.mpr ⟨_, after⟩, ?_⟩
    rw [Structure.size, after]
    exact Nat.lt_of_lt_of_eq (Nat.lt_succ_of_le full) size.symm
  · obtain ⟨r, after, old, ring, placed, same⟩ := set_ring ring'
    have size := (valid ring).size_place (limited.limit r ring) placed
    refine ⟨layout_eq_ring.mpr ⟨r, ring⟩, ?_⟩
    rw [Structure.size, same, Structure.size, ring]
    by_cases vacant : r.Vacant k
    · -- a gap of a queue that is not full
      have room : ¬ limit ≤ r.size := fun full => within ⟨layout_eq_ring.mpr ⟨r, ring⟩,
        by rw [Structure.size, ring]; exact full, k, v, rfl, (gap_iff ring (valid ring)).mpr vacant⟩
      have grown := size.1 vacant
      simp only [Storage.size]
      omega
    · exact size.2 vacant

theorem not_gap_keyBehind (valid : s.storage.Valid) {top : Option Int64}
    (greatest : IsGreatestInt (ints s.entries) top) : ¬ s.Gap (keyBehind top) := by
  rintro ⟨a, w, b, same, -, above, -, last, -⟩
  rw [contains_int valid] at last
  obtain ⟨_, word, full, free⟩ := greatest.behind
  cases same.symm.trans word
  by_cases most : (ints s.entries Int64.maxValue).isSome
  · have high := Int64.toInt_le b
    rw [full most] at above
    exact absurd above (Int.not_lt.mpr high)
  · exact absurd above (Int.lt_asymm ((free most).2 b last))

theorem not_gap_keyBefore (valid : s.storage.Valid) {low : Option Int64}
    (least : IsLeastInt (ints s.entries) low) : ¬ s.Gap (keyBefore low) := by
  rintro ⟨a, w, b, same, below, -, first, -, -⟩
  rw [contains_int valid] at first
  obtain ⟨_, word, -, full, free⟩ := least.before
  cases same.symm.trans word
  by_cases most : (ints s.entries Int64.minValue).isSome
  · have low := Int64.minValue_le_toInt a
    rw [full most] at below
    exact absurd below (Int.not_lt.mpr low)
  · exact absurd below (Int.lt_asymm (free most a first))

theorem Limited.push (limited : Limited limit state) {after : Structure} (k : Key) (v : Value)
    (shrinks : Shrinks state.1 after) (read : Read state.1 after) (beside : ¬ state.1.Gap k)
    {op : Operation} (adds : ∀ k v, op ≠ .set k v) :
    Limited limit (after.set state.2 k v).2 ∧
      Bounded limit op state.1 (after.set state.2 k v).2.1 := by
  have same : after.Gap k ↔ state.1.Gap k := by
    have contains : ∀ k, after.contains k = state.1.contains k := fun k => by
      rw [contains, contains, Structure.get?, Structure.get?, read.valid.get?_eq,
        limited.valid.get?_eq]
      exact congrArg (fun entries => (SortedMap.lookup k entries).isSome) read.entries
    simp only [Gap, contains]
  have reached : Limited limit (after, state.2) := limited.shrinks shrinks read.valid limited.clean
  obtain ⟨limited', -, bounded⟩ := reached.set k v
  refine ⟨limited', ?_, fun _ ring => ?_⟩
  · rintro ⟨-, -, k, v, set, -⟩
    exact absurd set (adds k v)
  · obtain ⟨between, size⟩ := bounded (by
      rintro ⟨-, -, _, _, set, gap⟩
      cases set
      exact beside (same.mp gap)) ring
    obtain ⟨before, size'⟩ := shrinks.size between
    exact ⟨before, Nat.le_trans size (by simp only; omega)⟩

theorem Limited.perform (limited : Limited limit state) (op : Operation)
    (safe : state.1.overflows (op.uses state.1) = false) :
    Limited limit (perform state op).2 ∧ Bounded limit op state.1 (perform state op).2.1 := by
  obtain ⟨valid, clean, -⟩ := id limited
  have plain : ∀ {after : State} {op : Operation}, Shrinks state.1 after.1 →
      after.1.storage.Valid → after.2.Clean → (∀ k v, op ≠ .set k v) →
      Limited limit after ∧ Bounded limit op state.1 after.1 :=
    fun shrinks valid' clean' adds => ⟨limited.shrinks shrinks valid' clean', shrinks.bounded adds⟩
  cases op with
  | set k v => exact limited.set k v
  | delete k =>
    exact plain (shrinks_delete valid k) (delete_spec valid k).1 clean fun _ _ set => by cases set
  | popFront =>
    exact plain (shrinks_popFront valid) (popFront_spec valid).valid clean
      fun _ _ set => by cases set
  | popBack =>
    exact plain (shrinks_popBack valid) (popBack_spec valid).valid clean
      fun _ _ set => by cases set
  | append v =>
    obtain ⟨top, greatest, key, read⟩ := appendKey_spec valid
    refine limited.push _ v (shrinks_appendKey _) read ?_ fun _ _ set => by cases set
    rw [key (not_overflows_head safe)]
    exact not_gap_keyBehind valid greatest
  | prepend v =>
    obtain ⟨low, least, key, read⟩ := prependKey_spec valid
    refine limited.push _ v (shrinks_prependKey _) read ?_ fun _ _ set => by cases set
    rw [key (not_overflows_head safe)]
    exact not_gap_keyBefore valid least
  | share =>
    have length : (state.1.values.map Value.share).length = state.1.size := by
      rw [List.length_map, values, Storage.values_eq, List.length_map]
      exact state.1.storage.size_eq.symm
    obtain ⟨valid', -, -, clean'⟩ := rebuild_spec valid clean length
    exact plain (shrinks_rebuild valid clean length) valid' clean' fun _ _ set => by cases set
  | lend layout capacity =>
    exact plain (Shrinks.refl _) valid (lendFrom_clean clean layout capacity)
      fun _ _ set => by cases set
  | giveBack storage =>
    exact plain (Shrinks.refl _) valid (storage.release_clean clean) fun _ _ set => by cases set

/-! ## All operations -/

theorem limited_queue {limit : Nat} (positive : 0 < limit) (uses : List (Layout × Nat ⊕ Storage)) :
    Limited limit (queue (usedPools uses) limit) := by
  obtain ⟨valid, -, -, clean⟩ := queue_spec (usedPools_clean uses) limit
  refine ⟨valid, clean, fun r ring => ?_⟩
  simp only [queue, Storage.ring.injEq] at ring
  rw [← ring]
  simp [Ring.withLimit, positive]

theorem reached_cons (op : Operation) (ops : List Operation) (state : State) :
    reached (op :: ops) state =
      if state.1.overflows (op.uses state.1) then none else reached ops (perform state op).2 := by
  rw [reached, performAll]
  split
  · rfl
  · rw [Option.map_map]
    rfl

theorem reached_concat (ops : List Operation) (op : Operation) (state : State) :
    reached (ops ++ [op]) state = (reached ops state).bind fun between =>
      if between.1.overflows (op.uses between.1) then none else some (perform between op).2 := by
  induction ops generalizing state with
  | nil => exact reached_cons op [] state
  | cons first ops ih =>
    rw [List.cons_append, reached_cons, reached_cons]
    split
    · rfl
    · exact ih _

theorem Limited.reached (limited : Limited limit state) (ops : List Operation) {after : State}
    (leads : reached ops state = some after) : Limited limit after := by
  induction ops generalizing state with
  | nil =>
    cases leads
    exact limited
  | cons op ops ih =>
    rw [reached_cons] at leads
    split at leads
    · cases leads
    · rename_i safe
      exact ih (limited.perform op (Bool.eq_false_iff.mpr safe)).1 leads

/-- A queue holds at most its limit as long as it is a queue, after every operation, if and only if
no operation sets a key that was removed between two others while the queue is full. An operation in
which a key overflows is the last one. -/
theorem size_le_limit_iff (limit : Nat) (positive : 0 < limit)
    (uses : List (Layout × Nat ⊕ Storage)) (ops : List Operation) :
    (∀ n ≤ ops.length, ∀ after, reached (ops.take n) (queue (usedPools uses) limit) = some after →
      after.1.layout = .ring → after.1.size ≤ limit) ↔
    ∀ (n : Nat) (here : n < ops.length) (state : State),
      reached (ops.take n) (queue (usedPools uses) limit) = some state →
      state.1.overflows (ops[n].uses state.1) = false → ¬ Overfills limit state.1 ops[n] := by
  have start := limited_queue positive uses
  constructor
  · intro within n here state leads safe overfills
    obtain ⟨ring, more⟩ := ((start.reached _ leads).perform ops[n] safe).2.1 overfills
    have next := within (n + 1) here (perform state ops[n]).2
    rw [List.take_succ_eq_append_getElem here, reached_concat, leads, Option.bind_some, safe] at next
    exact absurd (next rfl ring) (Nat.not_le.mpr more)
  · intro never n
    induction n with
    | zero =>
      intro _ after leads _
      cases leads
      obtain ⟨-, -, none, -⟩ := queue_spec (usedPools_clean uses) limit
      have empty : (queue (usedPools uses) limit).1.size = 0 := by
        rw [Structure.size, Storage.size_eq]
        exact List.length_eq_zero_iff.mpr none
      exact Nat.le_trans (Nat.le_of_eq empty) (Nat.zero_le limit)
    | succ n ih =>
      intro here after leads ring
      rw [List.take_succ_eq_append_getElem here, reached_concat] at leads
      obtain ⟨state, between, step⟩ := Option.bind_eq_some_iff.mp leads
      split at step
      · cases step
      · rename_i safe
        have safe := Bool.eq_false_iff.mpr safe
        cases step
        obtain ⟨before, size⟩ := ((start.reached _ between).perform ops[n] safe).2.2
          (never n here state between safe) ring
        exact Nat.le_trans size
          (Nat.max_le.mpr ⟨Nat.le_refl _, ih (Nat.le_of_lt here) state between before⟩)

/-- Fills a queue, removes an entry from its middle, pushes one more and then sets the key that was
removed. -/
def refill : List Operation :=
  [.set (.int 0) (.int 10), .set (.int 1) (.int 11), .set (.int 2) (.int 12), .delete (.int 1),
    .set (.int 3) (.int 13), .set (.int 1) (.int 21)]

theorem size_le_limit_refill :
    0 < 4 ∧ ∀ n ≤ refill.length, ∀ after,
      reached (refill.take n) (queue (usedPools []) 4) = some after → after.1.layout = .ring →
      after.1.size ≤ 4 := by
  have room : ∀ n < 6, ((reached (refill.take n) (queue (usedPools []) 4)).all
      fun state => state.1.size < 4) = true := by decide
  refine ⟨by decide, (size_le_limit_iff 4 (by decide) [] refill).mpr ?_⟩
  intro n here state leads _ ⟨_, full, _⟩
  have less := room n here
  rw [leads, Option.all_some, decide_eq_true_eq] at less
  exact absurd less (Nat.not_lt.mpr full)

/-- A queue with a limit of three comes to hold four entries. -/
theorem refill_exceeds_limit :
    ∃ n ≤ refill.length, ∃ after,
      reached (refill.take n) (queue (usedPools []) 3) = some after ∧ after.1.layout = .ring ∧
      3 < after.1.size :=
  ⟨6, by decide, _, rfl, by decide, by decide⟩

end Structure

end ScriptMachine
