import ScriptMachine.Proofs.Structure.Refinement

/-!
# Structures but for their room

Storage that comes out of a pool may have more room than new storage of the size that was asked for,
and is otherwise the same. Room decides only when a dense row is moved into a larger one, and that
keeps all that can be asked of it. So structures that differ in room alone answer alike and come out
alike of everything that is done with them, whatever pools they draw from.
-/

set_option autoImplicit false

namespace ScriptMachine

/-- A placement with the storage changed that comes of it. -/
def Placement.map {σ τ : Type} (f : σ → τ) : Placement σ → Placement τ
  | .stored old after => .stored old (f after)
  | .needs capacity => .needs capacity
  | .refused => .refused

/-! ## Storage without its room -/

def Dense.bare (d : Dense) : Dense where
  cells := d.cells.withoutTail
  len := d.len
  high := d.high
  len_eq := d.len_eq.trans (Cells.count_congr d.cells.at?_withoutTail).symm
  high_eq := d.high_eq.trans (Cells.last?_congr d.cells.at?_withoutTail).symm

def Ring.bare (r : Ring) : Ring := { r with capacity := 0 }

def Table.bare {κ : Type} (t : Table κ) : Table κ := { t with capacity := 0 }

namespace Storage

def bare : Storage → Storage
  | dense d => dense d.bare
  | keyed t => keyed t.bare
  | mixed t => mixed t.bare
  | ring r => ring r.bare

end Storage

def Structure.bare (s : Structure) : Structure := { s with storage := s.storage.bare }

namespace Dense

variable {d d' : Dense}

theorem at?_bare (d : Dense) (i : Nat) : d.bare.cells.at? i = d.cells.at? i :=
  d.cells.at?_withoutTail i

theorem bare_eq_iff : d.bare = d'.bare ↔ ∀ i, d.cells.at? i = d'.cells.at? i := by
  constructor
  · intro same i
    rw [← at?_bare, same, at?_bare]
  · exact fun same => ext_cells (Cells.withoutTail_congr same)

theorem bare_bare (d : Dense) : d.bare.bare = d.bare := bare_eq_iff.mpr d.at?_bare

theorem get?_bare (d : Dense) (key : Key) : d.bare.get? key = d.get? key := by
  unfold get?
  rw [funext d.at?_bare]

theorem remove_bare (d : Dense) (key : Key) :
    (d.bare.remove key).map id bare = (d.remove key).map id bare := by
  unfold remove
  rw [get?_bare]
  cases d.get? key with
  | none => exact Prod.ext rfl d.bare_bare
  | some v =>
    cases index? key with
    | none => exact Prod.ext rfl d.bare_bare
    | some i =>
      refine Prod.ext rfl (bare_eq_iff.mpr fun j => ?_)
      simp only [vacated, Cells.at?_clear, at?_bare]

theorem update_bare (d : Dense) (key : Key) (f : Value → Value) :
    (d.bare.update key f).bare = (d.update key f).bare := by
  unfold update
  cases index? key with
  | none => exact d.bare_bare
  | some i =>
    refine bare_eq_iff.mpr fun j => ?_
    simp only [Cells.at?_update, at?_bare]

theorem firstKey?_bare (d : Dense) : d.bare.firstKey? = d.firstKey? := by
  unfold firstKey?
  rw [Cells.firstFrom_congr d.at?_bare]
  rfl

theorem nextKey?_bare (d : Dense) (key : Key) : d.bare.nextKey? key = d.nextKey? key := by
  cases key with
  | int w => rw [nextKey?_int, nextKey?_int, Cells.firstFrom_congr d.at?_bare]
  | _ => rfl

theorem prevKey?_bare (d : Dense) (key : Key) : d.bare.prevKey? key = d.prevKey? key := by
  cases key with
  | int w =>
    simp only [prevKey?, Cells.lastBefore_min]
    rw [Cells.lastBefore_congr d.at?_bare]
  | _ => rfl

theorem entries_bare (d : Dense) : d.bare.entries = d.entries := by
  unfold entries
  rw [Cells.entries_congr d.at?_bare]

theorem values_bare (d : Dense) : d.bare.values = d.values := by
  rw [values_eq, values_eq, entries_bare]

/-- A row rebuilt in new storage is the one its bare row gives. -/
theorem rebuild_bare (d : Dense) (room : Nat) {values : List Value}
    (length : values.length = d.size) :
    (d.rebuild (Pooled.fresh room) values).bare = (d.bare.rebuild (.vacant 0) values).bare := by
  refine bare_eq_iff.mpr fun i => ?_
  have count : values.length = d.cells.count := length.trans d.len_eq
  have count' : values.length = d.bare.cells.count := length.trans d.bare.len_eq
  rw [rebuild, rebuild, at?_storeAll (Cells.at?_vacant room),
    at?_storeAll (Cells.at?_vacant 0), ← Cells.lookup_entries, ← Cells.lookup_entries,
    d.cells.entries_refill count, d.bare.cells.entries_refill count',
    Cells.entries_congr d.at?_bare]

end Dense

namespace Ring

theorem popFront_bare (r : Ring) : r.bare.popFront = r.popFront.map id bare := by
  show (if r.cells.isEmpty then (none, r.bare) else (r.cells.at? 0, r.withoutFirst.trimmed.bare)) = _
  unfold popFront
  split <;> rfl

theorem popBack_bare (r : Ring) : r.bare.popBack = r.popBack.map id bare := by
  show (if r.cells.isEmpty then (none, r.bare)
    else (r.cells.at? (r.cells.size - 1), r.withoutLast.trimmed.bare)) = _
  unfold popBack
  split <;> rfl

theorem pushBack_bare (r : Ring) (v : Value) : r.bare.pushBack v = (r.pushBack v).map id bare := by
  have past : (r.bare.append (some v)).overLimit = (r.append (some v)).overLimit := rfl
  unfold pushBack
  dsimp only
  rw [past]
  split
  · exact popFront_bare (r.append (some v))
  · rfl

theorem pushFront_bare (r : Ring) (v : Value) :
    r.bare.pushFront v = (r.pushFront v).map id bare := by
  have past : (r.bare.prepend v).overLimit = (r.prepend v).overLimit := rfl
  unfold pushFront
  dsimp only
  rw [past]
  split
  · exact popBack_bare (r.prepend v)
  · rfl

theorem remove_bare (r : Ring) (key : Key) : r.bare.remove key = (r.remove key).map id bare := by
  have same : r.bare.get? key = r.get? key := rfl
  have index : r.bare.index? key = r.index? key := rfl
  unfold remove
  rw [same, index]
  cases r.get? key with
  | none => rfl
  | some v => cases r.index? key <;> rfl

theorem place_bare (r : Ring) (key : Key) (v : Value) :
    r.bare.place key v = (r.place key v).map bare := by
  cases key with
  | int k =>
    have index : r.bare.index? (.int k) = r.index? (.int k) := rfl
    have back := pushBack_bare r v
    have front := pushFront_bare r v
    have started : ({ r.bare with first := k } : Ring).pushBack v = _ :=
      pushBack_bare { r with first := k } v
    have cells : r.bare.cells = r.cells := rfl
    have stop : r.bare.stop = r.stop := rfl
    have first : r.bare.first = r.first := rfl
    simp only [place, index, back, front, cells, stop, first]
    cases r.index? (.int k) with
    | some i => rfl
    | none =>
      dsimp only
      split
      · exact congrArg (fun x : Option Value × Ring => Placement.stored x.1 x.2) started
      · split
        · rfl
        · split <;> rfl
  | _ => rfl

theorem update_bare (r : Ring) (key : Key) (f : Value → Value) :
    r.bare.update key f = (r.update key f).bare := by
  have index : r.bare.index? key = r.index? key := rfl
  unfold update
  rw [index]
  cases r.index? key <;> rfl

end Ring

namespace Table

variable {κ : Type} [Ord κ]

theorem remove_bare (t : Table κ) (key : κ) : t.bare.remove key = (t.remove key).map id bare := by
  have same : t.bare.get? key = t.get? key := rfl
  unfold remove
  rw [same]
  cases t.get? key <;> rfl

theorem update_bare (t : Table κ) (key : κ) (f : Value → Value) :
    t.bare.update key f = (t.update key f).bare := by
  have same : t.bare.get? key = t.get? key := rfl
  unfold update
  rw [same]
  cases t.get? key <;> rfl

theorem insertAll_bare (entries : List (κ × Value)) : ∀ t : Table κ,
    (t.insertAll entries).bare = t.bare.insertAll entries := by
  induction entries with
  | nil => exact fun _ => rfl
  | cons e entries ih => exact fun t => ih (t.insert e.1 e.2).2

end Table

/-! ## What is done with pools -/

namespace StructurePools

inductive Traffic (pools : StructurePools) : StructurePools → Prop where
  | none : Traffic pools pools
  | lend {after : StructurePools} (before : Traffic pools after) (layout : Layout)
      (capacity : Nat) : Traffic pools (Structure.lendFrom after layout capacity)
  | giveBack {after : StructurePools} (before : Traffic pools after) (storage : Storage) :
      Traffic pools (storage.release after).2
  | counted {after : StructurePools} (before : Traffic pools after) (reshapings : Nat) :
      Traffic pools { after with reshapings }

variable {pools after later : StructurePools}

theorem Traffic.trans (first : pools.Traffic after) (next : after.Traffic later) :
    pools.Traffic later := by
  induction next with
  | none => exact first
  | lend _ layout capacity ih => exact ih.lend layout capacity
  | giveBack _ storage ih => exact ih.giveBack storage
  | counted _ reshapings ih => exact ih.counted reshapings

theorem Traffic.clean (traffic : pools.Traffic after) (clean : pools.Clean) : after.Clean := by
  induction traffic with
  | none => exact clean
  | lend _ layout capacity ih => exact Structure.lendFrom_clean ih layout capacity
  | giveBack _ storage ih => exact storage.release_clean ih
  | counted _ _ ih => exact ⟨ih.dense, ih.keyed, ih.mixed, ih.ring⟩

end StructurePools

namespace Structure

open StructurePools (Traffic)

variable {s t : Structure} {pools pools' : StructurePools}

theorem traffic_new (pools : StructurePools) (capacity : Nat) :
    pools.Traffic (new pools capacity).2 := .lend .none .dense _

theorem traffic_queue (pools : StructurePools) (limit : Nat) :
    pools.Traffic (queue pools limit).2 := .lend .none .ring _

theorem traffic_rebuild (s : Structure) (pools : StructurePools) (values : List Value) :
    pools.Traffic (s.rebuild pools values).2 := by
  unfold rebuild
  cases s.storage with
  | dense d => exact .lend .none .dense _
  | keyed t => exact .lend .none .keyed _
  | mixed t => exact .lend .none .mixed _
  | ring r => exact .lend .none .ring _

theorem traffic_recycle (s : Structure) (pools : StructurePools) :
    pools.Traffic (s.recycle pools).2 := .giveBack .none s.storage

theorem traffic_reshape (s : Structure) (pools : StructurePools) (key : Key)
    (needed : Option Nat) : pools.Traffic (s.reshape pools key needed).2 := by
  cases needed with
  | some capacity =>
    unfold reshape grow
    cases s.storage with
    | dense d =>
      exact ((Traffic.none.lend .dense capacity).giveBack (.dense d.drainEntries.2)).counted _
    | _ => exact .none
  | none =>
    unfold reshape migrate
    cases s.storage.widened key with
    | keyed =>
      exact ((Traffic.none.lend .keyed s.entries.length).giveBack s.storage.emptied).counted _
    | _ => exact ((Traffic.none.lend .mixed s.entries.length).giveBack s.storage.emptied).counted _

theorem traffic_placeWithin (key : Key) (v : Value) (attempts : Nat) :
    ∀ (s : Structure) (pools : StructurePools),
      pools.Traffic (s.placeWithin pools key v attempts).2.2 := by
  induction attempts with
  | zero => exact fun _ _ => .none
  | succ attempts ih =>
    intro s pools
    rw [placeWithin]
    cases s.storage.place key v with
    | stored old after => exact .none
    | needs capacity =>
      exact (s.traffic_reshape pools key (some capacity)).trans
        (ih (s.reshape pools key (some capacity)).1 (s.reshape pools key (some capacity)).2)
    | refused =>
      exact (s.traffic_reshape pools key none).trans
        (ih (s.reshape pools key none).1 (s.reshape pools key none).2)

theorem traffic_set (s : Structure) (pools : StructurePools) (key : Key) (v : Value) :
    pools.Traffic (s.set pools key v).2.2 := 
  traffic_placeWithin key (attach v) placeAttempts s pools

/-! ## Readings -/

theorem bare_bare (s : Structure) : s.bare.bare = s.bare := by
  obtain ⟨storage, migrations⟩ := s
  cases storage with
  | dense d => simp [bare, Storage.bare, Dense.bare_bare]
  | _ => rfl

def Blind {α : Type} (op : Structure → α × Structure) : Prop :=
  ∀ s, (op s.bare).map id bare = (op s).map id bare

theorem Blind.alike {α : Type} {op : Structure → α × Structure} (blind : Blind op)
    (alike : s.bare = t.bare) : (op s).1 = (op t).1 ∧ (op s).2.bare = (op t).2.bare := by
  have same : (op s).map id bare = (op t).map id bare := by rw [← blind s, alike, blind t]
  exact Prod.ext_iff.mp same

theorem get?_bare (s : Structure) (key : Key) : s.bare.get? key = s.get? key := by
  obtain ⟨storage, migrations⟩ := s
  cases storage with
  | dense d => exact d.get?_bare key
  | keyed t => cases key <;> rfl
  | _ => rfl

theorem overflows_bare (s : Structure) (uses : List Use) :
    s.bare.overflows uses = s.overflows uses := by
  obtain ⟨storage, migrations⟩ := s
  cases storage <;> rfl

theorem update_bare (s : Structure) (key : Key) (f : Value → Value) :
    (s.bare.update key f).bare = (s.update key f).bare := by
  obtain ⟨storage, migrations⟩ := s
  unfold update bare Storage.update
  cases storage with
  | dense d => simp [Storage.bare, Dense.update_bare]
  | keyed t => cases key <;> simp [Storage.bare, Table.update_bare] <;> rfl
  | mixed t =>
    simp [Storage.bare, Table.update_bare]
    rfl
  | ring r =>
    simp [Storage.bare, Ring.update_bare]
    rfl

theorem blind_delete (key : Key) : Blind fun s => s.delete key := by
  intro s
  obtain ⟨storage, migrations⟩ := s
  cases storage with
  | dense d =>
    obtain ⟨answer, after⟩ := Prod.ext_iff.mp (d.remove_bare key)
    refine Prod.ext (congrArg (Option.map detach) answer) ?_
    exact congrArg (fun d => (⟨.dense d, migrations⟩ : Structure)) after
  | keyed t =>
    cases key with
    | str text =>
      simp only [delete, bare, Storage.bare, Storage.remove, Table.remove_bare]
      rfl
    | _ => rfl
  | mixed t =>
    simp only [delete, bare, Storage.bare, Storage.remove, Table.remove_bare]
    rfl
  | ring r =>
    simp only [delete, bare, Storage.bare, Storage.remove, Ring.remove_bare]
    rfl

theorem blind_firstKey? : Blind firstKey? := by
  intro s
  obtain ⟨storage, migrations⟩ := s
  cases storage with
  | dense d => exact Prod.ext d.firstKey?_bare (bare_bare _)
  | _ => rfl

theorem blind_lastKey? : Blind lastKey? := by
  intro s
  obtain ⟨storage, migrations⟩ := s
  cases storage with
  | dense d => exact Prod.ext rfl (bare_bare _)
  | _ => rfl

theorem blind_nextKey? (key : Key) : Blind fun s => s.nextKey? key := by
  intro s
  obtain ⟨storage, migrations⟩ := s
  cases storage with
  | dense d => exact Prod.ext (d.nextKey?_bare key) (bare_bare _)
  | keyed t =>
    cases key with
    | str k => rfl
    | _ =>
      simp only [nextKey?, bare, Storage.bare]
      split <;> rfl
  | _ => rfl

theorem blind_prevKey? (key : Key) : Blind fun s => s.prevKey? key := by
  intro s
  obtain ⟨storage, migrations⟩ := s
  cases storage with
  | dense d => exact Prod.ext (d.prevKey?_bare key) (bare_bare _)
  | keyed t =>
    cases key with
    | str k => rfl
    | _ =>
      simp only [prevKey?, bare, Storage.bare]
      split <;> rfl
  | _ => rfl

theorem blind_keys : Blind keys := by
  intro s
  obtain ⟨storage, migrations⟩ := s
  cases storage with
  | dense d => exact Prod.ext (congrArg (List.map Prod.fst) d.entries_bare) (bare_bare _)
  | _ => rfl

theorem blind_appendKey : Blind fun s => s.appendKey := by
  intro s
  obtain ⟨storage, migrations⟩ := s
  cases storage with
  | dense d => exact Prod.ext rfl (bare_bare _)
  | _ => rfl

theorem blind_prependKey : Blind fun s => s.prependKey := by
  intro s
  obtain ⟨storage, migrations⟩ := s
  cases storage with
  | dense d =>
    refine Prod.ext ?_ (bare_bare _)
    exact congrArg (fun low : Option Key => Key.int (((low.bind Key.int?).map (· - 1)).getD 0))
      d.firstKey?_bare
  | _ => rfl

theorem Blind.deleteRead {reading : Structure → Option Key × Structure} (blind : Blind reading) :
    Blind fun s => Structure.deleteRead (reading s) := by
  intro s
  obtain ⟨key, after⟩ := blind.alike s.bare_bare
  cases one : reading s.bare with
  | mk key₁ after₁ =>
    cases two : reading s with
    | mk key₂ after₂ =>
      rw [one, two] at key after
      obtain rfl : key₁ = key₂ := key
      simp only [one, two, Structure.deleteRead]
      cases key₁ with
      | none => exact Prod.ext rfl after
      | some key => exact Prod.ext_iff.mpr ((blind_delete key).alike after)

theorem blind_popFront : Blind popFront := by
  intro s
  have read := blind_firstKey?.deleteRead s
  obtain ⟨storage, migrations⟩ := s
  cases storage with
  | ring r =>
    simp only [popFront, bare, Storage.bare, Ring.popFront_bare]
    rfl
  | _ => exact read

theorem blind_popBack : Blind popBack := by
  intro s
  have read := blind_lastKey?.deleteRead s
  obtain ⟨storage, migrations⟩ := s
  cases storage with
  | ring r =>
    simp only [popBack, bare, Storage.bare, Ring.popBack_bare]
    rfl
  | _ => exact read

/-! ## New storage -/

theorem new_alike (clean : pools.Clean) (clean' : pools'.Clean) (capacity : Nat) :
    (new pools capacity).1.bare = (new pools' capacity).1.bare := by
  obtain ⟨room, -, fresh, -⟩ := clean.dense.checkout (min capacity Pool.maxBucket)
  obtain ⟨room', -, fresh', -⟩ := clean'.dense.checkout (min capacity Pool.maxBucket)
  have same : (Pooled.fresh room : Dense).bare = (Pooled.fresh room' : Dense).bare :=
    Dense.bare_eq_iff.mpr fun i => (Cells.at?_vacant room i).trans (Cells.at?_vacant room' i).symm
  simp only [new, fresh, fresh', bare, Storage.bare, same]

theorem queue_alike (clean : pools.Clean) (clean' : pools'.Clean) (limit : Nat) :
    (queue pools limit).1.bare = (queue pools' limit).1.bare := by
  obtain ⟨room, -, fresh, -⟩ := clean.ring.checkout (min limit Pool.maxBucket)
  obtain ⟨room', -, fresh', -⟩ := clean'.ring.checkout (min limit Pool.maxBucket)
  simp only [queue, fresh, fresh']
  rfl

def blank {κ : Type} : Table κ := Pooled.fresh 0

def rebuilt (s : Structure) (values : List Value) : Structure :=
  { s with
    storage :=
      match s.storage with
      | .dense d => .dense (d.rebuild (.vacant 0) values).bare
      | .keyed t => .keyed (blank.insertAll (t.map.keys.zip values))
      | .mixed t => .mixed (blank.insertAll (t.map.keys.zip values))
      | .ring r => .ring (r.rebuild (.vacant 0) values) }

theorem rebuild_bare (clean : pools.Clean) (s : Structure) {values : List Value}
    (length : values.length = s.size) :
    (s.rebuild pools values).1.bare = s.bare.rebuilt (values.map attach) := by
  obtain ⟨storage, migrations⟩ := s
  cases storage with
  | dense d =>
    obtain ⟨room, -, fresh, -⟩ := clean.dense.checkout d.capacity
    have same := d.rebuild_bare room ((values.length_map attach).trans length)
    simp only [rebuild, fresh, bare, Storage.bare, same, rebuilt]
  | keyed t =>
    obtain ⟨room, -, fresh, -⟩ := clean.keyed.checkout t.size
    simp only [rebuild, fresh, bare, Storage.bare, Table.rebuild, Table.insertAll_bare]
    rfl
  | mixed t =>
    obtain ⟨room, -, fresh, -⟩ := clean.mixed.checkout t.size
    simp only [rebuild, fresh, bare, Storage.bare, Table.rebuild, Table.insertAll_bare]
    rfl
  | ring r =>
    obtain ⟨room, -, fresh, -⟩ := clean.ring.checkout r.span
    have same : (r.rebuild (Pooled.fresh room) (values.map attach)).bare =
        r.bare.rebuild (Pooled.fresh 0) (values.map attach) := by
      refine Ring.ext_cells ?_ ?_ ?_ ?_
      · exact (r.cells_rebuild room _).trans (r.bare.cells_rebuild 0 _).symm
      · exact (r.first_rebuild _ _).trans (r.bare.first_rebuild _ _).symm
      · exact (r.limit_rebuild _ _).trans (r.bare.limit_rebuild _ _).symm
      · exact (r.bare.capacity_rebuild (Pooled.fresh 0) _).symm
    simp only [rebuild, fresh, bare, Storage.bare, same]
    rfl

theorem size_bare (s : Structure) : s.bare.size = s.size := by
  obtain ⟨storage, migrations⟩ := s
  cases storage <;> rfl

theorem rebuild_alike (clean : pools.Clean) (clean' : pools'.Clean) (alike : s.bare = t.bare)
    {values : List Value} (length : values.length = s.size) :
    (s.rebuild pools values).1.bare = (t.rebuild pools' values).1.bare := by
  have length' : values.length = t.size := by rw [length, ← size_bare, alike, size_bare]
  rw [rebuild_bare clean s length, rebuild_bare clean' t length', alike]

/-- A structure whose entries were moved into storage that has no say about its room. -/
def moved (s : Structure) (target : Layout) : Structure where
  storage :=
    match target with
    | .keyed => .keyed (blank.insertAll (texts s.entries))
    | _ => .mixed (blank.insertAll s.entries)
  migrations := s.migrations + 1

theorem entries_bare (s : Structure) : s.bare.entries = s.entries := by
  obtain ⟨storage, migrations⟩ := s
  cases storage with
  | dense d => exact d.entries_bare
  | _ => rfl

theorem migrate_bare (clean : pools.Clean) (s : Structure) (target : Layout) :
    (s.migrate pools target).1.bare = s.bare.moved target := by
  obtain ⟨room, -, fresh, -⟩ := clean.keyed.checkout s.entries.length
  obtain ⟨room', -, fresh', -⟩ := clean.mixed.checkout s.entries.length
  cases target <;>
    simp only [migrate, fresh, fresh', moved, bare, Storage.bare, Table.insertAll_bare] <;>
    rw [← entries_bare s] <;> rfl

/-! ## Placing an entry -/

theorem placeWithin_stored {key : Key} {v : Value} {old : Option Value} {after : Storage}
    (stored : s.storage.place key v = .stored old after) (attempts : Nat) :
    s.placeWithin pools key v (attempts + 1) = (old, { s with storage := after }, pools) := by
  rw [placeWithin, stored]

theorem place_dense {key : Key} {i : Nat} (found : Dense.index? key = some i) (d : Dense)
    (v : Value) : (Storage.dense d).place key v =
      if d.capacity ≤ i then .needs (max (i + 1) (2 * d.capacity))
      else .stored (d.cells.at? i) (.dense (d.store i v)) := by
  simp only [Storage.place, Dense.place, found]
  by_cases short : d.capacity ≤ i
  · rw [if_pos short, if_pos short]
  · rw [if_neg short, if_neg short]

/-- A key that fits a dense row is placed, after the row was moved into a larger one if need be. -/
theorem placeWithin_dense (clean : pools.Clean) {d : Dense} (valid : d.Valid) (migrations : Nat)
    {key : Key} {i : Nat} (found : Dense.index? key = some i) (v : Value) (attempts : Nat) :
    let placed := (⟨.dense d, migrations⟩ : Structure).placeWithin pools key v (attempts + 2)
    placed.1 = d.cells.at? i ∧ placed.2.1.bare = ⟨.dense (d.store i v).bare, migrations⟩ := by
  have here := place_dense found d v
  by_cases short : d.capacity ≤ i
  · rw [if_pos short] at here
    obtain ⟨d', grown, -, view, room, -⟩ :=
      grow_spec (s := ⟨.dense d, migrations⟩) rfl valid clean
        (show d.capacity ≤ max (i + 1) (2 * d.capacity) by omega)
    have there := place_dense found d' v
    rw [if_neg (by omega)] at there
    have same : (d'.store i v).bare = (d.store i v).bare :=
      Dense.bare_eq_iff.mpr fun j => by simp only [Dense.store, Cells.at?_put, view]
    rw [placeWithin, here]
    simp only [reshape]
    rw [grown, placeWithin_stored there, view, ← same]
    exact ⟨rfl, rfl⟩
  · rw [if_neg short] at here
    rw [placeWithin_stored here]
    exact ⟨rfl, rfl⟩

/-- Other layouts place an entry without regard to room. -/
theorem place_bare {storage : Storage} (other : storage.layout ≠ .dense) (key : Key) (v : Value) :
    storage.bare.place key v = (storage.place key v).map Storage.bare := by
  cases storage with
  | dense d => exact absurd rfl other
  | keyed t => cases key <;> rfl
  | mixed t => rfl
  | ring r =>
    simp only [Storage.bare, Storage.place, Ring.place_bare]
    cases r.place key v <;> rfl

theorem layout_bare (s : Structure) : s.bare.layout = s.layout := by
  obtain ⟨storage, migrations⟩ := s
  cases storage <;> rfl

theorem widened_bare (s : Structure) (key : Key) :
    s.bare.storage.widened key = s.storage.widened key := by
  obtain ⟨storage, migrations⟩ := s
  cases storage <;> cases key <;> rfl

/-- What two structures made of a placement cannot be told apart. -/
def Alike {α : Type} (x y : α × Structure × StructurePools) : Prop :=
  x.1 = y.1 ∧ x.2.1.bare = y.2.1.bare

theorem place_map_bare (alike : s.bare = t.bare) (other : s.layout ≠ .dense) (key : Key)
    (v : Value) :
    (s.storage.place key v).map Storage.bare = (t.storage.place key v).map Storage.bare := by
  have other' : t.layout ≠ .dense := by
    rw [← layout_bare, ← alike, layout_bare]
    exact other
  rw [← place_bare other, ← place_bare other']
  exact congrArg (fun s => s.storage.place key v) alike

theorem placeWithin_stored_alike (alike : s.bare = t.bare) (other : s.layout ≠ .dense) {key : Key}
    {v : Value} {old : Option Value} {after : Storage}
    (stored : s.storage.place key v = .stored old after) (n n' : Nat) :
    Alike (s.placeWithin pools key v (n + 1)) (t.placeWithin pools' key v (n' + 1)) := by
  have same := place_map_bare alike other key v
  have migrations : s.bare.migrations = t.bare.migrations := by rw [alike]
  rw [stored] at same
  cases stored' : t.storage.place key v with
  | stored old' after' =>
    rw [stored'] at same
    simp only [Placement.map, Placement.stored.injEq] at same
    rw [placeWithin_stored stored, placeWithin_stored stored']
    exact ⟨same.1, (mk.injEq ..).mpr ⟨same.2, migrations⟩⟩
  | needs capacity => simp [stored', Placement.map] at same
  | refused => simp [stored', Placement.map] at same

theorem place_moved (s : Structure) (pools : StructurePools) (key : Key) (v : Value) :
    let moved := (s.migrate pools (s.storage.widened key)).1
    moved.layout ≠ .dense ∧ ∃ old after, moved.storage.place key v = .stored old after := by
  cases target : s.storage.widened key with
  | keyed =>
    obtain ⟨text, rfl⟩ : ∃ text, key = .str text := by
      unfold Storage.widened at target
      split at target
      · exact ⟨_, rfl⟩
      · cases target
    exact ⟨by simp [migrate, layout, Storage.layout], _, _, rfl⟩
  | _ => exact ⟨by simp [migrate, layout, Storage.layout], _, _, rfl⟩

theorem placeWithin_refused_alike (clean : pools.Clean) (clean' : pools'.Clean)
    (alike : s.bare = t.bare) {key : Key} {v : Value} (refused : s.storage.place key v = .refused)
    (refused' : t.storage.place key v = .refused) (n : Nat) :
    Alike (s.placeWithin pools key v (n + 2)) (t.placeWithin pools' key v (n + 2)) := by
  rw [placeWithin, placeWithin, refused, refused']
  have target : s.storage.widened key = t.storage.widened key := by
    rw [← widened_bare, alike, widened_bare]
  obtain ⟨other, old, after, stored⟩ := place_moved s pools key v
  have moved : (s.migrate pools (s.storage.widened key)).1.bare =
      (t.migrate pools' (t.storage.widened key)).1.bare := by
    rw [migrate_bare clean, migrate_bare clean', alike, target]
  exact placeWithin_stored_alike moved other stored n n

/-- Only a dense row asks for more room. -/
theorem place_ne_needs (other : s.layout ≠ .dense) (key : Key) (v : Value) (capacity : Nat) :
    s.storage.place key v ≠ .needs capacity := by
  obtain ⟨storage, migrations⟩ := s
  cases storage with
  | dense d => exact absurd rfl other
  | keyed t => cases key <;> simp [Storage.place]
  | mixed t => simp [Storage.place]
  | ring r =>
    have never := Ring.place_ne_needs (r := r) key v
    simp only [Storage.place]
    cases placed : r.place key v with
    | needs capacity => exact absurd placed (never capacity)
    | _ => simp

theorem placeWithin_dense_alike (clean : pools.Clean) (clean' : pools'.Clean) {d : Dense}
    {migrations : Nat} (valid : d.Valid) (valid' : t.storage.Valid)
    (alike : (⟨.dense d, migrations⟩ : Structure).bare = t.bare) (key : Key) (v : Value) (n : Nat) :
    Alike ((⟨.dense d, migrations⟩ : Structure).placeWithin pools key v (n + 2))
      (t.placeWithin pools' key v (n + 2)) := by
  obtain ⟨storage', migrations'⟩ := t
  cases storage' with
  | dense d' =>
    simp only [bare, Storage.bare, mk.injEq, Storage.dense.injEq, Dense.bare_eq_iff] at alike
    obtain ⟨cells, same⟩ := alike
    have stored : ∀ i, (d.store i v).bare = (d'.store i v).bare := fun i =>
      Dense.bare_eq_iff.mpr fun j => by simp only [Dense.store, Cells.at?_put, cells]
    cases found : Dense.index? key with
    | some i =>
      obtain ⟨answer, after⟩ := placeWithin_dense clean valid migrations found v n
      obtain ⟨answer', after'⟩ := placeWithin_dense clean' valid' migrations' found v n
      exact ⟨by rw [answer, answer', cells], by rw [after, after', stored, same]⟩
    | none =>
      have refused : ∀ d : Dense, (Storage.dense d).place key v = .refused := by
        simp [Storage.place, Dense.place, found]
      refine placeWithin_refused_alike clean clean' ?_ (refused d) (refused d') n
      rw [bare, bare, Storage.bare, Storage.bare, Dense.bare_eq_iff.mpr cells, same]
  | _ => simp [bare, Storage.bare] at alike

/-- What an entry is placed in decides the answer and what comes of it, apart from its room. -/
theorem placeWithin_alike (clean : pools.Clean) (clean' : pools'.Clean) (valid : s.storage.Valid)
    (valid' : t.storage.Valid) (alike : s.bare = t.bare) (key : Key) (v : Value) (n : Nat) :
    Alike (s.placeWithin pools key v (n + 2)) (t.placeWithin pools' key v (n + 2)) := by
  by_cases dense : s.layout = .dense
  · obtain ⟨storage, migrations⟩ := s
    cases storage with
    | dense d => exact placeWithin_dense_alike clean clean' valid valid' alike key v n
    | _ => cases dense
  · cases placed : s.storage.place key v with
    | stored old after => exact placeWithin_stored_alike alike dense placed _ _
    | needs capacity => exact absurd placed (place_ne_needs dense key v capacity)
    | refused =>
      have same := place_map_bare alike dense key v
      rw [placed] at same
      have refused' : t.storage.place key v = .refused := by
        cases placed' : t.storage.place key v with
        | refused => rfl
        | _ => simp [placed', Placement.map] at same
      exact placeWithin_refused_alike clean clean' alike placed refused' n

theorem set_alike (clean : pools.Clean) (clean' : pools'.Clean) (valid : s.storage.Valid)
    (valid' : t.storage.Valid) (alike : s.bare = t.bare) (key : Key) (v : Value) :
    Alike (s.set pools key v) (t.set pools' key v) := by
  obtain ⟨answer, after⟩ := placeWithin_alike clean clean' valid valid' alike key (attach v) 2
  exact ⟨congrArg (Option.map detach) answer, after⟩

end Structure

end ScriptMachine
