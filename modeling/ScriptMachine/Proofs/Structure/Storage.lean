import ScriptMachine.Proofs.Structure.Ring
import ScriptMachine.Proofs.Structure.Table
import ScriptMachine.Structure.Basic

/-!
# Storage as a map

The view of a storage is its list of entries in ascending key order, whatever the layout. Reading is
a lookup in that list, placing puts an entry into it, removing drops one, and growing or moving to
another layout leaves the list alone. Only a ring with a limit does more: it may evict an entry.
-/

set_option autoImplicit false

namespace ScriptMachine

open SortedMap (Ascending lookup drop)

/-! ## Entries under texts -/

def textEntries (entries : List (String × Value)) : List (Key × Value) :=
  entries.map fun (k, v) => (.str k, v)

theorem ascending_textEntries {entries : List (String × Value)} (ascending : Ascending entries) :
    Ascending (textEntries entries) :=
  List.pairwise_map.mpr ascending

theorem lookup_textEntries (entries : List (String × Value)) (k : Key) :
    lookup k (textEntries entries) = k.str?.bind fun text => lookup text entries := by
  induction entries with
  | nil => cases k.str? <;> rfl
  | cons e rest ih =>
    obtain ⟨text, v⟩ := e
    have step : lookup k (textEntries ((text, v) :: rest)) =
        if compare k (.str text) = .eq then some v else lookup k (textEntries rest) := rfl
    rw [step, ih]
    cases k with
    | str s => rfl
    | _ => rfl

theorem textEntries_put {entries : List (String × Value)} (ascending : Ascending entries)
    (text : String) (v : Value) :
    textEntries (SortedMap.put text v entries) = SortedMap.put (.str text) v (textEntries entries) := by
  refine SortedMap.eq_of_lookup_eq
    (ascending_textEntries (SortedMap.ascending_put ascending text v))
    (SortedMap.ascending_put (ascending_textEntries ascending) _ v) fun k => ?_
  rw [SortedMap.lookup_put (ascending_textEntries ascending), lookup_textEntries, lookup_textEntries]
  cases k with
  | str s => simp [Key.str?, SortedMap.lookup_put ascending]
  | _ => simp [Key.str?]

theorem textEntries_drop {entries : List (String × Value)} (ascending : Ascending entries)
    (text : String) : textEntries (drop text entries) = drop (.str text) (textEntries entries) := by
  refine SortedMap.eq_of_lookup_eq
    (ascending_textEntries (SortedMap.ascending_drop ascending text))
    (SortedMap.ascending_drop (ascending_textEntries ascending) _) fun k => ?_
  rw [SortedMap.lookup_drop (ascending_textEntries ascending), lookup_textEntries,
    lookup_textEntries]
  cases k with
  | str s => simp [Key.str?, SortedMap.lookup_drop ascending]
  | _ => simp [Key.str?]

namespace Storage

/-- The bookkeeping of the layout is right. -/
def Valid : Storage → Prop
  | dense d => d.Valid
  | keyed t => t.Valid
  | mixed t => t.Valid
  | ring r => r.Valid

def Unbounded : Storage → Prop
  | ring r => r.limit = none
  | _ => True

variable {s : Storage}

theorem Valid.ascending (valid : s.Valid) : Ascending s.entries := by
  cases s with
  | dense d => exact Dense.Valid.ascending valid
  | keyed t => exact ascending_textEntries (Table.Valid.ascending valid)
  | mixed t => exact Table.Valid.ascending valid
  | ring r => exact Ring.Valid.ascending valid

theorem Valid.get?_eq (valid : s.Valid) (k : Key) : s.get? k = lookup k s.entries := by
  cases s with
  | dense d => exact Dense.Valid.get?_eq valid k
  | keyed t =>
    refine Eq.trans ?_ (lookup_textEntries t.entries k).symm
    cases k <;> rfl
  | mixed t => rfl
  | ring r => exact Ring.Valid.get?_eq valid k

theorem size_eq (s : Storage) : s.size = s.entries.length := by
  cases s with
  | dense d => exact d.size_eq
  | keyed t => exact (List.length_map _).symm
  | mixed t => rfl
  | ring r => exact r.size_eq

theorem values_eq (s : Storage) : s.values = s.entries.map Prod.snd := by
  cases s with
  | dense d => exact d.values_eq
  | keyed t => simp [values, entries, Table.values, Table.entries, SortedMap.values, Function.comp_def]
  | mixed t => rfl
  | ring r => exact r.values_eq

/-- What storing an entry does: it is put under its key, and a storage that is bounded may evict an
entry instead of displacing one. -/
structure Stored (s : Storage) (k : Key) (v : Value) (old : Option Value) (after : Storage) :
    Prop where
  valid : after.Valid
  unbounded : s.Unbounded → after.Unbounded
  entries : (old = lookup k s.entries ∧ after.entries = SortedMap.put k v s.entries) ∨
    (¬ s.Unbounded ∧ lookup k s.entries = none ∧ ∃ k' w, old = some w ∧
      (k', w) ∈ SortedMap.put k v s.entries ∧
      after.entries = drop k' (SortedMap.put k v s.entries))

theorem Valid.place_stored (valid : s.Valid) {k : Key} {v : Value} {old : Option Value}
    {after : Storage} (placed : s.place k v = .stored old after) : Stored s k v old after := by
  cases s with
  | dense d =>
    simp only [place] at placed
    cases result : d.place k v with
    | stored old' after' =>
      simp only [result, Placement.stored.injEq] at placed
      obtain ⟨rfl, rfl⟩ := placed
      obtain ⟨valid', old, entries⟩ := Dense.Valid.place_stored valid result
      exact ⟨valid', fun _ => trivial, Or.inl ⟨old, entries⟩⟩
    | needs capacity => simp [result] at placed
    | refused => simp [result] at placed
  | keyed t =>
    cases k with
    | str text =>
      simp only [place, Placement.stored.injEq] at placed
      obtain ⟨rfl, rfl⟩ := placed
      have ascending := Table.Valid.ascending valid
      obtain ⟨valid', old, entries⟩ := Table.Valid.insert valid text v
      refine ⟨valid', fun _ => trivial, Or.inl ⟨?_, ?_⟩⟩
      · exact old.trans (lookup_textEntries t.entries (.str text)).symm
      · exact (congrArg textEntries entries).trans (textEntries_put ascending text v)
    | _ => simp [place] at placed
  | mixed t =>
    simp only [place, Placement.stored.injEq] at placed
    obtain ⟨rfl, rfl⟩ := placed
    obtain ⟨valid', old, entries⟩ := Table.Valid.insert valid k v
    exact ⟨valid', fun _ => trivial, Or.inl ⟨old, entries⟩⟩
  | ring r =>
    simp only [place] at placed
    cases result : r.place k v with
    | stored old' after' =>
      simp only [result, Placement.stored.injEq] at placed
      obtain ⟨rfl, rfl⟩ := placed
      obtain ⟨valid', limit, either⟩ := Ring.Valid.place_stored valid result
      exact ⟨valid', fun unbounded => limit.trans unbounded, either⟩
    | needs capacity => simp [result] at placed
    | refused => simp [result] at placed

theorem Valid.remove (valid : s.Valid) (k : Key) :
    (s.remove k).2.Valid ∧ (s.Unbounded → (s.remove k).2.Unbounded) ∧
      (s.remove k).1 = lookup k s.entries ∧ (s.remove k).2.entries = drop k s.entries := by
  cases s with
  | dense d =>
    obtain ⟨valid', answer, entries⟩ := Dense.Valid.remove valid k
    exact ⟨valid', fun _ => trivial, answer, entries⟩
  | keyed t =>
    have texts := lookup_textEntries t.entries k
    cases k with
    | str text =>
      obtain ⟨valid', answer, entries⟩ := Table.Valid.remove valid text
      refine ⟨valid', fun _ => trivial, answer.trans texts.symm, ?_⟩
      exact (congrArg textEntries entries).trans
        (textEntries_drop (Table.Valid.ascending valid) text)
    | _ =>
      refine ⟨valid, fun _ => trivial, texts.symm, ?_⟩
      exact (SortedMap.drop_eq_self texts).symm
  | mixed t =>
    obtain ⟨valid', answer, entries⟩ := Table.Valid.remove valid k
    exact ⟨valid', fun _ => trivial, answer, entries⟩
  | ring r =>
    obtain ⟨valid', limit, answer, entries⟩ := Ring.Valid.remove valid k
    exact ⟨valid', fun unbounded => limit.trans unbounded, answer, entries⟩

end Storage

/-! ## Pools of storage -/

structure StructurePools.Clean (pools : StructurePools) : Prop where
  dense : pools.dense.Clean
  keyed : pools.keyed.Clean
  mixed : pools.mixed.Clean
  ring : pools.ring.Clean

theorem StructurePools.clean_empty : StructurePools.Clean {} :=
  ⟨Pool.clean_empty, Pool.clean_empty, Pool.clean_empty, Pool.clean_empty⟩

theorem Storage.release_clean (s : Storage) {pools : StructurePools} (clean : pools.Clean) :
    (s.release pools).2.Clean := by
  cases s with
  | dense d => exact { clean with dense := clean.dense.checkin d }
  | keyed t => exact { clean with keyed := clean.keyed.checkin t }
  | mixed t => exact { clean with mixed := clean.mixed.checkin t }
  | ring r => exact { clean with ring := clean.ring.checkin r }

namespace Structure

variable {s : Structure} {pools : StructurePools}

/-! ## Reshaping -/

/-- Growing a dense row keeps its entries and makes the room that was asked for. -/
theorem grow_spec {d : Dense} (row : s.storage = .dense d) (valid : d.Valid) (clean : pools.Clean)
    {needed : Nat} (larger : d.capacity ≤ needed) :
    ∃ d' : Dense, (s.grow pools needed).1 = { s with storage := .dense d' } ∧ d'.Valid ∧
      (∀ i, d'.cells.at? i = d.cells.at? i) ∧ needed ≤ d'.capacity ∧
      (s.grow pools needed).2.Clean := by
  obtain ⟨room, enough, fresh, clean'⟩ := clean.dense.checkout needed
  have capacity : (pools.dense.checkout needed).1.capacity = room := by
    rw [fresh]
    exact LawfulPooled.capacity_fresh (α := Dense) room
  have empty : ∀ i, (pools.dense.checkout needed).1.cells.at? i = none := by
    rw [fresh]
    exact Cells.at?_vacant room
  obtain ⟨valid', view, kept⟩ := valid.moved empty (by omega)
  refine ⟨_, ?_, valid', view, by omega, ?_⟩
  · simp only [grow, row, Dense.drainEntries]
  · simp only [grow, row]
    exact { clean with dense := clean'.checkin _ }

/-- Moving to a mixed table keeps the entries. -/
theorem migrate_mixed (valid : s.storage.Valid) (clean : pools.Clean) :
    ∃ t : Table Key, (s.migrate pools .mixed).1.storage = .mixed t ∧ t.Valid ∧
      t.entries = s.storage.entries ∧ (s.migrate pools .mixed).2.Clean := by
  obtain ⟨room, enough, fresh, clean'⟩ := clean.mixed.checkout s.entries.length
  obtain ⟨valid', entries'⟩ := Table.insertAll_fresh room valid.ascending
  refine ⟨(pools.mixed.checkout s.entries.length).1.insertAll s.entries, rfl, ?_, ?_, ?_⟩
  · rw [fresh]
    exact valid'
  · rw [fresh]
    exact entries'
  · have pooled : StructurePools.Clean
        { pools with mixed := (pools.mixed.checkout s.entries.length).2 } :=
      { clean with mixed := clean' }
    have released := s.storage.emptied.release_clean pooled
    exact ⟨released.dense, released.keyed, released.mixed, released.ring⟩

theorem migrate_keyed (empty : s.storage.entries = []) (clean : pools.Clean) :
    ∃ t : Table String, (s.migrate pools .keyed).1.storage = .keyed t ∧ t.Valid ∧
      t.entries = [] ∧ (s.migrate pools .keyed).2.Clean := by
  obtain ⟨room, enough, fresh, clean'⟩ := clean.keyed.checkout s.entries.length
  have none : s.entries = [] := empty
  refine ⟨(pools.keyed.checkout s.entries.length).1.insertAll (texts s.entries), rfl, ?_, ?_, ?_⟩
  · rw [fresh, none]
    exact Table.valid_fresh room
  · rw [fresh, none]
    rfl
  · have pooled : StructurePools.Clean
        { pools with keyed := (pools.keyed.checkout s.entries.length).2 } :=
      { clean with keyed := clean' }
    have released := s.storage.emptied.release_clean pooled
    exact ⟨released.dense, released.keyed, released.mixed, released.ring⟩

structure Reshaped (s : Structure) (k : Key) (v : Value) (after : Structure × StructurePools) :
    Prop where
  valid : after.1.storage.Valid
  unbounded : after.1.storage.Unbounded
  entries : after.1.storage.entries = s.storage.entries
  clean : after.2.Clean
  stores : ∃ old storage, after.1.storage.place k v = .stored old storage

theorem grow_reshaped (valid : s.storage.Valid) (clean : pools.Clean) {k : Key} {v : Value}
    {needed : Nat} (short : s.storage.place k v = .needs needed) :
    Reshaped s k v (s.grow pools needed) := by
  cases layout : s.storage with
  | dense d =>
    rw [layout] at short valid
    simp only [Storage.place] at short
    cases result : d.place k v with
    | stored old after => simp [result] at short
    | refused => simp [result] at short
    | needs capacity =>
      simp only [result, Placement.needs.injEq] at short
      subst short
      obtain ⟨i, found, inside, larger⟩ := Dense.place_needs result
      obtain ⟨d', row, valid', view, room, clean'⟩ := grow_spec layout valid clean larger
      obtain ⟨old, after, stored⟩ := Dense.place_of_room (d := d') found (by omega) v
      refine ⟨?_, ?_, ?_, clean', old, .dense after, ?_⟩
      · rw [row]
        exact valid'
      · rw [row]
        trivial
      · rw [row, layout]
        exact Dense.entries_congr view
      · rw [row, Storage.place, stored]
  | keyed t =>
    rw [layout] at short
    cases k <;> simp [Storage.place] at short
  | mixed t =>
    rw [layout] at short
    simp [Storage.place] at short
  | ring r =>
    rw [layout] at short
    simp only [Storage.place] at short
    cases result : r.place k v with
    | stored old after => simp [result] at short
    | refused => simp [result] at short
    | needs capacity => exact absurd result (Ring.place_ne_needs k v capacity)

theorem migrate_reshaped (valid : s.storage.Valid) (clean : pools.Clean) (k : Key) (v : Value) :
    Reshaped s k v (s.migrate pools (s.storage.widened k)) := by
  by_cases mixed : s.storage.widened k = .mixed
  · obtain ⟨t, moved, valid', entries', clean'⟩ := migrate_mixed valid clean
    rw [mixed]
    refine ⟨?_, ?_, ?_, clean', (t.insert k v).1, .mixed (t.insert k v).2, ?_⟩
    · rw [moved]
      exact valid'
    · rw [moved]
      trivial
    · rw [moved]
      exact entries'
    · rw [moved, Storage.place]
  · -- only an empty dense row becomes a table of texts
    obtain ⟨d, text, row, rfl, empty⟩ :
        ∃ d text, s.storage = .dense d ∧ k = .str text ∧ d.size = 0 := by
      cases layout : s.storage with
      | dense d =>
        cases k with
        | str text =>
          rw [layout] at mixed
          simp only [Storage.widened] at mixed
          split at mixed
          · exact ⟨d, text, rfl, rfl, ‹_›⟩
          · simp at mixed
        | _ => simp [layout, Storage.widened] at mixed
      | _ => simp [layout, Storage.widened] at mixed
    have target : s.storage.widened (.str text) = .keyed := by simp [row, Storage.widened, empty]
    have none : s.storage.entries = [] := by
      rw [row]
      exact List.eq_nil_of_length_eq_zero (d.size_eq.symm.trans empty)
    obtain ⟨t, moved, valid', entries', clean'⟩ := migrate_keyed none clean
    rw [target]
    refine ⟨?_, ?_, ?_, clean', (t.insert text v).1, .keyed (t.insert text v).2, ?_⟩
    · rw [moved]
      exact valid'
    · rw [moved]
      trivial
    · rw [moved, none]
      simp [Storage.entries, entries']
    · rw [moved, Storage.place]

end Structure

end ScriptMachine
