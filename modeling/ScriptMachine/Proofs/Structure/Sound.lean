import ScriptMachine.Proofs.Structure.Neighbours
import ScriptMachine.Proofs.Structure.Workshop

/-!
# Structures in working order

Whatever is done with structures that share pools, the bookkeeping of each of them stays right and
the pools stay clean.
-/

set_option autoImplicit false

namespace ScriptMachine

/-! ## Changing values in place -/

namespace Cells

variable (cells : Cells)

theorem size_update (i : Nat) (f : Value → Value) : (cells.update i f).size = cells.size :=
  Array.size_modify

end Cells

theorem Dense.Valid.update {d : Dense} (valid : d.Valid) (k : Key) (f : Value → Value) :
    (d.update k f).Valid := by
  unfold Dense.update
  cases found : Dense.index? k with
  | none => exact valid
  | some i =>
    intro j v held
    have occupied : (d.cells.update i f).occupied j = true := Cells.occupied_iff _ |>.mpr ⟨v, held⟩
    rw [Cells.occupied_update] at occupied
    obtain ⟨u, before⟩ := d.cells.occupied_iff.mp occupied
    exact valid j u before

theorem Ring.Valid.update {r : Ring} (valid : r.Valid) (k : Key) (f : Value → Value) :
    (r.update k f).Valid := by
  unfold Ring.update
  cases found : r.index? k with
  | none => exact valid
  | some i =>
    refine ⟨fun j v held => ?_, ?_, ?_⟩
    · have occupied : (r.cells.update i f).occupied j = true :=
        Cells.occupied_iff _ |>.mpr ⟨v, held⟩
      rw [Cells.occupied_update] at occupied
      obtain ⟨u, before⟩ := r.cells.occupied_iff.mp occupied
      exact valid.fits j u before
    · simp only [Cells.size_update, Cells.occupied_update]
      exact valid.front
    · simp only [Cells.size_update, Cells.occupied_update]
      exact valid.back

theorem Table.Valid.update {κ : Type} [Ord κ] [Std.TransOrd κ] [Std.LawfulEqOrd κ] {t : Table κ}
    (valid : t.Valid) (k : κ) (f : Value → Value) : (t.update k f).Valid := by
  unfold Table.update
  cases found : t.get? k with
  | none => exact valid
  | some v =>
    refine ⟨SortedMap.ascending_put valid.ascending k (f v), fun keys current => ?_⟩
    have present : (SortedMap.lookup k t.entries).isSome := by
      rw [← t.get?_eq, found]
      rfl
    rw [valid.index keys current]
    exact (SortedMap.map_fst_put valid.ascending present (f v)).symm

theorem Storage.Valid.update {s : Storage} (valid : s.Valid) (k : Key) (f : Value → Value) :
    (s.update k f).Valid := by
  cases s with
  | dense d => exact Dense.Valid.update valid k f
  | keyed t =>
    cases k with
    | str text => exact Table.Valid.update valid text f
    | _ => exact valid
  | mixed t => exact Table.Valid.update valid k f
  | ring r => exact Ring.Valid.update valid k f

/-! ## One operation -/

theorem Probe.valid_on {s : Structure} (valid : s.storage.Valid) (probe : Probe) :
    (probe.on s).2.storage.Valid := by
  cases probe with
  | get key => exact valid
  | contains key => exact valid
  | update key f => exact Storage.Valid.update valid key f
  | delete key => exact (Structure.delete_spec valid key).1
  | popFront => exact (Structure.popFront_spec valid).valid
  | popBack => exact (Structure.popBack_spec valid).valid
  | firstKey => exact (Structure.firstKey?_spec valid).2.valid
  | lastKey => exact (Structure.lastKey?_spec valid).2.valid
  | nextKey key => exact (Structure.nextKey?_read valid key).valid
  | prevKey key => exact (Structure.prevKey?_read valid key).valid
  | keys => exact (Structure.keys_spec valid).2.valid
  | appendKey =>
    obtain ⟨_, _, _, read⟩ := Structure.appendKey_spec valid
    exact read.valid
  | prependKey =>
    obtain ⟨_, _, _, read⟩ := Structure.prependKey_spec valid
    exact read.valid

namespace Workshop

structure Sound (w : Workshop) : Prop where
  clean : w.pools.Clean
  valid : ∀ s, some s ∈ w.made → s.storage.Valid

variable {w : Workshop}

theorem Sound.change (sound : w.Sound) (i : Nat)
    {op : Structure → StructurePools → Reply × Option Structure × StructurePools}
    (valid : ∀ s t, s.storage.Valid → (op s w.pools).2.1 = some t → t.storage.Valid)
    (clean : ∀ s, (op s w.pools).2.2.Clean) : (w.change i op).2.Sound := by
  unfold Workshop.change
  cases found : (w.made[i]?).join with
  | none => exact sound
  | some s =>
    have mem : some s ∈ w.made := List.mem_of_getElem? (Option.join_eq_some_iff.mp found)
    refine ⟨clean s, fun t made => ?_⟩
    rcases List.mem_or_eq_of_mem_set made with old | new
    · exact sound.valid t old
    · exact valid s t (sound.valid s mem) new.symm

theorem Sound.concat (sound : w.Sound) {s : Structure} {pools : StructurePools}
    (valid : s.storage.Valid) (clean : pools.Clean) : Sound ⟨w.made ++ [some s], pools⟩ := by
  refine ⟨clean, fun t made => ?_⟩
  rcases List.mem_append.mp made with old | new
  · exact sound.valid t old
  · cases List.mem_singleton.mp new
    exact valid

theorem Sound.put (sound : w.Sound) (i : Nat) {keyed : Structure → Key × Structure}
    (reads : ∀ s, s.storage.Valid → (keyed s).2.storage.Valid) (v : Value) :
    (w.change i (put keyed v)).2.Sound := by
  refine sound.change i (fun s t valid stored => ?_) fun s => ?_
  · rw [put_eq] at stored
    cases stored
    obtain ⟨_, _, stored, _⟩ := Structure.set_spec (reads s valid) sound.clean (keyed s).1 v
    exact stored.valid
  · exact (traffic_put keyed v s w.pools).clean sound.clean

theorem Sound.perform (sound : w.Sound) (work : Work) : (w.perform work).2.Sound := by
  cases work with
  | new capacity =>
    obtain ⟨valid, _, _, clean⟩ := Structure.new_spec sound.clean capacity
    exact sound.concat valid clean
  | queue limit =>
    obtain ⟨valid, _, _, clean⟩ := Structure.queue_spec sound.clean limit
    exact sound.concat valid clean
  | probe i probe =>
    refine sound.change i (fun s t valid after => ?_) fun _ => sound.clean
    cases after
    exact probe.valid_on valid
  | set i key v => exact sound.put i (fun _ valid => valid) v
  | append i v => exact sound.put i (fun _ valid => Probe.appendKey.valid_on valid) v
  | prepend i v => exact sound.put i (fun _ valid => Probe.prependKey.valid_on valid) v
  | copy i renew =>
    show (w.copy i renew).2.Sound
    unfold Workshop.copy
    cases found : (w.made[i]?).join with
    | none => exact sound
    | some s =>
      have mem : some s ∈ w.made := List.mem_of_getElem? (Option.join_eq_some_iff.mp found)
      have length := (s.entries.length_map fun e => renew e.1 e.2).trans s.storage.size_eq.symm
      obtain ⟨valid, _, _, clean⟩ := Structure.rebuild_spec (sound.valid s mem) sound.clean length
      exact sound.concat valid clean
  | recycle i =>
    refine sound.change i (fun s t _ after => ?_) fun s => ?_
    · cases after
    · exact (Structure.traffic_recycle s w.pools).clean sound.clean

/-! ## All operations -/

theorem Sound.performAll (works : List Work) :
    ∀ {w : Workshop}, w.Sound → (Workshop.performAll works w).2.Sound := by
  induction works with
  | nil => exact fun sound => sound
  | cons work works ih =>
    intro w sound
    rw [Workshop.performAll]
    split
    · exact sound
    · exact ih (sound.perform work)

/-- Whatever the pools were used for, and whatever was done with structures that share them. -/
theorem sound_of_works (uses : List (Layout × Nat ⊕ Storage)) (works : List Work) :
    (Workshop.performAll works { pools := Structure.usedPools uses }).2.Sound :=
  Sound.performAll works ⟨Structure.usedPools_clean uses, fun _ made => by cases made⟩

end Workshop

end ScriptMachine
