import ScriptMachine.Proofs.Structure.Operations

/-!
# Structures of the same form

What a rebuilt structure has in common with the one it is made from: everything but its values and
the room it happens to have.
-/

set_option autoImplicit false

namespace ScriptMachine

namespace Cells

variable {cells cells' : Cells}

theorem size_withoutTail_le (alike : ∀ i, cells.occupied i = cells'.occupied i) :
    cells.withoutTail.size ≤ cells'.withoutTail.size := by
  refine Nat.le_of_not_lt fun longer => ?_
  have last := cells.occupied_last_withoutTail (by omega)
  rw [occupied, at?_withoutTail] at last
  have same : cells'.withoutTail.occupied (cells.withoutTail.size - 1) = true := by
    rw [occupied, at?_withoutTail]
    exact (alike _).symm.trans last
  have beyond : cells'.withoutTail.at? (cells.withoutTail.size - 1) = none :=
    at?_of_size_le cells'.withoutTail (by omega)
  rw [occupied, beyond] at same
  cases same

theorem filled_congr (alike : ∀ i, cells.occupied i = cells'.occupied i)
    (size : cells.size = cells'.size) :
    cells.toList.map Option.isSome = cells'.toList.map Option.isSome := by
  refine List.ext_getElem (by simpa using size) fun i inside inside' => ?_
  have here := alike i
  simp only [List.length_map, Array.length_toList] at inside inside'
  simpa [occupied, at?, inside, inside'] using here

theorem filled_withoutTail (alike : ∀ i, cells.occupied i = cells'.occupied i) :
    cells.withoutTail.toList.map Option.isSome = cells'.withoutTail.toList.map Option.isSome := by
  refine filled_congr (fun i => ?_) (Nat.le_antisymm (size_withoutTail_le alike)
    (size_withoutTail_le fun i => (alike i).symm))
  simp only [occupied, at?_withoutTail]
  exact alike i

end Cells

namespace Structure

variable {s s' : Structure} {pools : StructurePools}

/-- Which cells hold an entry, in a layout by position; a row counts up to its last entry. -/
def filled (s : Structure) : List Bool :=
  match s.storage with
  | .dense d => d.cells.withoutTail.toList.map Option.isSome
  | .ring r => r.cells.toList.map Option.isSome
  | .keyed _ | .mixed _ => []

def limit? (s : Structure) : Option Nat :=
  match s.storage with
  | .ring r => r.limit
  | _ => none

structure Resembles (s s' : Structure) : Prop where
  layout : s'.layout = s.layout
  keys : s'.entries.map Prod.fst = s.entries.map Prod.fst
  filled : s'.filled = s.filled
  limit : s'.limit? = s.limit?
  migrations : s'.migrations = s.migrations

theorem rebuild_migrations (s : Structure) (pools : StructurePools) (values : List Value) :
    (s.rebuild pools values).1.migrations = s.migrations := by
  unfold rebuild
  cases s.storage <;> rfl

theorem rebuild_layout (s : Structure) (pools : StructurePools) (values : List Value) :
    (s.rebuild pools values).1.layout = s.layout := by
  unfold rebuild Structure.layout
  cases s.storage <;> rfl

theorem rebuild_limit (s : Structure) (pools : StructurePools) (values : List Value) :
    (s.rebuild pools values).1.limit? = s.limit? := by
  unfold rebuild limit?
  cases s.storage with
  | ring r => exact r.limit_rebuild _ _
  | _ => rfl

theorem rebuild_filled (clean : pools.Clean) {values : List Value}
    (length : values.length = s.size) :
    (s.rebuild pools values).1.filled = s.filled := by
  unfold rebuild Structure.filled
  simp only [Structure.size] at length
  cases layout : s.storage with
  | dense d =>
    rw [layout] at length
    have count : (values.map attach).length = d.cells.count :=
      (List.length_map _).trans (length.trans d.len_eq)
    obtain ⟨room, -, fresh, -⟩ := clean.dense.checkout d.capacity
    have empty : ∀ i, (Pooled.fresh room : Dense).cells.at? i = none := Cells.at?_vacant room
    simp only [fresh]
    refine Cells.filled_withoutTail fun i => ?_
    rw [Dense.rebuild, Cells.occupied, Dense.at?_storeAll empty]
    exact d.cells.occupied_refill count i
  | keyed t => rfl
  | mixed t => rfl
  | ring r =>
    rw [layout] at length
    have count : (values.map attach).length = r.cells.count :=
      (List.length_map _).trans (length.trans r.live_eq)
    obtain ⟨room, -, fresh, -⟩ := clean.ring.checkout r.span
    simp only [fresh, Ring.cells_rebuild]
    exact Cells.filled_congr (r.cells.occupied_refill count) (by simp [Cells.length_refill])

/-- A rebuilt structure has the form of its source and holds the values as entries. -/
theorem rebuild_resembles (valid : s.storage.Valid) (clean : pools.Clean) {values : List Value}
    (length : values.length = s.size) :
    Resembles s (s.rebuild pools values).1 ∧
      (s.rebuild pools values).1.values = values.map attach := by
  obtain ⟨-, -, entries, -⟩ := rebuild_spec valid clean length
  have counted : (s.entries.map Prod.fst).length = (values.map attach).length := by
    rw [List.length_map, List.length_map, length]
    exact s.storage.size_eq.symm
  refine ⟨⟨rebuild_layout .., ?_, rebuild_filled clean length, rebuild_limit ..,
    rebuild_migrations ..⟩, ?_⟩
  · rw [entries, List.map_fst_zip (Nat.le_of_eq counted)]
  · rw [Structure.values, Storage.values_eq]
    show (s.rebuild pools values).1.entries.map Prod.snd = _
    rw [entries, List.map_snd_zip (Nat.le_of_eq counted.symm)]

end Structure

end ScriptMachine
