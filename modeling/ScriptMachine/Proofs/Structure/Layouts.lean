import ScriptMachine.Proofs.Structure.Operations

/-!
# Layouts are left for good

A structure keeps its layout or moves to a table, and a table never becomes a row or a ring again.
So a structure that holds its entries by position has done so from its start, and no operation that
adds, removes or reads entries changes that.
-/

set_option autoImplicit false

namespace ScriptMachine.Structure

variable {s after : Structure} {pools : StructurePools} {k : Key} {v : Value}

theorem layout_eq_ring : s.layout = .ring ↔ ∃ r, s.storage = .ring r := by
  unfold layout
  cases s.storage <;> simp [Storage.layout]

theorem layout_eq_dense : s.layout = .dense ↔ ∃ d, s.storage = .dense d := by
  unfold layout
  cases s.storage <;> simp [Storage.layout]

/-- Entries are held by the position of their keys, which are integers. -/
def Positional (s : Structure) : Prop := s.layout = .dense ∨ s.layout = .ring

def Widens (s after : Structure) : Prop := after.layout = s.layout ∨ ¬ after.Positional

theorem Widens.refl (s : Structure) : Widens s s := .inl rfl

theorem Widens.layout (widens : Widens s after) (positional : after.Positional) :
    s.layout = after.layout :=
  (widens.resolve_right fun table => table positional).symm

theorem Widens.not_ring (widens : Widens s after) (plain : s.layout ≠ .ring) :
    after.layout ≠ .ring := by
  rcases widens with same | table
  · rwa [same]
  · exact fun ring => table (.inr ring)

/-- Only a ring computes keys that may be no words. -/
theorem not_overflows_of_not_ring (plain : s.layout ≠ .ring) (uses : List Use) :
    s.overflows uses = false := by
  obtain ⟨storage, migrations⟩ := s
  cases storage with
  | ring r => exact absurd rfl plain
  | _ => rfl

theorem Widens.trans {a b c : Structure} (first : Widens a b) (second : Widens b c) :
    Widens a c := by
  rcases second with same | table
  · rcases first with same' | table'
    · exact .inl (same.trans same')
    · exact .inr fun positional => table' (by rwa [Positional, ← same])
  · exact .inr table

/-- The keys of entries that are held by position are integers. -/
theorem Positional.int (positional : s.Positional) (mem : (k, v) ∈ s.entries) :
    ∃ w, k = .int w := by
  rw [Structure.entries] at mem
  rcases positional with dense | ring
  · obtain ⟨d, row⟩ := layout_eq_dense.mp dense
    rw [row] at mem
    obtain ⟨⟨i, u⟩, -, same⟩ := List.mem_map.mp (show (k, v) ∈ d.entries from mem)
    exact ⟨_, (congrArg Prod.fst same).symm⟩
  · obtain ⟨r, queue⟩ := layout_eq_ring.mp ring
    rw [queue] at mem
    obtain ⟨⟨i, u⟩, -, same⟩ := List.mem_map.mp (show (k, v) ∈ r.entries from mem)
    exact ⟨_, (congrArg Prod.fst same).symm⟩

/-! ## Adding and removing -/

theorem layout_place {storage after : Storage} {old : Option Value}
    (placed : storage.place k v = .stored old after) : after.layout = storage.layout := by
  cases storage with
  | dense d =>
    simp only [Storage.place] at placed
    split at placed <;> cases placed
    rfl
  | keyed t =>
    cases k <;> simp [Storage.place] at placed
    rw [← placed.2]
    rfl
  | mixed t =>
    simp only [Storage.place, Placement.stored.injEq] at placed
    rw [← placed.2]
    rfl
  | ring r =>
    simp only [Storage.place] at placed
    split at placed <;> cases placed
    rfl

theorem not_positional_migrate (s : Structure) (pools : StructurePools) (target : Layout) :
    ¬ (s.migrate pools target).1.Positional := by
  cases target <;> simp [Positional, migrate, Structure.layout, Storage.layout]

theorem layout_grow (s : Structure) (pools : StructurePools) (needed : Nat) :
    (s.grow pools needed).1.layout = s.layout := by
  unfold grow Structure.layout
  split
  · rename_i d row
    rw [row]
    rfl
  · rfl

theorem widens_placeWithin (attempts : Nat) : ∀ (s : Structure) (pools : StructurePools),
    Widens s (s.placeWithin pools k v attempts).2.1 := by
  induction attempts with
  | zero => exact fun s pools => .refl s
  | succ attempts ih =>
    intro s pools
    rw [placeWithin]
    cases placed : s.storage.place k v with
    | stored old after => exact .inl (layout_place placed)
    | needs capacity => exact .trans (.inl (layout_grow s pools capacity)) (ih _ _)
    | refused => exact .trans (.inr (not_positional_migrate s pools _)) (ih _ _)

theorem widens_set (s : Structure) (pools : StructurePools) (k : Key) (v : Value) :
    Widens s (s.set pools k v).2.1 := widens_placeWithin placeAttempts s pools

theorem layout_delete (s : Structure) (k : Key) : (s.delete k).2.layout = s.layout := by
  unfold delete Structure.layout
  cases s.storage with
  | keyed t => cases k <;> rfl
  | _ => rfl

/-! ## Ordered reading -/

theorem layout_firstKey? (s : Structure) : s.firstKey?.2.layout = s.layout := by
  unfold firstKey?
  split <;> simp_all [Structure.layout, Storage.layout, readKeyed, readMixed]

theorem layout_lastKey? (s : Structure) : s.lastKey?.2.layout = s.layout := by
  unfold lastKey?
  split <;> simp_all [Structure.layout, Storage.layout, readKeyed, readMixed]

theorem layout_nextKey? (s : Structure) (k : Key) : (s.nextKey? k).2.layout = s.layout := by
  unfold nextKey?
  split
  · rfl
  · simp_all [Structure.layout, Storage.layout, readKeyed]
  · split <;> simp_all [Structure.layout, Storage.layout, readKeyed]
  · simp_all [Structure.layout, Storage.layout, readMixed]
  · rfl

theorem layout_appendKey (s : Structure) : s.appendKey.2.layout = s.layout := by
  unfold appendKey
  cases storage : s.storage <;> simp_all [Structure.layout, Storage.layout, readMixed]

theorem layout_prependKey (s : Structure) : s.prependKey.2.layout = s.layout := by
  unfold prependKey
  cases storage : s.storage <;> simp_all [Structure.layout, Storage.layout, readMixed]

/-! ## Taking entries off the ends -/

theorem layout_deleteRead {reading : Option Key × Structure} (same : reading.2.layout = s.layout) :
    (deleteRead reading).2.layout = s.layout := by
  obtain ⟨key, after⟩ := reading
  cases key with
  | none => exact same
  | some k => exact (layout_delete after k).trans same

theorem layout_popFront (s : Structure) : s.popFront.2.layout = s.layout := by
  have other := layout_deleteRead (layout_firstKey? s)
  unfold popFront
  cases storage : s.storage with
  | ring r => simp [Structure.layout, storage, Storage.layout]
  | _ => exact other

theorem layout_popBack (s : Structure) : s.popBack.2.layout = s.layout := by
  have other := layout_deleteRead (layout_lastKey? s)
  unfold popBack
  cases storage : s.storage with
  | ring r => simp [Structure.layout, storage, Storage.layout]
  | _ => exact other

end ScriptMachine.Structure
