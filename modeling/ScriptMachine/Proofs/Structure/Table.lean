import ScriptMachine.Proofs.Order.SortedMap
import ScriptMachine.Proofs.Pool
import ScriptMachine.Structure.Table

/-!
# Tables as maps

A table is its map and, unless it is stale, an index that lists the keys of the map. Whether the
index was stale or not, an ordered reading sees the keys of the map in ascending order.
-/

set_option autoImplicit false

namespace ScriptMachine.Table

open SortedMap (Ascending lookup put drop)

variable {κ : Type}

variable [Ord κ]

/-- The entries ascend, and an index that is not stale lists their keys. -/
structure Valid (t : Table κ) : Prop where
  ascending : Ascending t.entries
  index : ∀ keys, t.index = some keys → keys = t.entries.map Prod.fst

theorem get?_eq (t : Table κ) (k : κ) : t.get? k = lookup k t.entries := rfl

variable {t : Table κ}

/-- An ordered reading sees the keys of the entries, and brings the index up to date. -/
theorem Valid.ordered (valid : t.Valid) {α : Type} (read : List κ → α) :
    (t.ordered read).1 = read (t.entries.map Prod.fst) ∧ (t.ordered read).2.Valid ∧
      (t.ordered read).2.entries = t.entries := by
  have keys : t.index.getD t.map.keys = t.entries.map Prod.fst := by
    cases stale : t.index with
    | none => rfl
    | some keys => exact valid.index keys stale
  refine ⟨by rw [Table.ordered, keys], ⟨valid.ascending, ?_⟩, rfl⟩
  intro keys' current
  simp only [Table.ordered, keys, Option.some.injEq] at current
  exact current.symm

theorem valid_fresh (capacity : Nat) : (Pooled.fresh capacity : Table κ).Valid :=
  ⟨SortedMap.ascending_nil, fun keys current => by
    simp only [Pooled.fresh, Option.some.injEq] at current
    exact current.symm⟩

instance : LawfulPooled (Table κ) := ⟨fun _ => rfl, fun _ => rfl⟩

variable [Std.TransOrd κ] [Std.LawfulEqOrd κ]

theorem Valid.insert (valid : t.Valid) (k : κ) (v : Value) :
    (t.insert k v).2.Valid ∧ (t.insert k v).1 = lookup k t.entries ∧
      (t.insert k v).2.entries = put k v t.entries := by
  refine ⟨⟨SortedMap.ascending_put valid.ascending k v, ?_⟩, rfl, rfl⟩
  intro keys current
  simp only [Table.insert] at current
  split at current
  · rename_i present
    rw [valid.index keys current]
    exact (SortedMap.map_fst_put valid.ascending present v).symm
  · simp at current

omit [Std.TransOrd κ] [Std.LawfulEqOrd κ] in
theorem Valid.remove (valid : t.Valid) (k : κ) :
    (t.remove k).2.Valid ∧ (t.remove k).1 = lookup k t.entries ∧
      (t.remove k).2.entries = drop k t.entries := by
  unfold Table.remove
  cases got : t.get? k with
  | none =>
    have absent : lookup k t.entries = none := got
    refine ⟨valid, absent.symm, ?_⟩
    rw [SortedMap.drop_eq_self absent]
  | some v =>
    refine ⟨⟨SortedMap.ascending_drop valid.ascending k, ?_⟩, got.symm, rfl⟩
    intro keys current
    simp at current

theorem Valid.insertAll (valid : t.Valid) (entries : List (κ × Value)) :
    (t.insertAll entries).Valid ∧
      (t.insertAll entries).entries =
        entries.foldl (fun acc e => put e.1 e.2 acc) t.entries := by
  induction entries generalizing t with
  | nil => exact ⟨valid, rfl⟩
  | cons e rest ih =>
    obtain ⟨valid', -, entries'⟩ := valid.insert e.1 e.2
    obtain ⟨valid'', entries''⟩ := ih valid'
    refine ⟨valid'', entries''.trans ?_⟩
    rw [entries', List.foldl_cons]

theorem insertAll_fresh (capacity : Nat) {entries : List (κ × Value)}
    (ascending : Ascending entries) :
    ((Pooled.fresh capacity : Table κ).insertAll entries).Valid ∧
      ((Pooled.fresh capacity : Table κ).insertAll entries).entries = entries := by
  obtain ⟨valid, filled⟩ := (valid_fresh capacity).insertAll entries
  refine ⟨valid, filled.trans ?_⟩
  have lined : Ascending ([] ++ entries) := ascending
  exact SortedMap.foldl_put lined

theorem Valid.rebuild (valid : t.Valid) (capacity : Nat) {values : List Value}
    (length : values.length = t.size) :
    (t.rebuild (Pooled.fresh capacity) values).Valid ∧
      (t.rebuild (Pooled.fresh capacity) values).entries = (t.entries.map Prod.fst).zip values :=
  insertAll_fresh capacity (SortedMap.ascending_zip valid.ascending length)

end ScriptMachine.Table
