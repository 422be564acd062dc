import ScriptMachine.Proofs.Structure.Operations
import ScriptMachine.Proofs.Value.Owners

/-!
# Owners in structures

What an operation on a structure puts in and hands out, counted by owners.
-/

set_option autoImplicit false

namespace ScriptMachine

/-! ## Entries -/

section Entries
variable {κ ν : Type} [Ord κ] [Std.LawfulEqOrd κ]

open SortedMap (Ascending lookup put drop)

theorem tally_put [Std.TransOrd κ] (f : ν → Value) {entries : List (κ × ν)}
    (ascending : Ascending entries) (k : κ) (v : ν) (x : Handle) :
    tally x ((put k v entries).map fun e => f e.2) + tally x ((lookup k entries).map f).toList =
      tally x (entries.map fun e => f e.2) + (f v).owners x := by
  have perm := (SortedMap.put_perm ascending k v).map fun e => f e.2
  have counted := tally_perm perm x
  rw [List.map_append, tally_append, List.map_cons, tally_cons] at counted
  cases found : lookup k entries with
  | none =>
    simp only [found, Option.map_none, Option.toList_none, List.map_nil, tally_nil] at counted ⊢
    omega
  | some w =>
    simp only [found, Option.map_some, Option.toList_some, List.map_cons, List.map_nil, tally_cons,
      tally_nil] at counted ⊢
    omega

theorem tally_drop (f : ν → Value) (entries : List (κ × ν)) (k : κ) (x : Handle) :
    tally x ((drop k entries).map fun e => f e.2) + tally x ((lookup k entries).map f).toList =
      tally x (entries.map fun e => f e.2) := by
  cases found : lookup k entries with
  | none => simp [SortedMap.drop_eq_self found]
  | some w =>
    have counted := tally_perm ((SortedMap.drop_perm found).map fun e => f e.2) x
    rw [List.map_cons, tally_cons] at counted
    simp only [Option.map_some, Option.toList_some, tally_cons, tally_nil] at counted ⊢
    omega

end Entries

namespace Structure

variable {s : Structure} {pools : StructurePools}

theorem values_eq (s : Structure) : s.values = s.storage.entries.map fun e => e.2 :=
  s.storage.values_eq

/-- Setting holds the value; what it displaces comes back. -/
theorem tally_set (valid : s.storage.Valid) (clean : pools.Clean) (k : Key) (v : Value)
    (x : Handle) :
    tally x (s.set pools k v).2.1.values + tally x (s.set pools k v).1.toList =
      tally x s.values + v.owners x := by
  obtain ⟨old, answer, stored, -⟩ := set_spec valid clean k v
  have given : tally x (s.set pools k v).1.toList = tally x old.toList := by
    rw [answer]
    cases old <;> simp
  rw [given, values_eq, values_eq]
  have put := tally_put id valid.ascending k (attach v) x
  rcases stored.entries with ⟨rfl, entries⟩ | ⟨-, absent, k', w, rfl, mem, entries⟩
  · rw [entries]
    simpa using put
  · have dropped := tally_drop id (SortedMap.put k (attach v) s.storage.entries) k' x
    have found := (SortedMap.lookup_eq_some_iff
      (SortedMap.ascending_put valid.ascending k (attach v))).mpr mem
    rw [entries]
    simp only [found, absent, id, Option.map_some, Option.map_none, Option.toList_some,
      Option.toList_none, tally_cons, tally_nil, owners_attach] at dropped put ⊢
    omega

theorem tally_delete (valid : s.storage.Valid) (k : Key) (x : Handle) :
    tally x (s.delete k).2.values + tally x (s.delete k).1.toList = tally x s.values := by
  obtain ⟨-, -, answer, entries⟩ := delete_spec valid k
  have before : s.storage.entries = s.entries := rfl
  have later : (s.delete k).2.storage.entries = (s.delete k).2.entries := rfl
  have dropped := tally_drop id s.entries k x
  rw [values_eq, values_eq, before, later, entries, answer]
  cases found : SortedMap.lookup k s.entries <;> simpa [found] using dropped

theorem Popped.tally {End : Option Key → Prop} {after : Option Value × Structure}
    (valid : s.storage.Valid) (popped : Popped End s after) (x : Handle) :
    tally x after.2.values + tally x after.1.toList = tally x s.values := by
  have before : s.storage.entries = s.entries := rfl
  have later : after.2.storage.entries = after.2.entries := rfl
  rw [values_eq, values_eq, before, later]
  rcases popped.either with ⟨empty, answer, entries⟩ | ⟨k, v, -, mem, answer, entries⟩
  · simp [empty, answer, entries]
  · have found : SortedMap.lookup k s.entries = some v :=
      (SortedMap.lookup_eq_some_iff (Storage.Valid.ascending valid)).mpr mem
    have dropped := tally_drop id s.entries k x
    rw [entries, answer]
    simpa [found] using dropped

theorem Read.values {after : Structure} (read : Read s after) : after.values = s.values := by
  rw [values_eq, values_eq, show after.storage.entries = _ from read.entries]
  rfl

end Structure

end ScriptMachine
