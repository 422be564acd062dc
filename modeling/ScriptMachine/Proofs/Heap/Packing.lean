import ScriptMachine.Machine.Transfer
import ScriptMachine.Proofs.Heap.Operations
import ScriptMachine.Proofs.Structure.Layouts
import ScriptMachine.Proofs.Structure.Refinement

/-!
# Values packed in a structure

The arguments that a call has too many of are packed in a new structure, in order under the keys
from zero on. The keys are words, so there must not be more values than words.
-/

set_option autoImplicit false

namespace ScriptMachine

def Structure.Contents.row (values : List Value) : Structure.Contents
  | .int w => if w.toInt < 0 then none else values[w.toInt.toNat]?.map Structure.attach
  | _ => none

namespace Structure.Contents

theorem row_ofNat (values : List Value) {i : Nat} (few : i < 2 ^ 63) :
    row values (.int (Int64.ofNat i)) = values[i]?.map Structure.attach := by
  have word : (Int64.ofNat i).toInt = i := Int64.toInt_ofNat_of_lt few
  have natural : ¬ ((i : Int) < 0) := by omega
  simp only [row, word, natural, if_false, Int.toNat_natCast]

theorem row_nil : row [] = empty := by
  funext k
  cases k <;> simp [row, empty]

theorem row_concat (values : List Value) (v : Value) (few : values.length < 2 ^ 63) :
    (row values).put (.int (Int64.ofNat values.length)) v = row (values ++ [v]) := by
  funext k
  by_cases here : k = .int (Int64.ofNat values.length)
  · rw [here, row_ofNat _ few, put, if_pos rfl, ← Structure.attach_eq]
    simp
  rw [put, if_neg here]
  cases k with
  | int w =>
    by_cases negative : w.toInt < 0
    · simp only [row, negative, if_true]
    · simp only [row, negative, if_false]
      have beside : w.toInt.toNat ≠ values.length := by
        intro same
        refine here (congrArg Key.int (Int64.toInt_inj.mp ?_))
        rw [Int64.toInt_ofNat_of_lt few]
        omega
      rcases Nat.lt_or_gt_of_ne beside with inside | outside
      · rw [List.getElem?_append_left inside]
      · rw [List.getElem?_eq_none (Nat.le_of_lt outside),
          List.getElem?_eq_none (by rw [List.length_append]; exact outside)]
  | _ => rfl

end Structure.Contents

namespace Heap

open Structure (Contents)

variable {H : Type} {h : Heap H} {x : Handle} {s : Structure} {m : Contents}

/-- The structure under a handle, which is no ring, holds a map. -/
def Maps (h : Heap H) (x : Handle) (m : Contents) : Prop :=
  ∃ s, h.object? x = some (.struct s) ∧ s.layout ≠ .ring ∧
    Structure.Holds (s, h.pools.structures) m

def Beside (h : Heap H) (x : Handle) (k : Heap H) : Prop := ∀ y, y ≠ x → k.object? y = h.object? y

theorem Beside.trans {k l : Heap H} (first : h.Beside x k) (second : k.Beside x l) : h.Beside x l :=
  fun y other => (second y other).trans (first y other)

theorem maps_setChildKey (maps : h.Maps x m) (key : Key) (free : m key = none) (v : Value) :
    (setChildKey (.owned ⟨.struct, x⟩) key v).Ensures h
      (fun _ k => k.Maps x (m.put key v) ∧ h.Beside x k) (fun _ _ => True) := by
  obtain ⟨s, object, plain, holds⟩ := maps
  unfold setChildKey
  split
  · trivial
  rw [Effect.ensures_bind, Effect.ensures_get]
  split
  · trivial
  rw [Effect.ensures_bind]
  refine ensures_changeStructure (fun _ _ => trivial) fun y t ref _ found => ?_
  cases ref
  cases object.symm.trans found
  obtain ⟨displaced, set⟩ := holds.set key v
  have nothing : (s.set h.pools.structures key v).1 = none := by
    rw [displaced, Contents.handOut, free]
    rfl
  rw [nothing]
  have placed : ∀ y, (h.setObject x (.struct (s.set h.pools.structures key v).2.1)).object? y = _ :=
    object?_setObject object
  exact And.intro ⟨_, (placed x).trans (if_pos rfl),
    (s.widens_set h.pools.structures key v).not_ring plain, set⟩ fun y other =>
    (placed y).trans (if_neg other)

theorem maps_setItems {rest : List Value} :
    ∀ {done : List Value} {h : Heap H}, h.Maps x (Contents.row done) →
      done.length + rest.length ≤ 2 ^ 63 →
      (setItems (.owned ⟨.struct, x⟩) done.length rest).Ensures h
        (fun _ k => k.Maps x (Contents.row (done ++ rest)) ∧ h.Beside x k) (fun _ _ => True) := by
  induction rest with
  | nil =>
    intro done h maps _
    rw [List.append_nil]
    exact ⟨maps, fun _ _ => rfl⟩
  | cons v rest ih =>
    intro done h maps few
    rw [List.length_cons] at few
    have free : Contents.row done (.int (Int64.ofNat done.length)) = none := by
      rw [Contents.row_ofNat _ (by omega), List.getElem?_eq_none (Nat.le_refl _)]
      rfl
    rw [setItems, Effect.ensures_bind]
    refine (maps_setChildKey maps _ free v).mono (fun _ k stored => ?_) fun _ _ _ => trivial
    obtain ⟨maps, beside⟩ := stored
    rw [Contents.row_concat _ _ (by omega)] at maps
    have later := ih maps (by rw [List.length_append, List.length_singleton]; omega)
    rw [List.length_append, List.append_assoc] at later
    exact later.mono (fun _ _ later => ⟨later.1, beside.trans later.2⟩) fun _ _ _ => trivial

/-- What packs values is a new structure that holds exactly these, in order. All objects that were
there before are what they were. -/
theorem maps_pack (accounted : h.Accounted []) (clean : h.pools.structures.Clean)
    {values : List Value} (few : values.length ≤ 2 ^ 63) :
    (pack values).Ensures h
      (fun v k => ∃ x, v = .owned ⟨.struct, x⟩ ∧ k.Maps x (Contents.row values) ∧ ¬ h.Issued x ∧
        h.Beside x k) (fun _ _ => True) := by
  let made := Structure.new h.pools.structures values.length
  obtain ⟨valid, unbounded, empty, clean'⟩ := Structure.new_spec clean values.length
  have here : Later (fun _ _ => True) [] h h := ⟨accounted, fun _ _ _ _ _ => trivial, .refl h⟩
  obtain ⟨x, answer, new, found⟩ := (here.withPools
    { h.pools with structures := made.2 }).accounted.object?_alloc (.struct made.1)
  have target : (h.allocStructure values.length).1 = .owned ⟨.struct, x⟩ := answer
  have pools : (h.allocStructure values.length).2.pools.structures = made.2 := by
    unfold allocStructure
    simp only [alloc_pools, made]
  have maps : (h.allocStructure values.length).2.Maps x (Contents.row []) := by
    refine ⟨made.1, (found x).trans (if_pos rfl), nofun, ?_⟩
    rw [pools, Contents.row_nil]
    refine ⟨valid, unbounded, clean', fun k => ?_, fun _ _ held => by cases held⟩
    rw [show made.1.entries = [] from empty]
    rfl
  unfold pack
  simp only [Effect.ensures_bind, Effect.ensures_get, Effect.ensures_set,
    Effect.ensures_onFailure, Effect.ensures_pure, target]
  refine (maps_setItems maps (by simpa using few)).mono (fun _ k packed => ?_) fun _ _ _ => trivial
  have opened : h.Beside x (h.allocStructure values.length).2 := fun y other =>
    (found y).trans (if_neg other)
  exact ⟨x, rfl, packed.1, new, opened.trans packed.2⟩

end Heap

end ScriptMachine
