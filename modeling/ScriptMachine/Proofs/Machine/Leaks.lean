import Mathlib.Data.Fintype.Card
import Mathlib.Data.Fintype.EquivFin
import Mathlib.Order.WellFounded
import ScriptMachine.Proofs.Heap.Disposal
import ScriptMachine.Proofs.Machine.Holdings

/-!
# Objects that nobody can dispose of

Whoever wants to dispose of an object goes by its owner. An owner may be inside of another object,
so owners are followed up, until one is found outside of the heap. There are finitely many objects;
if no owner outside is ever found, the way up runs in a circle. Such circles can be made: a
structure refuses its own owner, but takes that of a structure which it is in.
-/

set_option autoImplicit false

namespace ScriptMachine

open Relation (ReflTransGen TransGen)

namespace Heap

variable {H : Type} {h : Heap H} {x y : Handle} {out : List Value}

instance finite_live (h : Heap H) : Finite { x // (h.object? x).isSome } := by
  have slots : ∀ x : { x // (h.object? x).isSome }, ∃ slot, h.slots[x.1.index]? = some slot ∧
      slot.generation = x.1.generation := by
    rintro ⟨x, live⟩
    obtain ⟨o, found⟩ := Option.isSome_iff_exists.mp live
    obtain ⟨slot, hslot, same, -⟩ := object?_eq_some_iff.mp found
    exact ⟨slot, hslot, same⟩
  let place (x : { x // (h.object? x).isSome }) : Fin h.slots.size := ⟨x.1.index, by
    obtain ⟨slot, found, -⟩ := slots x
    exact (Array.getElem?_eq_some_iff.mp found).choose⟩
  refine Finite.of_injective place fun x y same => ?_
  obtain ⟨slot, found, generation⟩ := slots x
  obtain ⟨slot', found', generation'⟩ := slots y
  have index : x.1.index = y.1.index := congrArg Fin.val same
  rw [index, found'] at found
  cases found
  refine Subtype.ext ?_
  cases hx : x.1
  cases hy : y.1
  simp_all

/-- Without circles, the way up from a live object ends. -/
theorem Forest.wellFounded (forest : h.Forest) :
    WellFounded fun x y : { x // (h.object? x).isSome } => TransGen h.Owns x.1 y.1 := by
  have trans : IsTrans { x // (h.object? x).isSome } fun x y => TransGen h.Owns x.1 y.1 :=
    ⟨fun _ _ _ first second => first.trans second⟩
  have irrefl : Std.Irrefl fun x y : { x // (h.object? x).isSome } => TransGen h.Owns x.1 y.1 :=
    ⟨fun x circle => forest x.1 circle⟩
  exact Finite.wellFounded_of_trans_of_irrefl _

theorem exists_owner (pos : 0 < tally y h.held) : ∃ x, h.Owns x y := by
  obtain ⟨v, mem, owner⟩ := exists_mem_of_tally_pos pos
  obtain ⟨slot, inside, held⟩ := List.mem_flatMap.mp mem
  obtain ⟨i, found⟩ := List.mem_iff_getElem?.mp inside
  cases object : slot.object with
  | none =>
    rw [Slot.held_of_none object] at held
    cases held
  | some o =>
    rw [Slot.held_of_some object] at held
    refine ⟨⟨i, slot.generation⟩, o, object?_eq_some_iff.mpr ⟨slot, ?_, rfl, object⟩, ?_⟩
    · simpa using found
    · have := owners_le_tally (x := y) held
      omega

theorem Owned.descends (owned : h.Owned [] out) (live : (h.object? x).isSome) :
    (∃ y, 0 < tally y out ∧ ReflTransGen h.Owns y x) ∨
      ∃ y, TransGen h.Owns y y ∧ ReflTransGen h.Owns y x := by
  refine or_iff_not_imp_left.mpr fun unowned => by_contra fun straight => ?_
  let Ancestor := { y : { y // (h.object? y).isSome } // ReflTransGen h.Owns y.1 x }
  let Higher (y z : Ancestor) : Prop := TransGen h.Owns y.1.1 z.1.1
  have trans : IsTrans Ancestor Higher := ⟨fun _ _ _ first second => first.trans second⟩
  have irrefl : Std.Irrefl Higher := ⟨fun y circle => straight ⟨y.1.1, circle, y.2⟩⟩
  have ordered : WellFounded Higher := Finite.wellFounded_of_trans_of_irrefl Higher
  obtain ⟨⟨⟨top, here⟩, above⟩, -, highest⟩ :=
    ordered.has_min Set.univ ⟨⟨⟨x, live⟩, .refl⟩, trivial⟩
  have balance := owned.balance top
  rw [due, if_pos (.inl here)] at balance
  have inside : tally top out = 0 := Nat.eq_zero_of_not_pos fun pos =>
    unowned ⟨top, pos, above⟩
  obtain ⟨owner, owns⟩ := exists_owner (h := h) (y := top) (by omega)
  exact highest ⟨⟨owner, owns.live⟩, .head owns above⟩ trivial (.single owns)

theorem live_eq_zero (accounted : h.Accounted []) : h.live = 0 ↔ ∀ x, h.object? x = none := by
  have count : h.live = h.occupied := accounted.live
  rw [count]
  constructor
  · intro none x
    cases found : h.object? x with
    | none => rfl
    | some o =>
      have := occupied_pos found
      omega
  · intro none
    refine List.countP_eq_zero.mpr fun slot mem occupied => ?_
    obtain ⟨i, found⟩ := List.mem_iff_getElem?.mp mem
    obtain ⟨o, object⟩ := Option.isSome_iff_exists.mp occupied
    have live : h.object? ⟨i, slot.generation⟩ = some o :=
      object?_eq_some_iff.mpr ⟨slot, by simpa using found, rfl, object⟩
    rw [none] at live
    cases live

end Heap

namespace Estate

variable {H W : Type} {host : Host H W} {keeps : W → List Value} {s : Estate H W}

/-- What is live in an estate is below a value outside of the heap, or below an object that owns
itself through others. So if no value outside owns anything, then nothing is live unless there are
such objects. -/
theorem live_descends (linear : host.Linear CodeUnit.Compiled keeps)
    (reachable : Reachable host keeps s) :
    (∀ x, (s.machine.heap.object? x).isSome →
      (∃ y, 0 < tally y (s.outside keeps) ∧ ReflTransGen s.machine.heap.Owns y x) ∨
        ∃ y, TransGen s.machine.heap.Owns y y ∧ ReflTransGen s.machine.heap.Owns y x) ∧
      (Bare (s.outside keeps) → (s.machine.heap.live = 0 ↔ s.machine.heap.Forest)) := by
  have owned : s.machine.heap.Owned [] (s.outside keeps) := (reachable.sound linear).owned.heap
  refine ⟨fun x live => owned.descends live, fun bare => ?_⟩
  rw [Heap.live_eq_zero owned.accounted]
  constructor
  · intro none x circle
    obtain ⟨y, owns, -⟩ := TransGen.head'_iff.mp circle
    simpa [none] using owns.live
  · refine fun forest x => Option.eq_none_iff_forall_ne_some.mpr fun o found => ?_
    rcases owned.descends (x := x) (by simp [found]) with ⟨y, pos, -⟩ | ⟨y, circle, -⟩
    · exact absurd (bare y) (Nat.ne_of_gt pos)
    · exact forest y circle

/-! Two structures that were put into one another by pointers, which are still there after
shutdown. -/

/-- The owner of the second structure is put into the first one, and then the owner of the first one
into the second. -/
def tie : List (HeapOp Unit) :=
  [.allocStructure 1, .allocStructure 1,
   .setChildKey (.pointer ⟨.struct, ⟨0, 0⟩⟩) (.str "child") (.owned ⟨.struct, ⟨1, 0⟩⟩),
   .setChildKey (.pointer ⟨.struct, ⟨1, 0⟩⟩) (.str "parent") (.owned ⟨.struct, ⟨0, 0⟩⟩)]

def tied : Estate Unit Unit :=
  ⟨Machine.shutdown { heap := ({} : Heap Unit).after tie, world := () }, [], []⟩

theorem deals_tie : Heap.Deals CodeUnit.Compiled {} [] (({} : Heap Unit).after tie) [] := by
  refine .op (.allocStructure 1) [] trivial trivial (.refl _) ?_
  refine .op (.allocStructure 1) [.owned ⟨.struct, ⟨0, 0⟩⟩] trivial trivial (.refl _) ?_
  refine .op (.setChildKey (.pointer ⟨.struct, ⟨0, 0⟩⟩) (.str "child") (.owned ⟨.struct, ⟨1, 0⟩⟩))
    [.owned ⟨.struct, ⟨0, 0⟩⟩] trivial trivial (.refl _) ?_
  refine .op (.setChildKey (.pointer ⟨.struct, ⟨1, 0⟩⟩) (.str "parent") (.owned ⟨.struct, ⟨0, 0⟩⟩))
    [] trivial trivial (.refl _) ?_
  exact .done (.refl _)

theorem reachable_tied : Reachable Session.idle (fun _ => []) tied :=
  ⟨{ world := () }, rfl, rfl, fun _ _ found => (by cases found), fun _ => rfl,
    .tail (.single (.deal _ _ [] [] [] deals_tie)) (.shutdown _ _ _)⟩

theorem live_descends_tied :
    (∃ y, TransGen tied.machine.heap.Owns y y ∧ ReflTransGen tied.machine.heap.Owns y ⟨1, 0⟩) ∧
      (tied.machine.heap.live = 0 ↔ tied.machine.heap.Forest) := by
  obtain ⟨descends, leaks⟩ := live_descends linear_idle reachable_tied
  refine ⟨(descends ⟨1, 0⟩ rfl).resolve_left ?_, leaks fun _ => rfl⟩
  rintro ⟨y, pos, -⟩
  cases pos

theorem tied_outlives_shutdown : Reachable Session.idle (fun _ => []) tied ∧
    Bare (tied.outside fun _ => []) ∧ TransGen tied.machine.heap.Owns ⟨0, 0⟩ ⟨0, 0⟩ ∧
    tied.machine.heap.live = 2 := by
  have down : tied.machine.heap.Owns ⟨0, 0⟩ ⟨1, 0⟩ := ⟨_, rfl, by decide⟩
  have up : tied.machine.heap.Owns ⟨1, 0⟩ ⟨0, 0⟩ := ⟨_, rfl, by decide⟩
  exact ⟨reachable_tied, fun _ => rfl, .head down (.single up), rfl⟩

end Estate

end ScriptMachine
