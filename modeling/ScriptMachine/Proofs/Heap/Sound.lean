import ScriptMachine.Proofs.Code.Folding
import ScriptMachine.Proofs.Heap.Operations

/-!
# Heaps whose code can run

`Frame.Runs` says that a frame runs a compiled unit: it has the slots of the unit, and every
position that control may take up again is between two steps. A heap is sound if its accounts are in
order and all closures and parked frames have compiled code that they can run.
-/

set_option autoImplicit false

namespace ScriptMachine

structure Frame.Runs (u : CodeUnit) (f : Frame) : Prop where
  unit : f.unit = some u
  compiled : u.Compiled
  slots : f.locals.length = u.slots
  cursor : u.Boundary f.cursor
  trap : ∀ p, f.trap = some p → u.Boundary p
  onExhaust : ∀ p, f.onExhaust = some p → u.Boundary p

def Frame.Sound (f : Frame) : Prop := ∃ u, f.Runs u

/-- Code inside an object is compiled, and a parked frame can run on. -/
def Object.Sound {H : Type} : Object H → Prop
  | .callable (.script unit _) => unit.Compiled
  | .iterator it => ∀ f, it.parked = some f → f.Sound
  | _ => True

theorem Object.Sound.stable {H : Type} :
    Object.Stable fun (_ : Handle) (o : Object H) => o.Sound where
  struct := fun _ _ => trivial
  external := fun _ _ => trivial
  host := fun _ _ _ => trivial
  closure := fun _ _ _ _ _ compiled => compiled
  walk := by
    intro _ it walk f parked
    rw [Heap.parked_of_walk walk] at parked
    cases parked

namespace Heap

variable {H α : Type} {h : Heap H}

/-- The accounts are in order and all code can run. -/
structure Sound (h : Heap H) : Prop where
  accounted : h.Accounted []
  all : h.All fun _ o => o.Sound

theorem Sound.later (sound : h.Sound) : Later (fun _ o => o.Sound) [] h h :=
  ⟨sound.accounted, sound.all, Evolves.refl h⟩

theorem Later.sound {base : Heap H} (later : Later (fun _ o => o.Sound) [] base h) : h.Sound :=
  ⟨later.accounted, later.all⟩

theorem sound_empty : ({} : Heap H).Sound := later_empty.sound

/-- An operation that keeps what every operation keeps keeps heaps sound. -/
theorem keeps_sound {op : HeapM H α} (keeps : ∀ base, op.Keeps (Later (fun _ o => o.Sound) [] base)) :
    op.Keeps Sound := by
  intro h sound
  exact (keeps h h sound.later).mono (fun _ _ later => later.sound) (fun _ _ later => later.sound)

theorem Sound.withPools (sound : h.Sound) (pools : Pools) : { h with pools }.Sound :=
  (sound.later.withPools pools).sound

theorem Sound.dispose (sound : h.Sound) (v : Value) : (h.dispose v).Sound :=
  (sound.later.dispose v).sound

theorem Sound.disposeAll (sound : h.Sound) (vs : List Value) : (h.disposeAll vs).Sound :=
  (sound.later.disposeAll vs).sound

theorem Sound.alloc (sound : h.Sound) {o : Object H} (new : o.Sound) : (h.alloc o).2.Sound :=
  (sound.later.alloc fun _ => new).sound

theorem Sound.setObject (sound : h.Sound) {x : Handle} {o o' : Object H}
    (found : h.object? x = some o) (new : o'.Sound) : (h.setObject x o').Sound :=
  ⟨sound.accounted.setObject found o', sound.all.setObject found new⟩

theorem Sound.retire (sound : h.Sound) (frame : Frame) (mask : UInt64) :
    (h.retire frame mask).2.Sound :=
  ((sound.disposeAll _).disposeAll _).withPools _

theorem Sound.callable (sound : h.Sound) {v : Value} {u : CodeUnit} {captures : Buffer}
    (found : h.callableOf v = .ok (.script u captures)) : u.Compiled := by
  obtain ⟨x, object⟩ := callableOf_eq_ok found
  exact sound.all.object? object

theorem Sound.parked (sound : h.Sound) {x : Handle} {it : Iterator} {f : Frame}
    (found : h.iteratorAt x = .ok it) (parked : it.parked = some f) : f.Sound :=
  (sound.all.object? (iteratorAt_eq_ok found)) f parked

theorem Sound.exhaust (sound : h.Sound) (x : Handle) : (h.exhaust x).Sound := by
  unfold Heap.exhaust
  cases found : h.iteratorAt x with
  | error e => exact sound
  | ok it =>
    have ended : (Object.iterator it.finish.2 : Object H).Sound := fun f parked =>
      sound.parked found ((finish_edit it).2.trans parked)
    exact (sound.setObject (iteratorAt_eq_ok found) ended).disposeAll _

end Heap

end ScriptMachine
