import ScriptMachine.Proofs.Heap.Histories
import ScriptMachine.Proofs.Structure.Appending

/-!
# Appending and prepending on the heap

To append or prepend to a live structure that evicts nothing adds one entry and leaves the others as
they are, as long as there is room: the outermost integer on that side is not held, and no ring
comes to hold the greatest word, behind which it can not compute a key any more.
-/

set_option autoImplicit false

namespace ScriptMachine.Heap

open Structure (edgeUse utmost)

variable {H : Type} {h k : Heap H} {x : Handle} {s after : Structure} {target v : Value}

theorem object?_of_structureOf (refers : target.ref? = some ⟨.struct, x⟩)
    (found : h.structureOf target = .ok s) : h.object? x = some (.struct s) := by
  obtain ⟨y, handle, object⟩ := structureOf_eq_ok found
  cases refers.symm.trans (handleOf_eq_ok handle)
  exact object

/-- A structure is disposed with other values, or it stays as it is. -/
theorem structureOf_disposeAll (refers : target.ref? = some ⟨.struct, x⟩)
    (object : h.object? x = some (.struct s)) (vs : List Value)
    (found : (h.disposeAll vs).structureOf target = .ok after) : after = s := by
  cases object.symm.trans (object?_of_disposeAll (object?_of_structureOf refers found))
  rfl

/-- What a structure has come to when an operation on it is over: it is what the operation made of
it, or it is disposed, but only if it lost an entry. -/
def EndsAs (k : Heap H) (target : Value) (result : Option Value × Structure × StructurePools) :
    Prop :=
  (result.1 = none → k.structureOf target = .ok result.2.1) ∧
    ∀ after, k.structureOf target = .ok after → after = result.2.1

theorem setChildKey_endsAs (refers : target.ref? = some ⟨.struct, x⟩)
    (object : h.object? x = some (.struct s)) (key : Key) (v : Value) :
    (setChildKey target key v).Ensures h
      (fun _ k => s.overflows [.write key] = false ∧
        k.EndsAs target (s.set h.pools.structures key v)) (fun _ _ => True) := by
  unfold setChildKey
  split
  · trivial
  rw [Effect.ensures_bind, Effect.ensures_get]
  split
  · trivial
  rw [Effect.ensures_bind]
  refine ensures_changeStructure (fun _ _ => trivial) fun y t refers' fits object' => ?_
  cases refers.symm.trans refers'
  cases object.symm.trans object'
  generalize s.set h.pools.structures key v = result
  have placed : ∀ pools, { h.setObject x (.struct result.2.1) with pools }.object? x =
      some (.struct result.2.1) := fun _ => (object?_setObject object x).trans (if_pos rfl)
  unfold discardAll
  rw [Effect.ensures_modify]
  refine ⟨(structureFor_eq_ok.mp fits).2, fun none => ?_,
    fun after found => structureOf_disposeAll refers (placed _) _ found⟩
  rw [none]
  exact structureOf_of_object? refers (placed _)

theorem append_endsAs (found : h.structureOf target = .ok s) (v : Value) (front : Bool) :
    (append target v front).Ensures h
      (fun _ k => s.overflows [edgeUse front] = false ∧
        s.overflows [.write (s.edgeKey front).1] = false ∧
        k.EndsAs target (s.push h.pools.structures front v)) (fun _ _ => True) := by
  obtain ⟨x, handle, object⟩ := structureOf_eq_ok found
  have refers := handleOf_eq_ok handle
  unfold append
  rw [Effect.ensures_bind, Effect.ensures_get]
  split
  · trivial
  rw [Effect.ensures_bind]
  refine ensures_changeStructure (fun _ _ => trivial) fun y t refers' safe object' => ?_
  cases refers.symm.trans refers'
  cases object.symm.trans object'
  have placed : (h.setObject x (.struct (s.edgeKey front).2)).object? x =
      some (.struct (s.edgeKey front).2) := (object?_setObject object x).trans (if_pos rfl)
  refine Effect.Ensures.mono (setChildKey_endsAs refers placed (s.edgeKey front).1 v) ?_
    fun _ _ _ => trivial
  rintro - k ⟨fits, ends⟩
  rw [s.overflows_edgeKey front] at fits
  exact ⟨(structureFor_eq_ok.mp safe).2, fits, ends⟩

/-! ## All heaps -/

/-- Appending to a live structure that is no queue with a limit, or prepending to it, leaves every
entry under its key with its value, adds one, stores the value under an integer beyond all integers
that were held, and lets all of them be read, if and only if there was room. -/
theorem append_only_adds_iff {ops : List (HeapOp H)} (placed : ∀ o, .alloc o ∈ ops → o.Valid)
    {front : Bool} (live : (History.run {} ops).heap.structureOf target = .ok s)
    (unbounded : s.storage.Unbounded)
    (done : append target v front (History.run {} ops).heap = .ok () k) :
    (∃ after w, k.structureOf target = .ok after ∧ s.Adds w v front after) ↔
      s.Roomy front := by
  have orderly := orderly_of_history placed
  obtain ⟨x, -, object⟩ := structureOf_eq_ok live
  have valid : s.storage.Valid := orderly.valid.object? object
  obtain ⟨safe, fits, there, only⟩ :=
    (Effect.ensures_of_eq_ok done).mp (append_endsAs live v front)
  obtain ⟨adds, fails⟩ :=
    Structure.push_spec valid orderly.clean.structures unbounded front v safe fits
  constructor
  · rintro ⟨after, w, found, added⟩
    refine Classical.byContradiction fun full => fails full w ?_
    exact only after found ▸ added
  · intro room
    obtain ⟨nothing, w, added⟩ := adds room
    exact ⟨_, w, there nothing, added⟩

def firstMade : Value := .owned ⟨.struct, ⟨0, 0⟩⟩

def gapped : List (HeapOp Unit) :=
  [.allocStructure 0, .setChildKey firstMade (.int 5) (.int 50),
    .setChildKey firstMade (.str "a") .null, .setChildKey firstMade (.int 9) (.int 90),
    .deleteChild firstMade (.int 5)]

theorem append_only_adds_gapped :
    (∀ o, HeapOp.alloc o ∈ gapped → o.Valid) ∧
      ∃ s k, (History.run {} gapped).heap.structureOf firstMade = .ok s ∧ s.storage.Unbounded ∧
        append firstMade (.int 1) true (History.run {} gapped).heap = .ok () k ∧ s.Roomy true ∧
        ∃ after w, k.structureOf firstMade = .ok after ∧ s.Adds w (.int 1) true after := by
  have placed : ∀ o, HeapOp.alloc o ∈ gapped → o.Valid := by simp [gapped]
  refine ⟨placed, _, _, rfl, trivial, rfl, ⟨by decide, nofun⟩, ?_⟩
  refine (append_only_adds_iff placed rfl ?_ rfl).mpr ⟨by decide, nofun⟩
  trivial

/-- An entry under the greatest integer. -/
def filled : List (HeapOp Unit) :=
  [.allocStructure 0, .setChildKey firstMade (.int Int64.maxValue) (.int 1)]

/-- What is appended takes the place of the entry under the greatest integer. -/
theorem append_overwrites_last : ∃ s k after,
    (History.run {} filled).heap.structureOf firstMade = .ok s ∧ s.storage.Unbounded ∧
      append firstMade (.int 2) false (History.run {} filled).heap = .ok () k ∧
      k.structureOf firstMade = .ok after ∧
      s.get? (.int Int64.maxValue) = some (Structure.attach (.int 1)) ∧
      after.get? (.int Int64.maxValue) = some (Structure.attach (.int 2)) ∧
      s.size = 1 ∧ after.size = 1 ∧ ∀ w, ¬ s.Adds w (.int 2) false after := by
  refine ⟨_, _, _, rfl, trivial, rfl, rfl, by decide, by decide, by decide, by decide, ?_⟩
  intro w added
  exact absurd added.size (by decide)

end ScriptMachine.Heap
