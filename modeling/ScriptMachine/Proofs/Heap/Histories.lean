import ScriptMachine.Proofs.Heap.DeepCopy

/-!
# Heaps that operations lead to

Every operation of a heap leaves a heap in working order so, whether it fails or not. So all heaps
that operations lead to from the empty one are in working order, as long as what is placed on them
from outside is.
-/

set_option autoImplicit false

namespace ScriptMachine.Heap

variable {H α : Type} {base h k : Heap H} {lent : List Nat}

/-! ## Edits -/

theorem orderly_of_edits {op : HeapM H α} (edits : ∀ base, op.Keeps (Edits base)) :
    op.Keeps (Orderly []) := by
  intro h orderly
  exact (edits h h (.refl orderly)).mono (fun _ _ edits => edits.orderly)
    (fun _ _ edits => edits.orderly)

/-! ## Copies -/

/-- The heap while a copy is made: it came out of the heap that the copy began with. -/
structure Since (lent : List Nat) (base h : Heap H) : Prop where
  orderly : h.Orderly lent
  evolves : base.Evolves h

theorem Since.refl (orderly : h.Orderly lent) : Since lent h h := ⟨orderly, .refl h⟩

theorem Since.trans (first : Since lent base h) (second : Since lent h k) : Since lent base k :=
  ⟨second.orderly, first.evolves.trans second.evolves⟩

theorem copyParts_since {copyOwned : Value → HeapM H Value}
    (copies : ∀ v, (copyOwned v).Keeps (Since lent base)) (values : List Value) :
    ∀ (copied : List Value) (h : Heap H), Since lent base h →
      (copyParts copyOwned values copied).Ensures h
        (fun ws k => ws.length = copied.length + values.length ∧ Since lent base k)
        (fun _ k => Since lent base k) := by
  induction values with
  | nil =>
    intro copied h since
    exact ⟨List.length_reverse, since⟩
  | cons v values ih =>
    intro copied h since
    have next : ∀ w k, Since lent base k → (copyParts copyOwned values (w :: copied)).Ensures k
        (fun ws k => ws.length = copied.length + (v :: values).length ∧ Since lent base k)
        (fun _ k => Since lent base k) := by
      intro w k since
      refine (ih (w :: copied) k since).mono (fun ws k done => ?_) fun _ _ done => done
      obtain ⟨length, since⟩ := done
      refine ⟨length.trans ?_, since⟩
      rw [List.length_cons, List.length_cons]
      omega
    rw [copyParts]
    split
    · simp only [Effect.ensures_bind, Effect.ensures_onFailure]
      refine (copies v h since).mono (fun w k since => next w k since) fun _ k since => ?_
      obtain ⟨orderly, evolves⟩ := since.orderly.disposeAll copied.reverse
      exact since.trans ⟨orderly, evolves⟩
    · exact next _ h since

/-- A copy is made while its source is lent, and placed beside it. -/
theorem copyWithin_since (deep : Bool) (fuel : Nat) :
    ∀ (v : Value) (lent : List Nat) (base : Heap H),
      (copyWithin deep fuel v).Keeps (Since lent base) := by
  induction fuel with
  | zero => intro v lent base h since; exact since
  | succ fuel ih =>
    intro v lent base h since
    rw [copyWithin.eq_def]
    simp only
    split
    · exact since
    · exact since
    · exact since
    · simp only [Effect.ensures_bind, Effect.ensures_get]
      refine ensures_borrow (fun _ => since) fun o object => ?_
      simp only [Effect.ensures_set, Effect.ensures_andAlways, Effect.ensures_bind]
      rename_i x _ _ _
      have copies : ∀ w lent base, ((if deep then copyWithin deep fuel
          else fun child => return child.share : Value → HeapM H Value) w).Keeps
            (Since lent base) := by
        intro w lent base
        cases deep with
        | true => exact ih w lent base
        | false => exact Effect.Keeps.pure _ _
      have back : ∀ k, Since (x.index :: lent) (h.vacated x) k →
          Since lent base (k.setObject x o) := by
        intro k inner
        obtain ⟨orderly, evolves⟩ := since.orderly.restore object inner.orderly inner.evolves
        exact since.trans ⟨orderly, evolves⟩
      refine (copyParts_since (fun w => copies w _ _) (parts o) [] (h.vacated x)
        (.refl (since.orderly.lend object))).mono ?_ fun _ k inner => back k inner
      rintro values k ⟨length, inner⟩
      have valid := since.orderly.valid.object? object
      refine (allocLike_grows inner.orderly valid (by simpa using length)).mono ?_ ?_
      · rintro w k' ⟨-, _, _, -, -, -, grown, orderly⟩
        exact back k' (inner.trans ⟨orderly, grown.evolves⟩)
      · rintro _ _ ⟨rfl, -⟩
        exact back _ inner

theorem copyWithin_orderly (deep : Bool) (fuel : Nat) (v : Value) :
    (copyWithin deep fuel v).Keeps (Orderly (H := H) lent) := by
  intro h orderly
  exact (copyWithin_since deep fuel v lent h h (.refl orderly)).mono
    (fun _ _ since => since.orderly) (fun _ _ since => since.orderly)

/-! ## Walks -/

theorem entryAfter_orderly (target : Value) (position : Option Key) :
    (entryAfter target position).Keeps (Orderly (H := H) []) := by
  refine orderly_of_edits fun base => readStructure_edits target _ fun s valid => ?_
  cases position with
  | none => exact ⟨(Structure.firstKey?_spec valid).2.valid, Structure.layout_firstKey? s⟩
  | some key => exact ⟨(Structure.nextKey?_read valid key).valid, Structure.layout_nextKey? s key⟩

theorem changeIterator_orderly (x : Handle) (f : Iterator → α × Iterator) :
    (changeIterator x f).Keeps (Orderly (H := H) []) := by
  unfold changeIterator
  refine .get_bind fun h orderly => ?_
  simp only [Effect.ensures_bind, Effect.ensures_liftM]
  cases found : h.iteratorAt x with
  | error e => exact orderly
  | ok it => exact orderly.setObject (iteratorAt_eq_ok found) trivial

theorem publishNext_orderly (x : Handle) (target : Value) (position : Option Key) :
    (publishNext x target position).Keeps (Orderly (H := H) []) := by
  unfold publishNext
  refine (entryAfter_orderly target position).bind fun next => ?_
  refine (changeIterator_orderly x _).bind fun old => ?_
  exact Effect.Keeps.bind (fun h orderly => (orderly.disposeAll old).1) fun _ => .pure _ _

theorem advanceWalk_orderly (x : Handle) : (advanceWalk x).Keeps (Orderly (H := H) []) := by
  unfold advanceWalk
  refine .get_bind fun h orderly => ?_
  refine Effect.Keeps.bind (.liftM _ _) (fun it => ?_) h orderly
  split
  · exact .pure _ _
  · split
    · exact publishNext_orderly x _ _
    · exact publishNext_orderly x _ _
    · exact .pure _ _
    · exact .throw _ _

theorem advanceIterator_orderly (v : Value) :
    (advanceIterator v).Keeps (Orderly (H := H) []) := by
  unfold advanceIterator
  refine Effect.Keeps.bind (.liftM _ _) fun x => .get_bind fun h orderly => ?_
  refine Effect.Keeps.bind (.liftM _ _) (fun it => ?_) h orderly
  split
  · exact .pure _ _
  · exact (advanceWalk_orderly x).bind fun _ => .pure _ _

/-! ## Runs -/

theorem perform_orderly {op : HeapOp H} (placed : ∀ o, op = .alloc o → o.Valid) :
    op.perform.Keeps (Orderly []) := by
  by_cases edit : op.edits
  · exact orderly_of_edits fun base => perform_edits edit
  intro h orderly
  cases op with
  | alloc o => exact orderly.alloc (placed o rfl)
  | deepCopy v =>
    exact (Effect.ensures_map ..).mpr (copyWithin_orderly true (h.slots.size + 1) v h orderly)
  | shallowCopy v => exact (Effect.ensures_map ..).mpr (copyWithin_orderly false 1 v h orderly)
  | advanceIterator v => exact (Effect.ensures_map ..).mpr (advanceIterator_orderly v h orderly)
  | _ => exact absurd rfl edit

theorem History.orderly_run {ops : List (HeapOp H)} (placed : ∀ o, .alloc o ∈ ops → o.Valid) :
    ∀ {t : History H}, t.heap.Orderly [] → (t.run ops).heap.Orderly [] := by
  induction ops with
  | nil => exact fun orderly => orderly
  | cons op ops ih =>
    intro t orderly
    refine ih (fun o mem => placed o (List.mem_cons_of_mem op mem)) ?_
    have kept := perform_orderly (fun o same => placed o (same ▸ List.mem_cons_self ..)) _ orderly
    unfold History.step
    cases ran : op.perform t.heap with
    | ok answer k => exact (Effect.ensures_of_eq_ok ran).mp kept
    | error e k => exact (Effect.ensures_of_eq_error ran).mp kept

theorem orderly_of_history {ops : List (HeapOp H)} (placed : ∀ o, .alloc o ∈ ops → o.Valid) :
    (History.run {} ops).heap.Orderly [] :=
  History.orderly_run placed owned_empty.orderly

end ScriptMachine.Heap
