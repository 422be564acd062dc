import ScriptMachine.Heap.Children
import ScriptMachine.Heap.Copy
import ScriptMachine.Heap.Iteration
import ScriptMachine.Heap.Render
import ScriptMachine.Proofs.Code.Steps
import ScriptMachine.Proofs.Effect

/-!
# No heap operation looks at the steps of code

`Heap.recompiled` compiles the code of every closure and every parked frame of a heap again, with or
without fusion. Each heap operation on the recompiled heap does what it does on the heap itself.
-/

set_option autoImplicit false

namespace ScriptMachine

/-! ## Recompiled parts of a heap -/

def Frame.recompiled (fusion : Bool) (f : Frame) : Frame :=
  { f with unit := f.unit.map (CodeUnit.recompiled fusion) }

def Callable.recompiled {H : Type} (fusion : Bool) : Callable H → Callable H
  | .script unit captures => .script (unit.recompiled fusion) captures
  | .host path function => .host path function

def IterSource.recompiled (fusion : Bool) : IterSource → IterSource
  | .walk target position => .walk target position
  | .generator frame => .generator (frame.map (Frame.recompiled fusion))

def Iterator.recompiled (fusion : Bool) (it : Iterator) : Iterator :=
  { it with source := it.source.recompiled fusion }

def Object.recompiled {H : Type} (fusion : Bool) : Object H → Object H
  | .struct s => .struct s
  | .callable c => .callable (c.recompiled fusion)
  | .iterator it => .iterator (it.recompiled fusion)
  | .external e => .external e

def Slot.recompiled {H : Type} (fusion : Bool) (slot : Slot H) : Slot H :=
  { slot with object := slot.object.map (Object.recompiled fusion) }

def Heap.recompiled {H : Type} (fusion : Bool) (h : Heap H) : Heap H :=
  { h with slots := h.slots.map (Slot.recompiled fusion) }

variable {H : Type} (fusion : Bool)

namespace Object

@[simp] theorem recompiled_kind (o : Object H) : (o.recompiled fusion).kind = o.kind := by
  cases o <;> rfl

@[simp] theorem recompiled_held (o : Object H) : (o.recompiled fusion).held = o.held := by
  cases o with
  | callable c => cases c <;> rfl
  | iterator it =>
    obtain ⟨state, source, key, current, yields⟩ := it
    cases source with
    | walk => rfl
    | generator frame => cases frame <;> rfl
  | _ => rfl

@[simp] theorem recompiled_recycle (o : Object H) (pools : Pools) :
    (o.recompiled fusion).recycle pools = o.recycle pools := by
  cases o with
  | callable c => cases c <;> rfl
  | iterator it =>
    obtain ⟨state, source, key, current, yields⟩ := it
    cases source with
    | walk => rfl
    | generator frame => cases frame <;> rfl
  | _ => rfl

end Object

namespace Heap

variable (h : Heap H)

@[simp] theorem recompiled_slots : (h.recompiled fusion).slots = h.slots.map (Slot.recompiled fusion) :=
  rfl

theorem modify_recompiled (slots : Array (Slot H)) (i : Nat) {f f' : Slot H → Slot H}
    (commutes : ∀ slot, f' (slot.recompiled fusion) = (f slot).recompiled fusion) :
    (slots.map (Slot.recompiled fusion)).modify i f' =
      (slots.modify i f).map (Slot.recompiled fusion) := by
  apply Array.ext_getElem?
  intro j
  rw [Array.getElem?_modify, Array.getElem?_map, Array.getElem?_map, Array.getElem?_modify]
  split
  · cases slots[j]? <;> simp [commutes]
  · rfl

/-- Two heaps with the same slots after a change of one slot are the same if the rest is. -/
theorem recompiled_replace (slots : Array (Slot H)) (i : Nat) (f : Slot H → Slot H)
    {f' : Slot H → Slot H}
    (commutes : ∀ slot, f' (slot.recompiled fusion) = (f slot).recompiled fusion)
    (free : List Nat) (retired live : Nat) (pools : Pools) :
    (⟨(slots.map (Slot.recompiled fusion)).modify i f', free, retired, live, pools⟩ : Heap H) =
      (⟨slots.modify i f, free, retired, live, pools⟩ : Heap H).recompiled fusion := by
  rw [modify_recompiled fusion slots i commutes]
  rfl

/-! ## Allocation and look-up -/

theorem recompiled_alloc (o : Object H) :
    (h.recompiled fusion).alloc (o.recompiled fusion) =
      ((h.alloc o).1, (h.alloc o).2.recompiled fusion) := by
  unfold alloc
  simp only [recompiled, Object.recompiled_kind]
  cases h.free with
  | nil => simp [Slot.recompiled]
  | cons index free =>
    have generations : ((h.slots.map (Slot.recompiled fusion))[index]?.map Slot.generation) =
        h.slots[index]?.map Slot.generation := by
      rw [Array.getElem?_map]
      cases h.slots[index]? <;> rfl
    simp only [generations]
    congr 1
    exact recompiled_replace fusion h.slots index (fun slot => { slot with object := some o })
      (by intro slot; rfl) _ _ _ _

@[simp] theorem recompiled_object? (x : Handle) :
    (h.recompiled fusion).object? x = (h.object? x).map (Object.recompiled fusion) := by
  unfold object?
  rw [recompiled_slots, Array.getElem?_map]
  cases h.slots[x.index]? with
  | none => rfl
  | some slot =>
    simp only [Option.map_some, Slot.recompiled]
    split <;> rfl

@[simp] theorem recompiled_stale (x : Handle) : (h.recompiled fusion).stale x = h.stale x := by
  unfold stale
  rw [recompiled_slots, Array.getElem?_map]
  cases h.slots[x.index]? <;> rfl

theorem recompiled_object (x : Handle) :
    (h.recompiled fusion).object x = (h.object x).map (Object.recompiled fusion) := by
  unfold object
  rw [recompiled_object?, recompiled_stale]
  cases h.object? x <;> rfl

@[simp] theorem recompiled_structureOf (v : Value) :
    (h.recompiled fusion).structureOf v = h.structureOf v := by
  unfold structureOf
  cases handleOf v .struct with
  | error e => rfl
  | ok x =>
    simp only [bind, Except.bind, recompiled_object]
    cases h.object x with
    | error e => rfl
    | ok o => cases o <;> rfl

theorem recompiled_structureFor (v : Value) (uses : Structure → List Use) :
    (h.recompiled fusion).structureFor v uses = h.structureFor v uses := by
  rw [structureFor, structureFor, recompiled_structureOf]

theorem recompiled_callableOf (v : Value) :
    (h.recompiled fusion).callableOf v = (h.callableOf v).map (Callable.recompiled fusion) := by
  unfold callableOf
  cases handleOf v .callable with
  | error e => rfl
  | ok x =>
    simp only [bind, Except.bind, recompiled_object]
    cases h.object x with
    | error e => rfl
    | ok o => cases o <;> rfl

theorem recompiled_iteratorAt (x : Handle) :
    (h.recompiled fusion).iteratorAt x = (h.iteratorAt x).map (Iterator.recompiled fusion) := by
  unfold iteratorAt
  simp only [bind, Except.bind, recompiled_object]
  cases h.object x with
  | error e => rfl
  | ok o => cases o <;> rfl

theorem recompiled_setObject (x : Handle) (o : Object H) :
    (h.recompiled fusion).setObject x (o.recompiled fusion) =
      (h.setObject x o).recompiled fusion :=
  recompiled_replace fusion h.slots x.index _ (by intro slot; rfl) _ _ _ _

/-! ## Disposal -/

theorem recompiled_freeSlot (x : Handle) :
    (h.recompiled fusion).freeSlot x =
      (h.freeSlot x).map fun (o, k) => (o.recompiled fusion, k.recompiled fusion) := by
  unfold freeSlot
  rw [recompiled_slots, Array.getElem?_map]
  cases h.slots[x.index]? with
  | none => rfl
  | some slot =>
    simp only [Option.map_some, Slot.recompiled]
    split
    · cases slot.object with
      | none => rfl
      | some o =>
        simp only [Option.map_some]
        congr 2
        exact recompiled_replace fusion h.slots x.index _ (by intro slot; rfl) _ _ _ _
    · rfl

theorem recompiled_freeNext (work : List Value) :
    (h.recompiled fusion).freeNext work =
      (h.freeNext work).map fun (o, rest, k) =>
        (o.recompiled fusion, rest, k.recompiled fusion) := by
  induction work with
  | nil => rfl
  | cons v rest ih =>
    unfold freeNext
    cases v.owned? with
    | none => exact ih
    | some ref =>
      simp only [recompiled_freeSlot]
      cases h.freeSlot ref.handle with
      | none => exact ih
      | some freed => rfl

theorem recompiled_sweep (rounds : Nat) :
    ∀ (h : Heap H) (work : List Value),
      (h.recompiled fusion).sweep work rounds = (h.sweep work rounds).recompiled fusion := by
  induction rounds with
  | zero => intro h work; rfl
  | succ rounds ih =>
    intro h work
    rw [sweep, sweep, recompiled_freeNext]
    cases h.freeNext work with
    | none => rfl
    | some freed =>
      obtain ⟨o, rest, k⟩ := freed
      simp only [Option.map_some, Object.recompiled_held, Object.recompiled_recycle]
      exact ih { k with pools := o.recycle k.pools } _

theorem recompiled_dispose (v : Value) :
    (h.recompiled fusion).dispose v = (h.dispose v).recompiled fusion := by
  unfold dispose
  split
  · rw [recompiled_slots, Array.size_map]
    exact recompiled_sweep fusion _ h [v]
  · rfl

theorem recompiled_disposeAll (vs : List Value) :
    (h.recompiled fusion).disposeAll vs = (h.disposeAll vs).recompiled fusion := by
  induction vs generalizing h with
  | nil => rfl
  | cons v vs ih =>
    rw [disposeAll, List.foldl_cons, recompiled_dispose]
    exact ih (h.dispose v)

theorem recompiled_retire (frame : Frame) (mask : UInt64) :
    (h.recompiled fusion).retire (frame.recompiled fusion) mask =
      ((h.retire frame mask).1, (h.retire frame mask).2.recompiled fusion) := by
  unfold retire disposeFrame
  have held : { frame.recompiled fusion with locals := [] }.held =
      { frame with locals := [] }.held := rfl
  have locals : (frame.recompiled fusion).locals = frame.locals := rfl
  simp only [held, locals, recompiled_disposeAll]
  rfl

/-! ## Operations that may fail -/

/-- `op'` does on a recompiled heap what `op` does on the heap. -/
def Alike {α : Type} (op op' : HeapM H α) : Prop :=
  ∀ h, op.Mirrors (Heap.recompiled fusion) (fun _ => True) op' h

section Operations
variable {fusion}

theorem discard_alike (v : Value) : Alike fusion (discard (H := H) v) (discard v) :=
  fun h => .of_modify (recompiled_dispose fusion h v) trivial

theorem discardAll_alike (vs : List Value) :
    Alike fusion (discardAll (H := H) vs) (discardAll vs) :=
  fun h => .of_modify (recompiled_disposeAll fusion h vs) trivial

theorem release_alike (v : Value) : Alike fusion (release (H := H) v) (release v) := by
  intro h
  unfold release
  cases v.ref? with
  | none => exact .of_pure trivial _
  | some ref =>
    by_cases owner : v.owns
    · simp only [owner, if_true]
      apply Effect.Mirrors.get_bind
      simp only [recompiled_object?, Option.isNone_map, recompiled_stale]
      split
      · exact .of_throw trivial _
      · exact discard_alike v h
    · simp only [owner, Bool.false_eq_true, if_false]
      exact .of_throw trivial _

theorem changeStructure_alike {α : Type} (v : Value) (uses : Structure → List Use)
    (f : Structure → StructurePools → α × Structure × StructurePools) :
    Alike fusion (changeStructure (H := H) v uses f) (changeStructure v uses f) := by
  intro h
  apply Effect.Mirrors.get_bind
  apply Effect.Mirrors.bind (.of_liftM (recompiled_structureFor fusion h v uses) trivial)
  intro s k _
  apply Effect.Mirrors.bind (.of_liftM rfl trivial)
  intro x k _
  refine .bind (.of_set ?_ trivial) fun _ _ _ => .of_pure trivial _
  exact congrArg
    (fun k : Heap H => { k with pools := { h.pools with structures := (f s h.pools.structures).2.2 } })
    (recompiled_setObject fusion h x (.struct (f s h.pools.structures).2.1))

theorem readStructure_alike {α : Type} (v : Value) (uses : Structure → List Use)
    (f : Structure → α × Structure) :
    Alike fusion (readStructure (H := H) v uses f) (readStructure v uses f) :=
  changeStructure_alike v uses _

theorem changeIterator_alike {α : Type} (x : Handle) {f : Iterator → α × Iterator}
    (blind : ∀ it, f (it.recompiled fusion) = ((f it).1, (f it).2.recompiled fusion)) :
    Alike fusion (changeIterator (H := H) x f) (changeIterator x f) := by
  intro h
  apply Effect.Mirrors.get_bind
  refine .liftM_bind (Iterator.recompiled fusion) (recompiled_iteratorAt fusion h x) trivial ?_
  intro it _
  simp only [blind]
  refine .bind (.of_set ?_ trivial) fun _ _ _ => .of_pure trivial _
  exact recompiled_setObject fusion h x (.iterator (f it).2)

/-- Placing an object is placing it recompiled. -/
theorem place_alike (h k : Heap H) (o : Object H) :
    Effect.Mirrors (Heap.recompiled fusion) (fun _ => True)
      (set (k.alloc o).2 >>= fun _ => pure (k.alloc o).1 : HeapM H Value)
      (set ((k.recompiled fusion).alloc (o.recompiled fusion)).2 >>= fun _ =>
        pure ((k.recompiled fusion).alloc (o.recompiled fusion)).1) h := by
  rw [recompiled_alloc]
  exact .bind (.of_set rfl trivial) fun _ _ _ => .of_pure trivial _

/-! ### Entries of structures -/

theorem setChildKey_alike (target : Value) (key : Key) (value : Value) :
    Alike fusion (setChildKey (H := H) target key value) (setChildKey target key value) := by
  intro h
  unfold setChildKey
  split
  · exact .bind (discard_alike value h) fun _ _ _ => .of_throw trivial _
  · apply Effect.Mirrors.get_bind
    rw [recompiled_structureFor]
    split
    · exact .bind (discard_alike value h) fun _ _ _ => .of_throw trivial _
    · exact .bind (changeStructure_alike target _ _ h) fun _ k _ => discardAll_alike _ k

theorem setChild_alike (target key value : Value) :
    Alike fusion (setChild (H := H) target key value) (setChild target key value) := by
  intro h
  unfold setChild
  split
  · exact .bind (discard_alike value h) fun _ _ _ => .of_throw trivial _
  · exact setChildKey_alike target _ value h

theorem append_alike (target value : Value) (front : Bool) :
    Alike fusion (append (H := H) target value front) (append target value front) := by
  intro h
  apply Effect.Mirrors.get_bind
  rw [recompiled_structureFor]
  split
  · exact .bind (discard_alike value h) fun _ _ _ => .of_throw trivial _
  · exact .bind (readStructure_alike target _ _ h) fun _ k _ => setChildKey_alike target _ value k

theorem recompiled_getChild (target key : Value) :
    (h.recompiled fusion).getChild target key = h.getChild target key := by
  unfold getChild
  rw [recompiled_structureFor]

theorem recompiled_hasChild (target key : Value) :
    (h.recompiled fusion).hasChild target key = h.hasChild target key := by
  unfold hasChild
  rw [recompiled_structureFor]

theorem recompiled_length (v : Value) : (h.recompiled fusion).length v = h.length v := by
  unfold length
  rw [recompiled_structureOf]

/-! ### Iterators -/

theorem openIterator_alike (v : Value) :
    Alike fusion (openIterator (H := H) v) (openIterator v) := by
  intro h
  unfold openIterator
  split
  · exact .of_pure trivial _
  · apply Effect.Mirrors.get_bind
    rw [recompiled_structureOf]
    split
    · exact .bind (discard_alike v h) fun _ _ _ => .of_throw trivial _
    · apply Effect.Mirrors.get_bind
      exact place_alike h h (.iterator (.overStructure v))
  · exact .bind (discard_alike v h) fun _ _ _ => .of_throw trivial _

theorem recompiled_finish (it : Iterator) :
    (it.recompiled fusion).finish = (it.finish.1, it.finish.2.recompiled fusion) := by
  obtain ⟨state, source, key, current, yields⟩ := it
  cases source <;> rfl

theorem publishNext_alike (x : Handle) (target : Value) (position : Option Key) :
    Alike fusion (publishNext (H := H) x target position) (publishNext x target position) := by
  intro h
  apply Effect.Mirrors.bind (readStructure_alike target (stepUses position) _ h)
  intro next k _
  refine .bind (changeIterator_alike x ?_ k) fun _ k _ =>
    .bind (discardAll_alike _ k) fun _ _ _ => .of_pure trivial _
  intro it
  cases next with
  | none => exact recompiled_finish it
  | some entry => rfl

theorem advanceWalk_alike (x : Handle) :
    Alike fusion (advanceWalk (H := H) x) (advanceWalk x) := by
  intro h
  apply Effect.Mirrors.get_bind
  refine .liftM_bind (Iterator.recompiled fusion) (recompiled_iteratorAt fusion h x) trivial ?_
  intro it _
  obtain ⟨state, source, key, current, yields⟩ := it
  by_cases ended : state = .exhausted
  · simp only [Iterator.recompiled, ended, if_true]
    exact .of_pure trivial _
  · simp only [Iterator.recompiled, ended, if_false]
    cases source with
    | walk target position =>
      cases position with
      | start => exact publishNext_alike x target none h
      | after key => exact publishNext_alike x target (some key) h
      | done => exact .of_pure trivial _
    | generator frame => exact .of_throw trivial _

theorem recompiled_isGenerator (it : Iterator) :
    (it.recompiled fusion).isGenerator = it.isGenerator := by
  obtain ⟨state, source, key, current, yields⟩ := it
  cases source <;> rfl

theorem advanceIterator_alike (v : Value) :
    Alike fusion (advanceIterator (H := H) v) (advanceIterator v) := by
  intro h
  apply Effect.Mirrors.bind (.of_liftM rfl trivial)
  intro x h _
  apply Effect.Mirrors.get_bind
  refine .liftM_bind (Iterator.recompiled fusion) (recompiled_iteratorAt fusion h x) trivial ?_
  intro it _
  rw [recompiled_isGenerator]
  split
  · exact .of_pure trivial _
  · exact .bind (advanceWalk_alike x h) fun _ _ _ => .of_pure trivial _

theorem recompiled_currentEntry (v : Value) (key : Bool) :
    (h.recompiled fusion).currentEntry v key = h.currentEntry v key := by
  unfold currentEntry
  cases iteratorHandle v with
  | error e => rfl
  | ok x =>
    simp only [bind, Except.bind, recompiled_iteratorAt]
    cases h.iteratorAt x <;> rfl

theorem recompiled_exhaust (x : Handle) :
    (h.recompiled fusion).exhaust x = (h.exhaust x).recompiled fusion := by
  unfold exhaust
  rw [recompiled_iteratorAt]
  cases h.iteratorAt x with
  | error e => rfl
  | ok it =>
    simp only [Except.map, recompiled_finish]
    rw [← recompiled_disposeAll, ← recompiled_setObject]
    rfl

/-! ### Copies -/

theorem recompiled_borrow (x : Handle) :
    (h.recompiled fusion).borrow x =
      (h.borrow x).map fun (o, k) => (o.recompiled fusion, k.recompiled fusion) := by
  unfold borrow
  rw [recompiled_object?, recompiled_stale]
  cases h.object? x with
  | none => rfl
  | some o =>
    simp only [Option.map_some, Except.map]
    congr 2
    exact recompiled_replace fusion h.slots x.index _ (by intro slot; rfl) _ _ _ _

theorem recompiled_parts (o : Object H) : parts (o.recompiled fusion) = parts o := by
  cases o with
  | callable c => cases c <;> rfl
  | _ => rfl

theorem allocLike_alike (source : Object H) (values : List Value) :
    Alike fusion (allocLike source values) (allocLike (source.recompiled fusion) values) := by
  intro h
  apply Effect.Mirrors.get_bind
  cases source with
  | struct s =>
    let pools := { h.pools with structures := (s.rebuild h.pools.structures values).2 }
    exact place_alike h { h with pools } (.struct (s.rebuild h.pools.structures values).1)
  | callable c =>
    cases c with
    | script unit captures =>
      let pools := { h.pools with values := (h.pools.values.checkout values.length).2 }
      exact place_alike h { h with pools } (.callable (.script unit
        ((h.pools.values.checkout values.length).1.append values)))
    | host path function => exact place_alike h h (.callable (.host path function))
  | iterator it => exact .of_throw trivial _
  | external e => exact .of_throw trivial _

theorem copyParts_alike {copyOwned copyOwned' : Value → HeapM H Value}
    (copies : ∀ v, Alike fusion (copyOwned v) (copyOwned' v)) (values : List Value) :
    ∀ copied, Alike fusion (copyParts copyOwned values copied)
      (copyParts copyOwned' values copied) := by
  induction values with
  | nil => exact fun copied h => .of_pure trivial _
  | cons v values ih =>
    intro copied h
    rw [copyParts, copyParts]
    split
    · refine .bind (.onFailure (copies v h) ?_) fun copy k _ => ih (copy :: copied) k
      exact fun k _ => ⟨recompiled_disposeAll fusion k _, trivial⟩
    · exact ih _ h

theorem copyWithin_alike (deep : Bool) (fuel : Nat) :
    ∀ v, Alike fusion (copyWithin (H := H) deep fuel v) (copyWithin deep fuel v) := by
  induction fuel with
  | zero =>
    intro v h
    apply Effect.Mirrors.get_bind
    rw [recompiled_stale]
    exact .of_throw trivial _
  | succ fuel ih =>
    intro v h
    rw [copyWithin.eq_def]
    simp only
    split
    · exact .of_pure trivial _
    · exact .of_throw trivial _
    · exact .of_throw trivial _
    · rename_i x _ _ _
      apply Effect.Mirrors.get_bind
      refine .liftM_bind (fun (o, k) => (o.recompiled fusion, k.recompiled fusion))
        (recompiled_borrow h x) trivial ?_
      rintro ⟨o, k⟩ _
      refine .bind (.of_set rfl trivial) fun _ k _ => ?_
      refine .andAlways (.bind ?_ fun values k _ => allocLike_alike o values k) ?_
      · rw [recompiled_parts]
        refine copyParts_alike (fun child => ?_) (parts o) [] k
        cases deep with
        | true => exact ih child
        | false => exact fun h => .of_pure trivial _
      · exact fun k _ => ⟨recompiled_setObject fusion k x o, trivial⟩

theorem deepCopy_alike (v : Value) : Alike fusion (deepCopy (H := H) v) (deepCopy v) := by
  intro h
  apply Effect.Mirrors.get_bind
  rw [recompiled_slots, Array.size_map]
  exact copyWithin_alike true _ v h

theorem shallowCopy_alike (v : Value) : Alike fusion (shallowCopy (H := H) v) (shallowCopy v) :=
  copyWithin_alike false 1 v

end Operations

/-! ## Texts -/

theorem recompiled_isLive (v : Value) : (h.recompiled fusion).isLive v = h.isLive v := by
  unfold isLive
  cases v.ref? with
  | none => rfl
  | some ref => simp only [recompiled_object?, Option.isSome_map]

theorem recompiled_renderLeaf (nested : Bool) (v : Value) :
    (h.recompiled fusion).renderLeaf nested v = h.renderLeaf nested v := by
  unfold renderLeaf
  rw [recompiled_isLive]

theorem recompiled_renderAt (levels : Nat) :
    ∀ nested v, (h.recompiled fusion).renderAt levels nested v = h.renderAt levels nested v := by
  induction levels with
  | zero =>
    intro nested v
    unfold renderAt
    rw [recompiled_structureOf, recompiled_renderLeaf]
    cases h.structureOf v <;> rfl
  | succ levels ih =>
    intro nested v
    unfold renderAt
    rw [recompiled_structureOf, recompiled_renderLeaf]
    cases h.structureOf v with
    | error e => rfl
    | ok s => simp only [ih]

theorem recompiled_render (v : Value) : (h.recompiled fusion).render v = h.render v :=
  recompiled_renderAt fusion h renderDepth false v

end Heap

end ScriptMachine
