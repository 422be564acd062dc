import ScriptMachine.Proofs.Heap.Ownership
import ScriptMachine.Proofs.Structure.Owners
import ScriptMachine.Proofs.Value.Light

/-!
# Heap operations conserve owners

Every operation of the heap gives back as many owners as it takes, whether it fails or not: a value
that is written is stored or disposed, one that is taken out of an object is handed out, and a copy
owns only what was made for it. Errors of the heap carry no values.
-/

set_option autoImplicit false

namespace ScriptMachine

/-! ## Errors of the heap -/

namespace Heap

variable {H α : Type} {h : Heap H}

theorem light_handleOf (v : Value) (kind : HeapKind) : Light (handleOf v kind) := by
  intro e found
  unfold handleOf at found
  split at found
  · split at found <;> cases found
    rfl
  · cases found
    rfl

theorem light_object (x : Handle) : Light (h.object x) := by
  intro e found
  unfold object at found
  split at found <;> cases found
  rfl

theorem light_structureOf (v : Value) : Light (h.structureOf v) := by
  refine light_bind (light_handleOf v .struct) fun x => light_bind (light_object x) fun o => ?_
  cases o <;> first | exact light_ok _ | exact light_throw rfl

theorem light_structureFor (v : Value) (uses : Structure → List Use) :
    Light (h.structureFor v uses) := by
  refine light_bind (light_structureOf v) fun s => ?_
  split
  · exact light_bind (light_throw rfl) fun _ => light_ok _
  · exact light_ok _

theorem light_callableOf (v : Value) : Light (h.callableOf v) := by
  refine light_bind (light_handleOf v .callable) fun x => light_bind (light_object x) fun o => ?_
  cases o <;> first | exact light_ok _ | exact light_throw rfl

theorem light_iteratorAt (x : Handle) : Light (h.iteratorAt x) := by
  refine light_bind (light_object x) fun o => ?_
  cases o <;> first | exact light_ok _ | exact light_throw rfl

theorem light_getChild (target key : Value) : Light (h.getChild target key) := by
  refine light_bind (light_structureFor target _) fun s => ?_
  cases Key.ofValue key <;> exact light_ok _

theorem light_hasChild (target key : Value) : Light (h.hasChild target key) := by
  refine light_bind (light_structureFor target _) fun s => ?_
  cases Key.ofValue key <;> exact light_ok _

theorem light_length (v : Value) : Light (h.length v) := by
  unfold length
  cases v.content <;> first | exact light_ok _ |
    exact light_bind (light_structureOf v) fun _ => light_ok _

theorem light_currentEntry (v : Value) (key : Bool) : Light (h.currentEntry v key) :=
  light_bind (light_handleOf v .iterator) fun x => light_bind (light_iteratorAt x) fun _ => light_ok _

theorem bare_getChild {target key v : Value} (found : h.getChild target key = .ok v) : Bare [v] := by
  intro x
  obtain ⟨s, -, found⟩ := ok_of_bind found
  cases key' : Key.ofValue key with
  | error e =>
    rw [key'] at found
    cases found
    simp
  | ok k =>
    rw [key'] at found
    cases found
    cases s.get? k <;> simp

theorem bare_currentEntry {target v : Value} {key : Bool}
    (found : h.currentEntry target key = .ok v) : Bare [v] := by
  intro x
  obtain ⟨y, -, found⟩ := ok_of_bind found
  obtain ⟨it, -, found⟩ := ok_of_bind found
  cases found
  cases key
  · cases it.current.head? <;> simp
  · simp

/-! ## Structures -/

theorem discardAll_steady (vs : List Value) :
    Effect.Steady (ledger H) vs (discardAll vs) fun _ => [] :=
  fun _ _ owned => Owned.disposeAll owned

theorem discard_steady (v : Value) : Effect.Steady (ledger H) [v] (discard v) fun _ => [] :=
  fun _ _ owned => Owned.dispose owned

variable {takes : List Value} {gives : α → List Value}

theorem ensures_changeStructure_owned (gives : α → List Value) {out : List Value} {v : Value}
    {uses : Structure → List Use} {s : Structure}
    {f : Structure → StructurePools → α × Structure × StructurePools}
    (owned : h.Owned [] out) (found : h.structureFor v uses = .ok s)
    (step : ∀ pools : StructurePools, s.storage.Valid → pools.Clean →
      (f s pools).2.1.storage.Valid ∧ (f s pools).2.2.Clean ∧
        SameOwners (s.values ++ out) ((f s pools).2.1.values ++ gives (f s pools).1)) :
    (changeStructure v uses f).Ensures h (fun a k => k.Owned [] (gives a)) fun _ _ => False := by
  refine ensures_changeStructure (fun e missing => ?_) fun x t _ found' object => ?_
  · rw [found] at missing
    cases missing
  · rw [found] at found'
    cases found'
    obtain ⟨valid, clean, same⟩ := step h.pools.structures (owned.valid.object? object)
      owned.clean.structures
    have changed := owned.setObject object
      (show (Object.struct (f s h.pools.structures).2.1 : Object H).Valid from valid) same
    exact changed.withPools _ ⟨clean, owned.clean.values⟩

theorem readStructure_conserves (v : Value) (uses : Structure → List Use)
    {f : Structure → α × Structure}
    (step : ∀ s : Structure, s.storage.Valid → (f s).2.storage.Valid ∧
      SameOwners s.values ((f s).2.values ++ gives (f s).1)) :
    Effect.Conserves (ledger H) [] (readStructure v uses f) gives := by
  intro h rest owned
  cases found : h.structureFor v uses with
  | error e =>
    refine ensures_changeStructure (fun e' missing => ?_) fun x s _ found' _ => ?_
    · exact .inr (by simpa [light_structureFor v uses e' missing] using owned)
    · rw [found] at found'
      cases found'
  | ok s =>
    refine (ensures_changeStructure_owned (fun a => gives a ++ rest) owned found
      fun pools valid clean => ?_).mono (fun _ _ owned => owned) fun _ _ never => never.elim
    obtain ⟨valid', same⟩ := step s valid
    exact ⟨valid', clean, fun x => by
      have := same x
      simp only [List.nil_append, tally_append] at this ⊢
      omega⟩

theorem refuse_conserves (vs : List Value) {e : Error} (light : e.carried = []) :
    Effect.Conserves (ledger H) vs (discardAll vs >>= fun _ => throw e : HeapM H α) gives :=
  (discardAll_steady vs).bind fun _ => .throw fun x => by rw [light]

theorem setChildKey_conserves (target : Value) (key : Key) (value : Value) :
    Effect.Conserves (ledger H) [value] (setChildKey target key value) fun _ => [] := by
  intro h rest owned
  have refused : ∀ e : Error, e.carried = [] → Effect.ConservesAt (ledger H) [value]
      (discard value >>= fun _ => throw e : HeapM H Unit) (fun _ => []) h :=
    fun e light => refuse_conserves [value] light h
  unfold setChildKey
  rw [Effect.ensures_ite]
  split
  · exact refused _ rfl rest owned
  · rw [Effect.ensures_bind, Effect.ensures_get]
    cases found : h.structureFor target fun _ => [.write key] with
    | error e => exact refused e (light_structureFor target _ e found) rest owned
    | ok s =>
      simp only [Effect.ensures_bind]
      refine (ensures_changeStructure_owned (fun old => old.toList ++ rest) owned found
        fun pools valid clean => ?_).mono (fun old k owned => ?_) fun _ _ never => never.elim
      · obtain ⟨old, -, stored, clean'⟩ := Structure.set_spec valid clean key value
        refine ⟨stored.valid, clean', fun x => ?_⟩
        have counted := Structure.tally_set valid clean key value x
        simp only [tally_append, tally_cons, tally_nil] at counted ⊢
        omega
      · exact (discardAll_steady old.toList).conserves k rest owned

theorem setChild_conserves (target key value : Value) :
    Effect.Conserves (ledger H) [value] (setChild target key value) fun _ => [] := by
  unfold setChild
  cases found : Key.ofValue key with
  | error e => exact refuse_conserves [value] (Key.light_ofValue key e found)
  | ok k => exact setChildKey_conserves target k value

theorem deleteChild_conserves (target key : Value) :
    Effect.Conserves (ledger H) [] (deleteChild target key) fun v => [v] := by
  refine readStructure_conserves target _ fun s valid => ?_
  cases Key.ofValue key with
  | error e => exact ⟨valid, fun x => by simp⟩
  | ok k =>
    obtain ⟨valid', -, -, -⟩ := Structure.delete_spec valid k
    refine ⟨valid', fun x => ?_⟩
    have counted := Structure.tally_delete valid k x
    cases removed : (s.delete k).1 <;> simp [removed] at counted ⊢ <;> omega

theorem popEnd_conserves (target : Value) (front : Bool) :
    Effect.Conserves (ledger H) [] (popEnd target front) fun v => [v] := by
  have pops : ∀ {End : Option Key → Prop} {s : Structure} {after : Option Value × Structure},
      s.storage.Valid → Structure.Popped End s after →
        after.2.storage.Valid ∧ SameOwners s.values (after.2.values ++ [after.1.getD .null]) := by
    intro End s after valid popped
    refine ⟨popped.valid, fun x => ?_⟩
    have counted := popped.tally valid x
    cases removed : after.1 <;> simp [removed] at counted ⊢ <;> omega
  refine readStructure_conserves target _ fun s valid => ?_
  cases front with
  | true => exact pops valid (Structure.popFront_spec valid)
  | false => exact pops valid (Structure.popBack_spec valid)

theorem endKey_conserves (target : Value) (first : Bool) :
    Effect.Conserves (ledger H) [] (endKey target first) fun v => [v] := by
  have reads : ∀ {s : Structure} {after : Option Key × Structure}, Structure.Read s after.2 →
      after.2.storage.Valid ∧
        SameOwners s.values (after.2.values ++ [(after.1.map Key.toValue).getD .null]) := by
    intro s after read
    refine ⟨read.valid, fun x => ?_⟩
    cases after.1 <;> simp [read.values]
  refine readStructure_conserves target _ fun s valid => ?_
  cases first with
  | true => exact reads (Structure.firstKey?_spec valid).2
  | false => exact reads (Structure.lastKey?_spec valid).2

theorem append_conserves (target value : Value) (front : Bool) :
    Effect.Conserves (ledger H) [value] (append target value front) fun _ => [] := by
  intro h rest owned
  unfold append
  rw [Effect.ensures_bind, Effect.ensures_get]
  cases found : h.structureFor target fun _ => endUses front with
  | error e => exact refuse_conserves [value] (light_structureFor target _ e found) h rest owned
  | ok s =>
    simp only [Effect.ensures_bind]
    refine (ensures_changeStructure_owned (fun _ => value :: rest) owned found
      fun pools valid clean => ?_).mono (fun key k owned => ?_) fun _ _ never => never.elim
    · have read : Structure.Read s (if front then s.prependKey else s.appendKey).2 := by
        cases front with
        | true => exact (Structure.prependKey_spec valid).choose_spec.2.2
        | false => exact (Structure.appendKey_spec valid).choose_spec.2.2
      exact ⟨read.valid, clean, fun x => by
        simp only [tally_append, tally_cons, read.values, List.cons_append, List.nil_append]⟩
    · exact setChildKey_conserves target key value k rest owned

theorem release_conserves (v : Value) :
    Effect.Conserves (ledger H) [v] (release v) fun _ => [] := by
  intro h rest owned
  unfold release
  cases refers : v.ref? with
  | none =>
    have plain : v.owned? = none := by
      cases owner : v.owned? with
      | none => rfl
      | some ref =>
        unfold Value.owned? at owner
        unfold Value.ref? at refers
        cases content : v.content <;> simp_all
    exact owned.recount fun x => by simp [Value.owners_eq_zero plain]
  | some ref =>
    by_cases owns : v.owns = true
    · simp only [owns, if_true, Effect.ensures_bind, Effect.ensures_get]
      have one := Value.owners_eq_one (Value.owned?_of_owns owns refers)
      obtain ⟨o, found⟩ := Option.isSome_iff_exists.mp (Owned.live (x := ref.handle) owned (by
        rw [tally_append, tally_cons]
        omega))
      rw [if_neg (by simp [found])]
      exact (discard_steady v).conserves h rest owned
    · simp only [owns, Bool.false_eq_true, if_false, Effect.ensures_throw]
      have plain := Value.owned?_eq_none (by simpa using owns)
      exact .inr (owned.recount fun x => by simp [Value.owners_eq_zero plain, Error.carried,
        Error.thrown?, Error.ofFault])

theorem owned_allocStructure (capacity : Nat) (h : Heap H) (out : List Value)
    (owned : h.Owned [] out) :
    (h.allocStructure capacity).2.Owned [] ((h.allocStructure capacity).1 :: out) := by
  obtain ⟨valid, -, empty, clean⟩ := Structure.new_spec owned.clean.structures capacity
  have none : (Object.struct (Structure.new h.pools.structures capacity).1 : Object H).held = [] :=
    (Structure.values_eq _).trans (congrArg (List.map _) empty)
  have pooled := owned.withPools { h.pools with
    structures := (Structure.new h.pools.structures capacity).2 } ⟨clean, owned.clean.values⟩
  exact Owned.alloc (o := .struct (Structure.new h.pools.structures capacity).1)
    (none.symm ▸ pooled) valid

theorem owned_allocQueue (limit : Nat) (h : Heap H) (out : List Value) (owned : h.Owned [] out) :
    (h.allocQueue limit).2.Owned [] ((h.allocQueue limit).1 :: out) := by
  obtain ⟨valid, -, empty, clean⟩ := Structure.queue_spec owned.clean.structures limit
  have none : (Object.struct (Structure.queue h.pools.structures limit).1 : Object H).held = [] :=
    (Structure.values_eq _).trans (congrArg (List.map _) empty)
  have pooled := owned.withPools { h.pools with
    structures := (Structure.queue h.pools.structures limit).2 } ⟨clean, owned.clean.values⟩
  exact Owned.alloc (o := .struct (Structure.queue h.pools.structures limit).1)
    (none.symm ▸ pooled) valid

/-! ## Iterators -/

theorem openIterator_conserves (v : Value) :
    Effect.Conserves (ledger H) [v] (openIterator v) fun it => [it] := by
  intro h rest owned
  unfold openIterator
  split
  · exact owned
  · rw [Effect.ensures_bind, Effect.ensures_get]
    cases found : h.structureOf v with
    | error e => exact refuse_conserves [v] (light_structureOf v e found) h rest owned
    | ok s =>
      refine Owned.alloc (o := .iterator (.overStructure v)) (owned.recount fun x => ?_) trivial
      simp [Object.held, Iterator.overStructure]
  · exact refuse_conserves [v] rfl h rest owned

/-- What the source of an iterator holds. -/
def sourceHeld (it : Iterator) : List Value :=
  match it.source with
  | .walk target _ => [target]
  | .generator (some frame) => frame.held
  | .generator none => []

theorem held_iterator (it : Iterator) :
    (Object.iterator it : Object H).held = it.key :: it.current ++ sourceHeld it := rfl

theorem tally_finish (it : Iterator) (x : Handle) :
    tally x (Object.iterator it.finish.2 : Object H).held + tally x it.finish.1 =
      tally x (Object.iterator it : Object H).held := by
  have source : tally x (sourceHeld it.finish.2) = tally x (sourceHeld it) := by
    obtain ⟨state, source, key, current, yields⟩ := it
    cases source <;> rfl
  rw [held_iterator, held_iterator]
  simp only [List.cons_append, tally_cons, tally_append, source]
  simp only [Iterator.finish, Value.owners_null, tally_nil, tally_append, tally_cons]
  omega

theorem readStructure_iterator {x : Handle} {it : Iterator}
    (object : h.object? x = some (.iterator it)) (v : Value) (uses : Structure → List Use)
    (f : Structure → α × Structure) :
    (readStructure v uses f).Ensures h (fun _ k => k.object? x = some (.iterator it))
      fun _ k => k.object? x = some (.iterator it) := by
  refine ensures_changeStructure (fun _ _ => object) fun y s _ _ found => ?_
  have ne : x ≠ y := by
    rintro rfl
    rw [object] at found
    cases found
  exact (object?_setObject found x).trans ((if_neg ne).trans object)

theorem entryAfter_conserves (target : Value) (position : Option Key) :
    Effect.Conserves (ledger H) [] (entryAfter target position)
      fun next => (next.map Prod.snd).toList := by
  refine readStructure_conserves target _ fun s valid => ?_
  have shares : ∀ after : Option Key × Structure, Structure.Read s after.2 →
      after.2.storage.Valid ∧ SameOwners s.values (after.2.values ++
        ((after.1.map fun key => (key, ((after.2.get? key).map Value.share).getD .null)).map
          Prod.snd).toList) := by
    intro after read
    refine ⟨read.valid, fun x => ?_⟩
    cases after.1 with
    | none => simp [read.values]
    | some key => cases found : after.2.get? key <;> simp [read.values, found]
  cases position with
  | none => exact shares _ (Structure.firstKey?_spec valid).2
  | some key => exact shares _ (Structure.nextKey?_read valid key)

/-- The entry that goes up holds shares; the one that it replaces is disposed. -/
theorem publishNext_conserves {x : Handle} {it : Iterator} {target : Value}
    {reached : WalkPosition} (object : h.object? x = some (.iterator it))
    (walks : it.source = .walk target reached) (position : Option Key) :
    Effect.ConservesAt (ledger H) [] (publishNext x target position) (fun _ => []) h := by
  intro rest owned
  unfold publishNext
  rw [Effect.ensures_bind]
  refine ((readStructure_iterator object target (stepUses position) _).and
    (entryAfter_conserves target position h rest owned)).mono ?_ fun _ _ failed => failed.2
  rintro next k ⟨object', owned'⟩
  have found := iteratorAt_of_object? object'
  simp only [Effect.ensures_bind, changeIterator, Effect.ensures_get, Effect.ensures_liftM, found,
    Effect.ensures_set, Effect.ensures_pure]
  refine (discardAll_steady _).conserves _ rest ?_
  obtain ⟨state, source, key, current, yields⟩ := it
  cases walks
  cases next with
  | none =>
    refine Owned.setObject owned' object' trivial fun y => ?_
    have finished := tally_finish (H := H) ⟨state, .walk target reached, key, current, yields⟩ y
    simp only [Option.map_none, Option.toList_none, List.nil_append, tally_append] at finished ⊢
    omega
  | some entry =>
    refine Owned.setObject owned' object' trivial fun y => ?_
    simp only [held_iterator, Iterator.publish, sourceHeld, Option.map_some, Option.toList_some,
      List.cons_append, List.nil_append, tally_append, tally_cons, tally_nil, Key.owners_toValue]
    omega

theorem advanceWalk_conserves (x : Handle) :
    Effect.Conserves (ledger H) [] (advanceWalk x) fun _ => [] := by
  intro h rest owned
  unfold advanceWalk
  simp only [Effect.ensures_bind, Effect.ensures_get, Effect.ensures_liftM]
  cases found : h.iteratorAt x with
  | error e => exact .inr (by simpa [light_iteratorAt x e found] using owned)
  | ok it =>
    have object := iteratorAt_eq_ok found
    simp only
    split
    · exact owned
    · split
      · rename_i source
        exact publishNext_conserves object source _ rest owned
      · rename_i source
        exact publishNext_conserves object source _ rest owned
      · exact owned
      · exact .inr owned

theorem advanceIterator_conserves (v : Value) :
    Effect.Conserves (ledger H) [] (advanceIterator v) fun _ => [] := by
  refine (Effect.Conserves.reads (light_handleOf v .iterator)).bind fun x => ?_
  refine .get_bind fun h => ?_
  refine ((Effect.Conserves.reads (light_iteratorAt x)).bind fun it => ?_) h
  split
  · exact .pure (.refl _)
  · exact (advanceWalk_conserves x).bind fun _ => .pure (.refl _)

/-- The end of a generator lets its last entry go. -/
theorem Owned.exhaust {out : List Value} (owned : h.Owned [] out) (x : Handle) :
    (h.exhaust x).Owned [] out := by
  cases found : h.iteratorAt x with
  | error e => exact (exhaust_of_error found).symm ▸ owned
  | ok it =>
    rw [exhaust_of_ok found]
    refine Owned.disposeAll (owned.setObject (iteratorAt_eq_ok found) trivial fun y => ?_)
    have finished := tally_finish (H := H) it y
    simp only [tally_append] at finished ⊢
    omega

/-! ## Frames -/

/-- The locals that go to the caller are in hand, and nothing else of the frame. -/
theorem Owned.retire {out : List Value} {frame : Frame} (owned : h.Owned [] (frame.held ++ out))
    (mask : UInt64) : (h.retire frame mask).2.Owned [] ((h.retire frame mask).1 ++ out) := by
  let keeps (slot : Nat) : Bool := decide (slot < 64) && mask.toNat.testBit slot
  let kept := (frame.locals.zipIdx.filter fun e => keeps e.2).map Prod.fst
  let dropped := (frame.locals.zipIdx.filter fun e => !keeps e.2).map Prod.fst
  have split : ∀ x, tally x frame.locals = tally x kept + tally x dropped := by
    intro x
    have perm := (List.filter_append_perm (fun e => keeps e.2) frame.locals.zipIdx).map Prod.fst
    have counted := tally_perm perm x
    rw [List.map_append, tally_append, List.zipIdx_map_fst] at counted
    exact counted.symm
  have parts : h.Owned [] (dropped ++ ({ frame with locals := [] }.held ++ (kept ++ out))) := by
    refine owned.recount fun x => ?_
    have locals := split x
    simp only [Frame.held, tally_append, tally_nil, Frame.pendingValues, Frame.returnedValues,
      Frame.thrownValues] at locals ⊢
    omega
  have rest := parts.disposeAll.disposeAll
  exact rest.withPools _ ⟨rest.clean.structures, rest.clean.values⟩

theorem retire_zero (h : Heap H) (frame : Frame) : (h.retire frame 0).1 = [] := by
  simp [Heap.retire, disposeFrame]

end Heap

end ScriptMachine
