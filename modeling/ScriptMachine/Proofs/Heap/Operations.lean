import ScriptMachine.Heap.Children
import ScriptMachine.Heap.Iteration
import ScriptMachine.Proofs.Heap.Evolution

/-!
# Heap operations as evolutions

Every operation of the heap, whether it fails or not, keeps the accounts in order and leads to a
heap that evolved from the one it began with. Each proof follows the operation through the primitive
changes; a copy lends its source while the parts are copied, so its induction is over the objects
that are out.
-/

set_option autoImplicit false

namespace ScriptMachine.Heap

variable {H α : Type} {P : Handle → Object H → Prop} {lent : List Nat} {base h : Heap H}

/-! ## Disposal -/

theorem Later.freeNext (later : Later P lent base h) :
    ∀ {work rest : List Value} {o : Object H} {k : Heap H},
      h.freeNext work = some (o, rest, k) → Later P lent base k := by
  intro work
  induction work with
  | nil => intro rest o k run; simp [Heap.freeNext] at run
  | cons v work ih =>
    intro rest o k run
    simp only [Heap.freeNext] at run
    cases owner : v.owned? with
    | none =>
      simp only [owner] at run
      exact ih run
    | some ref =>
      simp only [owner] at run
      cases freed : h.freeSlot ref.handle with
      | none =>
        simp only [freed] at run
        exact ih run
      | some pair =>
        simp only [freed, Option.some.injEq, Prod.mk.injEq] at run
        obtain ⟨rfl, -, rfl⟩ := run
        exact (later.freeSlot freed).1

theorem Later.sweep (later : Later P lent base h) (rounds : Nat) (work : List Value) :
    Later P lent base (h.sweep work rounds) := by
  induction rounds generalizing h work with
  | zero => exact later
  | succ rounds ih =>
    rw [Heap.sweep]
    cases next : h.freeNext work with
    | none => exact later
    | some triple => exact ih ((later.freeNext next).withPools _) _

theorem Later.dispose (later : Later P lent base h) (v : Value) :
    Later P lent base (h.dispose v) := by
  unfold Heap.dispose
  split
  · exact later.sweep _ _
  · exact later

theorem Later.disposeAll (later : Later P lent base h) (vs : List Value) :
    Later P lent base (h.disposeAll vs) := by
  induction vs generalizing h with
  | nil => exact later
  | cons v vs ih => exact ih (later.dispose v)

theorem discard_keeps (v : Value) : (discard v).Keeps (Later P lent base) :=
  fun _ later => later.dispose v

theorem discardAll_keeps (vs : List Value) : (discardAll vs).Keeps (Later P lent base) :=
  fun _ later => later.disposeAll vs

theorem release_keeps (v : Value) : (release v).Keeps (Later P lent base) := by
  intro h later
  unfold release
  cases v.ref? with
  | none => exact later
  | some ref =>
    by_cases owner : v.owns
    · simp only [owner, if_true, Effect.ensures_bind, Effect.ensures_get]
      split
      · exact later
      · exact discard_keeps v h later
    · simp only [owner, Bool.false_eq_true, if_false, Effect.ensures_throw]
      exact later

/-! ## Access through handles -/

theorem handleOf_eq_ok {v : Value} {kind : HeapKind} {x : Handle} (found : handleOf v kind = .ok x) :
    v.ref? = some ⟨kind, x⟩ := by
  unfold handleOf at found
  cases ref : v.ref? with
  | none => simp [ref] at found
  | some r =>
    by_cases same : r.kind = kind
    · simp only [ref, same, if_true, Except.ok.injEq] at found
      rw [← found, ← same]
    · simp [ref, same] at found

theorem object_eq_ok {x : Handle} {o : Object H} :
    h.object x = .ok o ↔ h.object? x = some o := by
  unfold object
  cases h.object? x <;> simp

/-- A structure is read off the object that the value refers to. -/
theorem structureOf_eq_ok {v : Value} {s : Structure} (found : h.structureOf v = .ok s) :
    ∃ x, handleOf v .struct = .ok x ∧ h.object? x = some (.struct s) := by
  obtain ⟨x, handle, found⟩ := ok_of_bind found
  obtain ⟨o, object, found⟩ := ok_of_bind found
  cases o <;> cases found
  exact ⟨x, handle, object_eq_ok.mp object⟩

theorem structureOf_of_object? {v : Value} {x : Handle} {s : Structure}
    (refers : v.ref? = some ⟨.struct, x⟩) (object : h.object? x = some (.struct s)) :
    h.structureOf v = .ok s := by
  simp [structureOf, handleOf, refers, object_eq_ok.mpr object, bind, Except.bind, pure,
    Except.pure]

theorem structureOf_eq_error {v : Value} {e : Error} (failed : h.structureOf v = .error e) :
    e.panic? = none := by
  unfold structureOf handleOf object at failed
  cases refers : v.ref? with
  | none =>
    simp only [refers] at failed
    cases failed
    rfl
  | some ref =>
    by_cases kind : ref.kind = .struct
    · simp only [refers, kind, if_true, bind, Except.bind] at failed
      cases found : h.object? ref.handle with
      | none =>
        rw [found] at failed
        cases failed
        rfl
      | some o =>
        rw [found] at failed
        cases o <;> cases failed
        all_goals rfl
    · simp only [refers, kind, if_false] at failed
      cases failed
      rfl

theorem structureFor_eq_ok {v : Value} {uses : Structure → List Use} {s : Structure} :
    h.structureFor v uses = .ok s ↔ h.structureOf v = .ok s ∧ s.overflows (uses s) = false := by
  unfold structureFor
  cases h.structureOf v with
  | error e => simp [bind, Except.bind]
  | ok t =>
    cases past : t.overflows (uses t) with
    | false =>
      simp only [bind, Except.bind, past, pure, Except.pure, Bool.false_eq_true, if_false]
      exact ⟨fun same => ⟨same, by cases same; exact past⟩, And.left⟩
    | true =>
      simp only [bind, Except.bind, past, if_true]
      refine ⟨nofun, ?_⟩
      rintro ⟨same, fits⟩
      cases same
      rw [past] at fits
      cases fits

theorem structureFor_eq_error {v : Value} {uses : Structure → List Use} {e : Error}
    (failed : h.structureFor v uses = .error e) :
    h.structureOf v = .error e ∨
      e = .ofPanic .overflow ∧ ∃ s, h.structureOf v = .ok s ∧ s.overflows (uses s) = true := by
  unfold structureFor at failed
  cases found : h.structureOf v with
  | error e' =>
    rw [found] at failed
    exact .inl failed
  | ok s =>
    rw [found] at failed
    by_cases past : s.overflows (uses s) = true
    · simp only [bind, Except.bind, past, if_true] at failed
      cases failed
      exact .inr ⟨rfl, s, rfl, past⟩
    · simp only [bind, Except.bind, past] at failed
      cases failed

theorem callableOf_eq_ok {v : Value} {c : Callable H} (found : h.callableOf v = .ok c) :
    ∃ x, h.object? x = some (.callable c) := by
  obtain ⟨x, -, found⟩ := ok_of_bind found
  obtain ⟨o, object, found⟩ := ok_of_bind found
  cases o <;> cases found
  exact ⟨x, object_eq_ok.mp object⟩

theorem iteratorAt_eq_ok {x : Handle} {it : Iterator} (found : h.iteratorAt x = .ok it) :
    h.object? x = some (.iterator it) := by
  obtain ⟨o, object, found⟩ := ok_of_bind found
  cases o <;> cases found
  exact object_eq_ok.mp object

/-- The end of a generator is a change of its iterator, after which values are let go. -/
theorem exhaust_of_ok {x : Handle} {it : Iterator} (found : h.iteratorAt x = .ok it) :
    h.exhaust x = (h.setObject x (.iterator it.finish.2)).disposeAll it.finish.1 := by
  simp [exhaust, found]

theorem exhaust_of_error {x : Handle} {e : Error} (missing : h.iteratorAt x = .error e) :
    h.exhaust x = h := by
  simp [exhaust, missing]

theorem iteratorAt_of_object? {x : Handle} {it : Iterator}
    (found : h.object? x = some (.iterator it)) : h.iteratorAt x = .ok it := by
  simp [iteratorAt, object_eq_ok.mpr found, bind, Except.bind, pure, Except.pure]

theorem ensures_changeStructure {v : Value} {uses : Structure → List Use}
    {f : Structure → StructurePools → α × Structure × StructurePools}
    {post : α → Heap H → Prop} {fail : Error → Heap H → Prop}
    (missing : ∀ e, h.structureFor v uses = .error e → fail e h)
    (present : ∀ x s, v.ref? = some ⟨.struct, x⟩ → h.structureFor v uses = .ok s →
      h.object? x = some (.struct s) →
      post (f s h.pools.structures).1
        { h.setObject x (.struct (f s h.pools.structures).2.1) with
          pools := { h.pools with structures := (f s h.pools.structures).2.2 } }) :
    (changeStructure v uses f).Ensures h post fail := by
  unfold changeStructure
  simp only [Effect.ensures_bind, Effect.ensures_get, Effect.ensures_liftM]
  cases found : h.structureFor v uses with
  | error e => exact missing e found
  | ok s =>
    obtain ⟨x, handle, object⟩ := structureOf_eq_ok (structureFor_eq_ok.mp found).1
    simp only [handle]
    exact present x s (handleOf_eq_ok handle) found object

theorem changeStructure_keeps (stable : Object.Stable P) (v : Value)
    (uses : Structure → List Use)
    (f : Structure → StructurePools → α × Structure × StructurePools) :
    (changeStructure v uses f).Keeps (Later P lent base) := by
  intro h later
  refine ensures_changeStructure (fun _ _ => later) fun x s _ _ object => ?_
  exact (later.setObject stable object (Object.Edited.struct _ _)).withPools _

theorem readStructure_keeps (stable : Object.Stable P) (v : Value) (uses : Structure → List Use)
    (f : Structure → α × Structure) : (readStructure v uses f).Keeps (Later P lent base) :=
  changeStructure_keeps stable v uses _

/-! ## Entries of structures -/

theorem setChildKey_keeps (stable : Object.Stable P) (target : Value) (key : Key) (value : Value) :
    (setChildKey target key value).Keeps (Later P lent base) := by
  intro h later
  unfold setChildKey
  by_cases owns : (value.owns && value.ref? == target.ref?) = true
  · simp only [owns, if_true, Effect.ensures_bind, Effect.ensures_throw]
    exact discard_keeps value h later
  · simp only [owns, Bool.false_eq_true, if_false, Effect.ensures_bind, Effect.ensures_get]
    split
    · simp only [Effect.ensures_bind, Effect.ensures_throw]
      exact discard_keeps value h later
    · simp only [Effect.ensures_bind]
      refine (changeStructure_keeps stable target _ _ h later).mono ?_ (fun _ _ later => later)
      intro displaced k later
      exact discardAll_keeps _ k later

theorem setChild_keeps (stable : Object.Stable P) (target key value : Value) :
    (setChild target key value).Keeps (Later P lent base) := by
  intro h later
  unfold setChild
  split
  · simp only [Effect.ensures_bind, Effect.ensures_throw]
    exact discard_keeps value h later
  · exact setChildKey_keeps stable target _ value h later

theorem append_keeps (stable : Object.Stable P) (target value : Value) (front : Bool) :
    (append target value front).Keeps (Later P lent base) := by
  intro h later
  unfold append
  simp only [Effect.ensures_bind, Effect.ensures_get]
  split
  · simp only [Effect.ensures_bind, Effect.ensures_throw]
    exact discard_keeps value h later
  · simp only [Effect.ensures_bind]
    refine (readStructure_keeps stable target _ _ h later).mono ?_ (fun _ _ later => later)
    intro key k later
    exact setChildKey_keeps stable target key value k later

/-! ## Iterators -/

theorem openIterator_keeps (stable : Object.Stable P) (v : Value) :
    (openIterator v).Keeps (Later P lent base) := by
  intro h later
  unfold openIterator
  split
  · exact later
  · simp only [Effect.ensures_bind, Effect.ensures_get]
    split
    · simp only [Effect.ensures_bind, Effect.ensures_throw]
      exact discard_keeps v h later
    · simp only [Effect.ensures_bind, Effect.ensures_get, Effect.ensures_set, Effect.ensures_pure]
      exact later.alloc fun x => stable.walk x _ rfl
  · simp only [Effect.ensures_bind, Effect.ensures_throw]
    exact discard_keeps v h later

theorem finish_edit (it : Iterator) :
    it.isGenerator = it.finish.2.isGenerator ∧ it.parked = it.finish.2.parked := by
  unfold Iterator.finish Iterator.isGenerator Iterator.parked
  cases it.source <;> simp

theorem parked_of_walk {it : Iterator} (walk : it.isGenerator = false) : it.parked = none := by
  unfold Iterator.isGenerator at walk
  unfold Iterator.parked
  cases source : it.source <;> simp_all

theorem Later.rebase {k : Heap H} (later : Later P lent base h) (inner : Later P lent h k) :
    Later P lent base k :=
  ⟨inner.accounted, inner.all, later.evolves.trans inner.evolves⟩

theorem Later.self (later : Later P lent base h) : Later P lent h h :=
  ⟨later.accounted, later.all, Evolves.refl h⟩

theorem entryAfter_keeps (stable : Object.Stable P) (target : Value) (position : Option Key) :
    (entryAfter target position).Keeps (Later P lent base) :=
  readStructure_keeps stable target _ _

theorem ensures_publishNext (stable : Object.Stable P) (later : Later P lent base h) {x : Handle}
    {it : Iterator} (object : h.object? x = some (.iterator it)) (walk : it.isGenerator = false)
    (target : Value) (position : Option Key) :
    (publishNext x target position).Ensures h (fun _ => Later P lent base)
      (fun _ => Later P lent base) := by
  unfold publishNext
  simp only [Effect.ensures_bind]
  refine (entryAfter_keeps stable target position h later.self).mono ?_
    (fun _ _ inner => later.rebase inner)
  intro next k inner
  -- reading the structure leaves the iterator a walk, so publishing changes it in place
  have still : ∀ it', k.object? x = some (.iterator it') → it'.isGenerator = false := by
    intro it' object'
    obtain ⟨o, object'', edit⟩ :=
      inner.evolves.edited x _ (later.accounted.issued_of_live object) object'
    rw [object] at object''
    cases object''
    rcases edit with rfl | ⟨_, walk'⟩
    · exact walk
    · exact walk'
  unfold changeIterator
  simp only [Effect.ensures_bind, Effect.ensures_get, Effect.ensures_liftM]
  cases found : k.iteratorAt x with
  | error e => exact later.rebase inner
  | ok it' =>
    have object' := iteratorAt_eq_ok found
    have walk' := still it' object'
    simp only [Effect.ensures_set, Effect.ensures_pure]
    refine discardAll_keeps _ _ (later.rebase (inner.setObject stable object' (.walk walk' ?_)))
    cases next with
    | none => exact (finish_edit it').1.symm.trans walk'
    | some entry => rfl

theorem advanceWalk_keeps (stable : Object.Stable P) (x : Handle) :
    (advanceWalk x).Keeps (Later P lent base) := by
  intro h later
  unfold advanceWalk
  simp only [Effect.ensures_bind, Effect.ensures_get, Effect.ensures_liftM]
  cases found : h.iteratorAt x with
  | error e => exact later
  | ok it =>
    have object := iteratorAt_eq_ok found
    by_cases ended : it.state = .exhausted
    · simp only [ended, if_true, Effect.ensures_pure]
      exact later
    · simp only [ended, if_false]
      split
      · rename_i source
        exact ensures_publishNext stable later object (by simp [Iterator.isGenerator, source]) _ _
      · rename_i source
        exact ensures_publishNext stable later object (by simp [Iterator.isGenerator, source]) _ _
      · exact later
      · exact later

theorem advanceIterator_keeps (stable : Object.Stable P) (v : Value) :
    (advanceIterator v).Keeps (Later P lent base) := by
  intro h later
  unfold advanceIterator
  simp only [Effect.ensures_bind, Effect.ensures_get, Effect.ensures_liftM]
  cases iteratorHandle v with
  | error e => exact later
  | ok x =>
    simp only
    cases h.iteratorAt x with
    | error e => exact later
    | ok it =>
      simp only
      split
      · exact later
      · simp only [Effect.ensures_bind, Effect.ensures_pure]
        exact advanceWalk_keeps stable x h later

/-! ## Copies -/

theorem allocLike_keeps (stable : Object.Stable P) {source : Object H} {x : Handle}
    (good : P x source)
    (values : List Value) : (allocLike source values).Keeps (Later P lent base) := by
  intro h later
  unfold allocLike
  simp only [Effect.ensures_bind, Effect.ensures_get]
  split
  · exact (later.withPools _).alloc fun x => stable.struct x _
  · exact (later.withPools _).alloc fun y => stable.closure _ y _ _ _ good
  · exact later.alloc fun x => stable.host x _ _
  · exact later

theorem copyParts_keeps {copyOwned : Value → HeapM H Value}
    (copies : ∀ v, (copyOwned v).Keeps (Later P lent base)) (values : List Value) :
    ∀ copied, (copyParts copyOwned values copied).Keeps (Later P lent base) := by
  induction values with
  | nil => intro copied h later; exact later
  | cons v values ih =>
    intro copied h later
    rw [copyParts]
    split
    · simp only [Effect.ensures_bind, Effect.ensures_onFailure]
      exact (copies v h later).mono (fun copy k later => ih (copy :: copied) k later)
        (fun _ _ later => later.disposeAll _)
    · exact ih _ h later

theorem ensures_borrow {x : Handle} {post : Object H × Heap H → Heap H → Prop}
    {fail : Error → Heap H → Prop} (missing : ∀ e, fail e h)
    (present : ∀ o, h.object? x = some o → post (o, h.vacated x) h) :
    (liftM (h.borrow x) : HeapM H (Object H × Heap H)).Ensures h post fail := by
  rw [Effect.ensures_liftM]
  cases found : h.object? x with
  | none => simpa [borrow, found] using missing _
  | some o => simpa [borrow_eq_ok found] using present o found

/-- A copy is made while its source is lent, and the source is back in its slot when it is done,
whether it failed or not. -/
theorem copyWithin_keeps (stable : Object.Stable P) (deep : Bool) (fuel : Nat) :
    ∀ (v : Value) (lent : List Nat) (base : Heap H),
      (copyWithin deep fuel v).Keeps (Later P lent base) := by
  induction fuel with
  | zero => intro v lent base h later; exact later
  | succ fuel ih =>
    intro v lent base h later
    rw [copyWithin.eq_def]
    simp only
    split
    · exact later
    · exact later
    · exact later
    · simp only [Effect.ensures_bind, Effect.ensures_get]
      refine ensures_borrow (fun _ => later) fun o object => ?_
      simp only [Effect.ensures_set, Effect.ensures_andAlways, Effect.ensures_bind]
      rename_i x _ _ _
      have copies : ∀ w lent base, ((if deep then copyWithin deep fuel
          else fun child => return child.share : Value → HeapM H Value) w).Keeps
            (Later P lent base) := by
        intro w lent base
        cases deep with
        | true => exact ih w lent base
        | false => exact Effect.Keeps.pure _ _
      refine (copyParts_keeps (fun w => copies w _ _) (parts o) [] (h.vacated x)
        (later.lend object)).mono ?_ (fun _ _ inner => later.restore object inner)
      intro values k inner
      exact (allocLike_keeps stable (later.all.object? object) values k inner).mono
        (fun _ _ inner => later.restore object inner) (fun _ _ inner => later.restore object inner)

theorem deepCopy_keeps (stable : Object.Stable P) (v : Value) :
    (deepCopy v).Keeps (Later P lent base) :=
  fun h later => copyWithin_keeps stable true (h.slots.size + 1) v lent base h later

theorem shallowCopy_keeps (stable : Object.Stable P) (v : Value) :
    (shallowCopy v).Keeps (Later P lent base) :=
  copyWithin_keeps stable false 1 v lent base

end ScriptMachine.Heap
