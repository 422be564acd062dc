import ScriptMachine.Proofs.Heap.Operations

/-!
# Generations keep handles apart

A run is a list of heap operations from the empty heap, together with the handles that the
allocations among them answered. No handle is answered twice, and a handle whose object was freed
names nothing for the rest of the run, however often its slot is used again; a slot that ended its
last generation is not used again at all. All along, the counters and the free list agree with the
slots.
-/

set_option autoImplicit false

namespace ScriptMachine

inductive HeapOp (H : Type) where
  | alloc (object : Object H)
  | allocStructure (capacity : Nat)
  | allocQueue (limit : Nat)
  | allocExternal (e : External)
  | setChild (target key value : Value)
  | setChildKey (target : Value) (key : Key) (value : Value)
  | deleteChild (target key : Value)
  | append (target value : Value) (front : Bool)
  | popEnd (target : Value) (front : Bool)
  | endKey (target : Value) (first : Bool)
  | dispose (v : Value)
  | release (v : Value)
  | deepCopy (v : Value)
  | shallowCopy (v : Value)
  | openIterator (v : Value)
  | advanceIterator (v : Value)

namespace HeapOp

variable {H : Type}

def perform : HeapOp H → HeapM H (Option Value)
  | alloc object => some <$> modifyGet (·.alloc object)
  | allocStructure capacity => some <$> modifyGet (·.allocStructure capacity)
  | allocQueue limit => some <$> modifyGet (·.allocQueue limit)
  | allocExternal e => some <$> modifyGet (·.allocExternal e)
  | setChild target key value => (fun _ => none) <$> Heap.setChild target key value
  | setChildKey target key value => (fun _ => none) <$> Heap.setChildKey target key value
  | deleteChild target key => some <$> Heap.deleteChild target key
  | append target value front => (fun _ => none) <$> Heap.append target value front
  | popEnd target front => some <$> Heap.popEnd target front
  | endKey target first => some <$> Heap.endKey target first
  | dispose v => (fun _ => none) <$> Heap.discard v
  | release v => (fun _ => none) <$> Heap.release v
  | deepCopy v => some <$> Heap.deepCopy v
  | shallowCopy v => some <$> Heap.shallowCopy v
  | openIterator v => some <$> Heap.openIterator v
  | advanceIterator v => (fun _ => none) <$> Heap.advanceIterator v

/-- Whether an operation answers the owner of a new object when it succeeds. A value that is not on
the heap is copied without one, and an iterator is its own iterator. -/
def allocates : HeapOp H → Bool
  | alloc _ | allocStructure _ | allocQueue _ | allocExternal _ => true
  | deepCopy v | shallowCopy v => v.ref?.isSome
  | openIterator v => v.ref?.any (·.kind ≠ .iterator)
  | _ => false

end HeapOp

namespace Heap

variable {H : Type}

/-- The heap that a run has reached, and the handles that its allocations answered, last one
first. -/
structure History (H : Type) where
  made : List Handle := []
  heap : Heap H := {}

namespace History

def madeBy (op : HeapOp H) (answer : Option Value) : List Handle :=
  if op.allocates then ((answer.bind Value.owned?).map HeapRef.handle).toList else []

/-- Runs one more operation; one that fails leaves the heap as it was when it failed. -/
def step (t : History H) (op : HeapOp H) : History H :=
  match op.perform t.heap with
  | .ok answer heap => { made := madeBy op answer ++ t.made, heap }
  | .error _ heap => { t with heap }

def run (t : History H) (ops : List (HeapOp H)) : History H := ops.foldl step t

end History

/-! ## What one operation does -/

section Step
variable {P : Handle → Object H → Prop} {lent : List Nat} {base h k : Heap H}

theorem perform_keeps (stable : Object.Stable P) (op : HeapOp H)
    (new : ∀ o, op = .alloc o → ∀ x, P x o) : op.perform.Keeps (Later P lent base) := by
  intro h later
  cases op with
  | alloc o => exact later.alloc (new o rfl)
  | allocStructure capacity => exact (later.withPools _).alloc fun x => stable.struct x _
  | allocQueue limit => exact (later.withPools _).alloc fun x => stable.struct x _
  | allocExternal e => exact later.alloc fun x => stable.external x e
  | setChild target key value =>
    exact (Effect.ensures_map ..).mpr (setChild_keeps stable target key value h later)
  | setChildKey target key value =>
    exact (Effect.ensures_map ..).mpr (setChildKey_keeps stable target key value h later)
  | deleteChild target key =>
    exact (Effect.ensures_map ..).mpr (readStructure_keeps stable target _ _ h later)
  | append target value front =>
    exact (Effect.ensures_map ..).mpr (append_keeps stable target value front h later)
  | popEnd target front =>
    exact (Effect.ensures_map ..).mpr (readStructure_keeps stable target _ _ h later)
  | endKey target first =>
    exact (Effect.ensures_map ..).mpr (readStructure_keeps stable target _ _ h later)
  | dispose v => exact (Effect.ensures_map ..).mpr (discard_keeps v h later)
  | release v => exact (Effect.ensures_map ..).mpr (release_keeps v h later)
  | deepCopy v => exact (Effect.ensures_map ..).mpr (deepCopy_keeps stable v h later)
  | shallowCopy v => exact (Effect.ensures_map ..).mpr (shallowCopy_keeps stable v h later)
  | openIterator v => exact (Effect.ensures_map ..).mpr (openIterator_keeps stable v h later)
  | advanceIterator v => exact (Effect.ensures_map ..).mpr (advanceIterator_keeps stable v h later)

def Fresh (h : Heap H) (v : Value) (k : Heap H) : Prop :=
  ∃ ref, v = .owned ref ∧ ¬ h.Issued ref.handle ∧ (k.object? ref.handle).isSome

theorem Accounted.fresh_alloc (acc : h.Accounted lent) (o : Object H) :
    h.Fresh (h.alloc o).1 (h.alloc o).2 := by
  obtain ⟨x, answer, new, live⟩ := acc.alloc_fresh o
  exact ⟨⟨o.kind, x⟩, answer, new, by simp [live]⟩

theorem Later.fresh_alloc_withPools (later : Later P lent base h) (pools : Pools) (o : Object H) :
    h.Fresh ({ h with pools }.alloc o).1 ({ h with pools }.alloc o).2 :=
  (later.withPools pools).accounted.fresh_alloc o

theorem allocLike_fresh (later : Later P lent base h) (source : Object H) (values : List Value) :
    (allocLike source values).Ensures h (fun v k => h.Fresh v k) (fun _ _ => True) := by
  unfold allocLike
  simp only [Effect.ensures_bind, Effect.ensures_get]
  split
  · exact later.fresh_alloc_withPools _ _
  · exact later.fresh_alloc_withPools _ _
  · exact later.accounted.fresh_alloc _
  · trivial

theorem object?_setObject_of_vacant {x y : Handle} {slot : Slot H} (o : Object H)
    (found : k.slots[x.index]? = some slot) (vacant : slot.object = none)
    (live : (k.object? y).isSome) : ((k.setObject x o).object? y).isSome := by
  have change := replaced_modify (k := k.setObject x o) (fun slot => { slot with object := some o })
    found rfl
  have ne : y.index ≠ x.index := by
    intro index
    obtain ⟨p, hp⟩ := Option.isSome_iff_exists.mp live
    obtain ⟨slot', found', _, occupied⟩ := object?_eq_some_iff.mp hp
    rw [index, found] at found'
    cases found'
    simp [vacant] at occupied
  rwa [change.object?_away ne]

/-- A copy of something on the heap has a new handle: it was new when the copy was placed, and all
that was handed out before the copy began was handed out by then. -/
theorem copyWithin_fresh (stable : Object.Stable P) (later : Later P lent base h) (deep : Bool)
    (fuel : Nat) {v : Value} (onHeap : v.ref?.isSome) :
    (copyWithin deep fuel v).Ensures h (fun v k => h.Fresh v k) (fun _ _ => True) := by
  cases fuel with
  | zero => trivial
  | succ fuel =>
    rw [copyWithin.eq_def]
    simp only
    split
    · rename_i noRef
      simp [noRef] at onHeap
    · trivial
    · trivial
    · simp only [Effect.ensures_bind, Effect.ensures_get]
      refine ensures_borrow (fun _ => trivial) fun o object => ?_
      simp only [Effect.ensures_set, Effect.ensures_andAlways, Effect.ensures_bind]
      rename_i x _ _ _
      obtain ⟨slot, hslot, same, ho⟩ := object?_eq_some_iff.mp object
      have out := replaced_modify (k := h.vacated x) (fun slot => { slot with object := none })
        hslot rfl
      have notFree := later.accounted.not_free hslot ho
      have copies : ∀ w, ((if deep then copyWithin deep fuel
          else fun child => return child.share : Value → HeapM H Value) w).Keeps
            (Later P (x.index :: lent) (h.vacated x)) := by
        intro w
        cases deep with
        | true => exact copyWithin_keeps stable true fuel w _ _
        | false => exact Effect.Keeps.pure _ _
      refine (copyParts_keeps copies (parts o) [] (h.vacated x) (later.lend object)).mono ?_
        (fun _ _ _ => trivial)
      intro values k inner
      have placed := allocLike_fresh inner o values
      have kept := allocLike_keeps stable (later.all.object? object) values k inner
      refine (placed.and kept).mono ?_ (fun _ _ _ => trivial)
      rintro copy k' ⟨⟨ref, answer, new, live⟩, after⟩
      obtain ⟨found, -⟩ := after.evolves.withheld x.index _ out.after rfl notFree
      refine ⟨ref, answer, fun issued => new (inner.evolves.issued _ ?_),
        object?_setObject_of_vacant o found rfl live⟩
      by_cases index : ref.handle.index = x.index
      · rw [out.issued_at index]
        rwa [issued_iff_of_slot slot (by rw [index, hslot]), index] at issued
      · exact (out.issued_away index Iff.rfl).mpr issued

theorem openIterator_fresh (later : Later P lent base h) {v : Value}
    (other : v.ref?.any (·.kind ≠ .iterator)) :
    (openIterator v).Ensures h (fun v k => h.Fresh v k) (fun _ _ => True) := by
  unfold openIterator
  split
  · rename_i ref
    simp [ref] at other
  · simp only [Effect.ensures_bind, Effect.ensures_get]
    split
    · trivial
    · exact later.accounted.fresh_alloc _
  · trivial

/-- The handle that an allocation answers was never handed out before, and names the new object. -/
theorem perform_fresh (stable : Object.Stable P) (later : Later P lent base h) {op : HeapOp H}
    (allocates : op.allocates) :
    op.perform.Ensures h (fun answer k => ∃ v, answer = some v ∧ h.Fresh v k)
      (fun _ _ => True) := by
  cases op with
  | alloc o => exact ⟨_, rfl, later.accounted.fresh_alloc o⟩
  | allocStructure capacity => exact ⟨_, rfl, later.fresh_alloc_withPools _ _⟩
  | allocQueue limit => exact ⟨_, rfl, later.fresh_alloc_withPools _ _⟩
  | allocExternal e => exact ⟨_, rfl, later.accounted.fresh_alloc _⟩
  | deepCopy v =>
    refine (Effect.ensures_map ..).mpr ?_
    exact (copyWithin_fresh stable later true (h.slots.size + 1) allocates).mono
      (fun v _ fresh => ⟨v, rfl, fresh⟩) (fun _ _ _ => trivial)
  | shallowCopy v =>
    refine (Effect.ensures_map ..).mpr ?_
    exact (copyWithin_fresh stable later false 1 allocates).mono
      (fun v _ fresh => ⟨v, rfl, fresh⟩) (fun _ _ _ => trivial)
  | openIterator v =>
    refine (Effect.ensures_map ..).mpr ?_
    exact (openIterator_fresh later allocates).mono
      (fun v _ fresh => ⟨v, rfl, fresh⟩) (fun _ _ _ => trivial)
  | _ => simp [HeapOp.allocates] at allocates

end Step

/-! ## Runs -/

/-- A heap whose accounts are in order, and whose answered handles are distinct and handed out. -/
structure History.Sound (base : Heap H) (t : History H) : Prop where
  later : Later (fun _ _ => True) [] base t.heap
  issued : ∀ x ∈ t.made, t.heap.Issued x
  nodup : t.made.Nodup

namespace History

variable {base : Heap H} {t : History H}

theorem Sound.step (sound : t.Sound base) (op : HeapOp H) : (t.step op).Sound base := by
  have kept := perform_keeps Object.Stable.true op (fun _ _ _ => trivial) t.heap sound.later.self
  unfold History.step
  cases ran : op.perform t.heap with
  | error e k =>
    have inner := (Effect.ensures_of_eq_error ran).mp kept
    exact ⟨sound.later.rebase inner, fun x hx => inner.evolves.issued x (sound.issued x hx),
      sound.nodup⟩
  | ok answer k =>
    have inner := (Effect.ensures_of_eq_ok ran).mp kept
    have old : ∀ x ∈ t.made, k.Issued x := fun x hx => inner.evolves.issued x (sound.issued x hx)
    by_cases allocates : op.allocates
    · have fresh := perform_fresh Object.Stable.true sound.later allocates
      obtain ⟨v, rfl, ref, rfl, new, live⟩ := (Effect.ensures_of_eq_ok ran).mp fresh
      obtain ⟨o, found⟩ := Option.isSome_iff_exists.mp live
      have made : madeBy op (some (.owned ref)) = [ref.handle] := by
        simp [madeBy, allocates, Value.owned?, Value.owned]
      simp only [made, List.singleton_append]
      refine ⟨sound.later.rebase inner, ?_, ?_⟩
      · intro x hx
        rcases List.mem_cons.mp hx with rfl | hx
        · exact inner.accounted.issued_of_live found
        · exact old x hx
      · exact List.nodup_cons.mpr ⟨fun hx => new (sound.issued _ hx), sound.nodup⟩
    · have made : madeBy op answer = [] := by simp [madeBy, allocates]
      simp only [made, List.nil_append]
      exact ⟨sound.later.rebase inner, old, sound.nodup⟩

theorem Sound.run (sound : t.Sound base) (ops : List (HeapOp H)) : (t.run ops).Sound base := by
  induction ops generalizing t with
  | nil => exact sound
  | cons op ops ih => exact ih (sound.step op)

theorem sound_start : ({} : History H).Sound {} :=
  ⟨later_empty, fun _ hx => by simp at hx, List.nodup_nil⟩

theorem Sound.later_run (sound : t.Sound base) (ops : List (HeapOp H)) :
    Later (fun _ _ => True) [] t.heap (t.run ops).heap := by
  have here : ({ t with made := [] } : History H).Sound t.heap :=
    ⟨sound.later.self, fun _ hx => by simp at hx, List.nodup_nil⟩
  have heaps : ∀ (ops : List (HeapOp H)) (made : List Handle) (heap : Heap H),
      (History.run { made, heap } ops).heap = (History.run { made := [], heap } ops).heap := by
    intro ops
    induction ops with
    | nil => intros; rfl
    | cons op ops ih =>
      intro made heap
      simp only [History.run, List.foldl_cons, History.step] at ih ⊢
      cases op.perform heap with
      | error e k => exact ih made k
      | ok answer k => exact (ih _ k).trans (ih _ k).symm
  rw [heaps ops t.made t.heap]
  exact (here.run ops).later

end History

/-! ## Handles of freed objects -/

structure Dangling (h : Heap H) (v : Value) (ref : HeapRef) : Prop where
  isLive : h.isLive v = false
  resolve : h.resolve v = .error (h.stale ref.handle)
  structureOf : ref.kind = .struct → h.structureOf v = .error (h.stale ref.handle)
  structureFor : ref.kind = .struct → ∀ uses, h.structureFor v uses = .error (h.stale ref.handle)
  changeStructure : ref.kind = .struct →
    ∀ (α : Type) (uses : Structure → List Use)
      (f : Structure → StructurePools → α × Structure × StructurePools),
      changeStructure v uses f h = .error (h.stale ref.handle) h
  callableOf : ref.kind = .callable → h.callableOf v = .error (h.stale ref.handle)
  externalOf : ref.kind = .external → h.externalOf v = .error (h.stale ref.handle)
  iteratorAt : ref.kind = .iterator → h.iteratorAt ref.handle = .error (h.stale ref.handle)
  changeIterator : ref.kind = .iterator → ∀ (α : Type) (f : Iterator → α × Iterator),
    changeIterator ref.handle f h = .error (h.stale ref.handle) h

theorem dangling_of_dead {h : Heap H} {v : Value} {ref : HeapRef} (refers : v.ref? = some ref)
    (dead : h.object? ref.handle = none) : h.Dangling v ref := by
  have gone : h.object ref.handle = .error (h.stale ref.handle) := by
    simp [object, dead]
  have handle : ∀ kind, ref.kind = kind → handleOf v kind = .ok ref.handle := by
    intro kind same
    simp [handleOf, refers, same]
  have structure_gone : ref.kind = .struct → h.structureOf v = .error (h.stale ref.handle) := by
    intro kind
    simp [Heap.structureOf, handle _ kind, gone, bind, Except.bind]
  have uses_gone : ref.kind = .struct → ∀ uses,
      h.structureFor v uses = .error (h.stale ref.handle) := by
    intro kind uses
    simp [Heap.structureFor, structure_gone kind, bind, Except.bind]
  have iterator_gone : h.iteratorAt ref.handle = .error (h.stale ref.handle) := by
    simp [Heap.iteratorAt, gone, bind, Except.bind]
  refine ⟨?_, ?_, structure_gone, uses_gone, ?_, ?_, ?_, fun _ => iterator_gone, ?_⟩
  · simp [Heap.isLive, refers, dead]
  · simp [Heap.resolve, refers, gone]
  · intro kind α uses f
    have found := uses_gone kind uses
    apply Effect.eq_error_of_ensures
    simp [Heap.changeStructure, found]
  · intro kind
    simp [Heap.callableOf, handle _ kind, gone, bind, Except.bind]
  · intro kind
    simp [Heap.externalOf, handle _ kind, gone, bind, Except.bind]
  · intro kind α f
    apply Effect.eq_error_of_ensures
    simp [Heap.changeIterator, iterator_gone]

/-! ## Accounts -/

def Vacant (h : Heap H) (i : Nat) : Prop := ∃ slot, h.slots[i]? = some slot ∧ slot.object = none

def Retired (h : Heap H) (i : Nat) : Prop :=
  h.Vacant i ∧ (h.slots[i]?.map Slot.generation) = some lastGeneration ∧
    h.Issued ⟨i, lastGeneration⟩

structure Balanced (h : Heap H) : Prop where
  live : h.live = h.occupied
  free_nodup : h.free.Nodup
  mem_free : ∀ i, i ∈ h.free ↔ h.Vacant i ∧ ¬ h.Retired i
  total : h.slots.size = h.occupied + h.free.length + h.retired

theorem Accounted.balanced {h : Heap H} (acc : h.Accounted []) : h.Balanced := by
  refine ⟨by simpa using acc.live, acc.free_nodup, ?_, by simpa using acc.total⟩
  intro i
  constructor
  · intro isFree
    refine ⟨acc.free_vacant i isFree, ?_⟩
    rintro ⟨-, last, issued⟩
    obtain ⟨slot, found, position⟩ := issued
    simp only [found, Option.map_some, Option.some.injEq] at last
    rcases position with earlier | ⟨-, notFree⟩
    · simp only at earlier
      omega
    · exact notFree isFree
  · rintro ⟨⟨slot, found, vacant⟩, notRetired⟩
    rcases acc.vacant i slot found vacant with isFree | isLent | last
    · exact isFree
    · simp at isLent
    · by_cases isFree : i ∈ h.free
      · exact isFree
      · have issued : h.Issued ⟨i, lastGeneration⟩ := ⟨slot, found, Or.inr ⟨last.symm, isFree⟩⟩
        exact absurd ⟨⟨slot, found, vacant⟩, by simp [found, last], issued⟩ notRetired

theorem Evolves.retired {h k : Heap H} (evolves : h.Evolves k) {i : Nat} (retired : h.Retired i) :
    k.Retired i := by
  obtain ⟨⟨slot, found, vacant⟩, last, slot', found', position⟩ := retired
  rw [found] at found'
  cases found'
  simp only [found, Option.map_some, Option.some.injEq] at last
  have notFree : i ∉ h.free := by
    rcases position with earlier | ⟨-, notFree⟩
    · simp only at earlier
      omega
    · exact notFree
  obtain ⟨after, stillNotFree⟩ := evolves.withheld i slot found vacant notFree
  exact ⟨⟨slot, after, vacant⟩, by simp [after, last], slot, after, Or.inr ⟨last.symm, stillNotFree⟩⟩

/-- In every run, allocations answer handles that are all different; a handle that was answered, or
named an object, and has lost that object fails as stale from then on, whatever value holds it; the
accounts balance throughout, and a retired slot is never used again. -/
theorem handles_never_revive (first second third : List (HeapOp H)) :
    let s := History.run {} first
    let t := s.run second
    let u := t.run third
    u.made.Nodup ∧
    (∀ (op : HeapOp H) (answer : Option Value) (k : Heap H), op.allocates →
      op.perform u.heap = .ok answer k →
      ∃ ref, answer = some (.owned ref) ∧ ref.handle ∉ u.made ∧
        u.heap.object? ref.handle = none ∧ (k.object? ref.handle).isSome) ∧
    (∀ (v : Value) (ref : HeapRef), v.ref? = some ref →
      ref.handle ∈ s.made ∨ (s.heap.object? ref.handle).isSome →
        t.heap.object? ref.handle = none → u.heap.Dangling v ref) ∧
    u.heap.Balanced ∧ (∀ i, t.heap.Retired i → u.heap.Retired i) := by
  intro s t u
  have soundS : s.Sound {} := History.sound_start.run first
  have soundT : t.Sound {} := soundS.run second
  have soundU : u.Sound {} := soundT.run third
  have evolves : t.heap.Evolves u.heap := (soundT.later_run third).evolves
  refine ⟨soundU.nodup, ?_, ?_, soundU.later.accounted.balanced, fun i => evolves.retired⟩
  · intro op answer k allocates ran
    have fresh := perform_fresh Object.Stable.true soundU.later allocates
    obtain ⟨v, rfl, ref, rfl, new, live⟩ := (Effect.ensures_of_eq_ok ran).mp fresh
    refine ⟨ref, rfl, fun old => new (soundU.issued _ old), ?_, live⟩
    cases found : u.heap.object? ref.handle with
    | none => rfl
    | some o => exact absurd (soundU.later.accounted.issued_of_live found) new
  · intro v ref refers known freed
    have issued : s.heap.Issued ref.handle := by
      rcases known with answered | live
      · exact soundS.issued _ answered
      · obtain ⟨o, found⟩ := Option.isSome_iff_exists.mp live
        exact soundS.later.accounted.issued_of_live found
    have issuedT := (soundS.later_run second).evolves.issued _ issued
    exact dangling_of_dead refers (evolves.dead issuedT freed)

theorem handles_never_revive_reused_slot :
    let e : External := ⟨"file", 7⟩
    let x : HeapRef := ⟨.external, ⟨0, 0⟩⟩
    let u : History Unit := ((History.run {} [.allocExternal e]).run [.release (.owned x)]).run
      [.allocExternal e]
    u.heap.Dangling (.pointer x) x ∧ (u.heap.object? ⟨0, 1⟩).isSome :=
  ⟨(handles_never_revive _ _ _).2.2.1 _ _ rfl (.inl (by decide)) rfl, rfl⟩

end Heap

end ScriptMachine
