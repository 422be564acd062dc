import ScriptMachine.Proofs.Machine.Transfers

/-!
# Where errors end up

An error goes to the topmost frame that takes one. The frames above are let go top down, and their
generators have ended; the frames below never learn of it. Routing is a recursion over the stack, so
the frames above come first: `unwind_above` removes any number of frames that take no error.
-/

set_option autoImplicit false

namespace ScriptMachine

variable {H W : Type}

/-- The frame has a trap, or deferred blocks that are armed and an entry to them. -/
def Frame.Takes (f : Frame) : Prop :=
  f.trap.isSome ∨ f.hasArmedDefers ∧ f.deferEntry.isSome

theorem Frame.diversion_eq_some {f : Frame} {entry : Nat} :
    f.diversion = some entry ↔ f.hasArmedDefers ∧ f.deferEntry = some entry := by
  unfold diversion
  split <;> simp_all

theorem Frame.not_takes_iff {f : Frame} : ¬ f.Takes ↔ f.trap = none ∧ f.diversion = none := by
  unfold Takes diversion
  cases f.trap <;> cases f.deferEntry <;> simp

theorem Error.payload_of_thrown {e : Error} {v : Value} (thrown : e.cause = .fault (.thrown v)) :
    e.payload = v := by
  simp [payload, thrown]

theorem Error.payload_of_not_thrown {e : Error}
    (other : ∀ v, e.cause ≠ .fault (.thrown v)) :
    e.payload = .str (match e.cause with
      | .fault fault => fault.message
      | _ => e.message) := by
  unfold payload
  split
  case h_1 v thrown => exact absurd thrown (other v)
  case h_2 fault _ found => rw [found]
  case h_3 plain =>
    split
    case h_1 fault found => exact absurd found (plain fault)
    case h_2 => rfl

/-! ## Frames that are let go -/

namespace Heap

variable {h j k : Heap H} {x y : Handle}

def Shrinks (h k : Heap H) : Prop := ∀ x o, k.object? x = some o → h.object? x = some o

theorem Shrinks.refl (h : Heap H) : h.Shrinks h := fun _ _ found => found

theorem Shrinks.trans (first : h.Shrinks j) (second : j.Shrinks k) : h.Shrinks k :=
  fun x o found => first x o (second x o found)

theorem shrinks_freeSlot {o : Object H} (freed : h.freeSlot x = some (o, k)) : h.Shrinks k := by
  intro y p found
  obtain ⟨slot, _, _, _, _, change⟩ := freeSlot_cases freed
  have vacated : ∀ {new : Slot H}, Replaced h k x.index slot new → new.object = none →
      h.object? y = some p := by
    intro new replaced vacant
    by_cases index : y.index = x.index
    · rw [replaced.object?_at index, vacant] at found
      simp at found
    · exact (replaced.object?_away index).symm.trans found
  rcases change with ⟨_, _, _, replaced⟩ | ⟨_, _, _, replaced⟩
  · exact vacated replaced rfl
  · exact vacated replaced rfl

theorem shrinks_freeNext {work rest : List Value} {o : Object H}
    (next : h.freeNext work = some (o, rest, k)) : h.Shrinks k := by
  induction work with
  | nil => cases next
  | cons v work ih =>
    rw [freeNext] at next
    split at next
    · exact ih next
    · split at next
      · rename_i freed
        cases next
        exact shrinks_freeSlot freed
      · exact ih next

theorem shrinks_sweep (rounds : Nat) :
    ∀ (h : Heap H) (work : List Value), h.Shrinks (h.sweep work rounds) := by
  induction rounds with
  | zero => exact fun h _ => .refl h
  | succ rounds ih =>
    intro h work
    rw [sweep]
    split
    · exact .refl h
    · rename_i next
      exact (shrinks_freeNext next).trans (ih _ _)

theorem shrinks_dispose (h : Heap H) (v : Value) : h.Shrinks (h.dispose v) := by
  rw [dispose]
  split
  · exact shrinks_sweep _ h _
  · exact .refl h

theorem shrinks_disposeAll (vs : List Value) : ∀ h : Heap H, h.Shrinks (h.disposeAll vs) := by
  induction vs with
  | nil => exact .refl
  | cons v vs ih => exact fun h => (shrinks_dispose h v).trans (ih _)

theorem shrinks_retire (h : Heap H) (f : Frame) (mask : UInt64) : h.Shrinks (h.retire f mask).2 :=
  (shrinks_disposeAll _ h).trans (shrinks_disposeAll _ _)

def Spent (h : Heap H) (x : Handle) : Prop := ∀ it, h.iteratorAt x = .ok it → it.state = .exhausted

theorem Spent.shrinks (spent : h.Spent x) (shrinks : h.Shrinks k) : k.Spent x := fun it found =>
  spent it (iteratorAt_of_object? (shrinks x _ (iteratorAt_eq_ok found)))

theorem spent_exhaust (h : Heap H) (x : Handle) : (h.exhaust x).Spent x := by
  cases found : h.iteratorAt x with
  | error e =>
    rw [exhaust_of_error found]
    intro it found'
    rw [found] at found'
    cases found'
  | ok it =>
    rw [exhaust_of_ok found]
    refine Spent.shrinks (fun it' found' => ?_) (shrinks_disposeAll _ _)
    have object := iteratorAt_eq_ok found'
    rw [object?_setObject (iteratorAt_eq_ok found), if_pos rfl] at object
    cases object
    rfl

theorem Spent.exhaust (spent : h.Spent y) (x : Handle) : (h.exhaust x).Spent y := by
  cases found : h.iteratorAt x with
  | error e => rwa [exhaust_of_error found]
  | ok it =>
    by_cases same : y = x
    · exact same ▸ spent_exhaust h x
    · rw [exhaust_of_ok found]
      refine Spent.shrinks (fun it' found' => ?_) (shrinks_disposeAll _ _)
      have object := iteratorAt_eq_ok found'
      rw [object?_setObject (iteratorAt_eq_ok found), if_neg same] at object
      exact spent it' (iteratorAt_of_object? object)

theorem Spent.abandon (spent : h.Spent x) (f : Frame) : (h.abandon f).Spent x := by
  have retired := spent.shrinks (shrinks_retire h f 0)
  unfold Heap.abandon
  split
  · exact retired.exhaust _
  · exact retired

theorem spent_abandon (h : Heap H) {f : Frame} (belongs : f.generator = some x) :
    (h.abandon f).Spent x := by
  simp only [abandon, belongs]
  exact spent_exhaust _ x

/-- The generators that frames belong to have ended. -/
def Ends (h : Heap H) (fs : List Frame) : Prop :=
  ∀ f ∈ fs, ∀ x, f.generator = some x → h.Spent x

theorem Ends.shrinks {fs : List Frame} (ends : h.Ends fs) (shrinks : h.Shrinks k) : k.Ends fs :=
  fun f mem x belongs => (ends f mem x belongs).shrinks shrinks

theorem spent_abandonAll (fs : List Frame) :
    ∀ h : Heap H, h.Spent x → (fs.foldl Heap.abandon h).Spent x := by
  induction fs with
  | nil => exact fun _ spent => spent
  | cons f fs ih => exact fun _ spent => ih _ (spent.abandon f)

theorem ends_abandonAll (fs : List Frame) : ∀ h : Heap H, (fs.foldl Heap.abandon h).Ends fs := by
  induction fs with
  | nil => exact fun _ f mem => absurd mem List.not_mem_nil
  | cons f fs ih =>
    intro h g mem x belongs
    rcases List.mem_cons.mp mem with rfl | mem
    · exact spent_abandonAll fs _ (spent_abandon h belongs)
    · exact ih _ g mem x belongs

end Heap

namespace Session

variable {m : Machine H W} {j : Job} {e : Error} {f : Frame}

/-! ## Routing -/

/-- Frames that take no error are let go, whatever is below them. -/
theorem unwind_above (e : Error) {above : List Frame} (below : List Frame) (j : Job) :
    ∀ m : Machine H W, (∀ g ∈ above, ¬ g.Takes) →
      unwind e (above ++ below) ⟨m, j⟩ = unwind e below ⟨m.abandon above, j⟩ := by
  induction above with
  | nil => exact fun _ _ => rfl
  | cons g above ih =>
    -- the topmost frame is let go, which is where the machine of the induction comes from
    intro m lets
    obtain ⟨first, others⟩ := List.forall_mem_cons.mp lets
    obtain ⟨trap, diverted⟩ := Frame.not_takes_iff.mp first
    rw [List.cons_append, unwind, trap, diverted]
    show EStateM.bind (abandon g) (fun _ => unwind e (above ++ below)) ⟨m, j⟩ = _
    simp only [EStateM.bind, abandon_eq, ih _ others]
    rfl

theorem unwind_trap {handler : Nat} (trap : f.trap = some handler) (below : List Frame) :
    unwind e (f :: below) ⟨m, j⟩ =
      .ok () ⟨(m.dispose f.stack.reverse).note .engine .debug,
        { j with frames := f.trapped handler e :: below }⟩ := by
  rw [unwind, trap]
  rfl

theorem unwind_diverted {entry : Nat} (trap : f.trap = none) (diverted : f.diversion = some entry)
    (below : List Frame) :
    unwind e (f :: below) ⟨m, j⟩ =
      .ok () ⟨((m.dispose f.stack.reverse).dispose f.thrownValues).dispose f.returnedValues,
        { j with frames := f.holdError entry e :: below }⟩ := by
  rw [unwind, trap, diverted]
  rfl

theorem raise_of_fatal (fatal : e.isFatal) (m : Machine H W) (j : Job) :
    raise e ⟨m, j⟩ =
      .error e ⟨((m.dispose j.channel).note .engine .warn).abandon j.frames,
        { j with frames := [], channel := [] }⟩ := by
  refine Effect.eq_error_of_ensures ?_
  simp only [raise, clearChannel, abandonAll, Effect.ensures_bind, ensures_drainChannel,
    ensures_dispose, fatal, if_true, ensures_note, Effect.ensures_get]
  rw [Effect.ensures_of_eq_ok (abandonFrames_eq ..)]
  simp

theorem raise_of_not_fatal (fatal : ¬ e.isFatal) (m : Machine H W) (j : Job) :
    raise e ⟨m, j⟩ = unwind e j.frames ⟨m.dispose j.channel, { j with channel := [] }⟩ := by
  unfold raise
  rw [if_neg fatal]
  rfl

theorem raise_reaches (fatal : ¬ e.isFatal) {above below : List Frame}
    (frames : j.frames = above ++ f :: below) (lets : ∀ g ∈ above, ¬ g.Takes) :
    raise e ⟨m, j⟩ =
      unwind e (f :: below) ⟨(m.dispose j.channel).abandon above, { j with channel := [] }⟩ := by
  rw [raise_of_not_fatal fatal, frames]
  exact unwind_above e (f :: below) _ _ lets

theorem raise_unclaimed (fatal : ¬ e.isFatal) (lets : ∀ g ∈ j.frames, ¬ g.Takes) :
    raise e ⟨m, j⟩ =
      .error e ⟨(m.dispose j.channel).abandon j.frames,
        { j with frames := [], channel := [] }⟩ := by
  have routed := unwind_above e [] { j with channel := [] } (m.dispose j.channel) lets
  rw [List.append_nil] at routed
  rw [raise_of_not_fatal fatal]
  exact routed

/-- Where an error goes. A fatal one stops nowhere; any other goes to the topmost frame that takes
one, into its trap or else to its deferred blocks. -/
theorem raise_routes (e : Error) (s : Session H W) :
    let m := s.machine.dispose s.job.channel
    let stopped (m : Machine H W) (frames : List Frame) : Session H W :=
      ⟨m, { s.job with frames, channel := [] }⟩
    (e.isFatal →
      let m' := (m.note .engine .warn).abandon s.job.frames
      raise e s = .error e (stopped m' []) ∧ m'.heap.Ends s.job.frames) ∧
    (¬ e.isFatal →
      (∀ above f below, s.job.frames = above ++ f :: below → (∀ g ∈ above, ¬ g.Takes) →
        (∀ handler, f.trap = some handler →
          let m' := ((m.abandon above).dispose f.stack.reverse).note .engine .debug
          let f' := { f with trap := none, stack := [e.payload], cursor := handler }
          raise e s = .ok () (stopped m' (f' :: below)) ∧ m'.heap.Ends above) ∧
        (∀ entry, f.trap = none → f.hasArmedDefers → f.deferEntry = some entry →
          let m' := (((m.abandon above).dispose f.stack.reverse).dispose f.thrownValues).dispose
            f.returnedValues
          let f' :=
            { f with stack := [], pendingError := some e, pendingReturn := none, cursor := entry }
          raise e s = .ok () (stopped m' (f' :: below)) ∧ m'.heap.Ends above)) ∧
      ((∀ g ∈ s.job.frames, ¬ g.Takes) →
        let m' := m.abandon s.job.frames
        raise e s = .error e (stopped m' []) ∧ m'.heap.Ends s.job.frames)) ∧
    (∀ v, e.cause = .fault (.thrown v) → e.payload = v) ∧
    ((∀ v, e.cause ≠ .fault (.thrown v)) → e.payload = .str (match e.cause with
      | .fault fault => fault.message
      | _ => e.message)) := by
  intro m stopped
  obtain ⟨machine, job⟩ := s
  refine ⟨fun fatal => ⟨raise_of_fatal fatal machine job, Heap.ends_abandonAll _ _⟩,
    fun fatal => ⟨fun above f below frames lets => ?_, fun lets => ?_⟩,
    fun _ => Error.payload_of_thrown, Error.payload_of_not_thrown⟩
  · have routed := raise_reaches (m := machine) fatal frames lets
    have ended := Heap.ends_abandonAll above m.heap
    constructor
    · intro handler trap
      exact ⟨routed.trans (unwind_trap trap below), ended.shrinks (Heap.shrinks_disposeAll _ _)⟩
    · intro entry trap armed entered
      have diverted := Frame.diversion_eq_some.mpr ⟨armed, entered⟩
      have without := ended.shrinks (Heap.shrinks_disposeAll f.stack.reverse _)
      have unthrown := without.shrinks (Heap.shrinks_disposeAll f.thrownValues _)
      exact ⟨routed.trans (unwind_diverted trap diverted below),
        unthrown.shrinks (Heap.shrinks_disposeAll f.returnedValues _)⟩
  · exact ⟨raise_unclaimed fatal lets, Heap.ends_abandonAll _ _⟩

/-! A generator runs on top of a frame with a trap. -/

def trapping : Frame := { trap := some 7, stack := [.bool true], defers := [true], capacity := 4 }

def escaping : Session Unit Unit :=
  ⟨{ world := ()
     heap := (({} : Heap Unit).alloc (.iterator ⟨.running, .generator none, .int 3, [], 4⟩)).2 },
    { frames := [{ generator := some ⟨0, 0⟩, capacity := 4 }, trapping, { capacity := 4 }]
      channel := [.bool false] }⟩

theorem raise_routes_escaping :
    ∃ m, raise (.ofFault (.thrown (.int 5))) escaping =
        .ok () ⟨m, { frames := [{ trapping with trap := none, stack := [.int 5], cursor := 7 },
          { capacity := 4 }] }⟩ ∧
      m.heap.Spent ⟨0, 0⟩ := by
  have lets : ∀ g ∈ [({ generator := some ⟨0, 0⟩, capacity := 4 } : Frame)], ¬ g.Takes := by
    simp [Frame.Takes, Frame.hasArmedDefers]
  obtain ⟨raised, ended⟩ := ((raise_routes (.ofFault (.thrown (.int 5))) escaping).2.1
    (by decide)).1 _ trapping [{ capacity := 4 }] rfl lets |>.1 7 rfl
  exact ⟨_, raised, ended _ List.mem_cons_self _ rfl⟩

end Session

end ScriptMachine
