import ScriptMachine.Proofs.Exec.Deferred
import ScriptMachine.Proofs.Machine.Routing
import ScriptMachine.Proofs.Machine.System

/-!
# Where frames go in one act

An act of a job lets frames fall from the top of its stack, or moves one frame: a new one is put on
the stack or into a new iterator, one is parked, or one that was parked comes back. `Session.Shifts`
says so, and that nothing else becomes of the marks of the frames: the iterators that they belong to
and what they keep for their deferred blocks.
-/

set_option autoImplicit false

namespace ScriptMachine

variable {H W : Type}

/-- The part of a frame that no transfer of control changes, but an exit that is held back. -/
structure Mark where
  generator : Option Handle
  deferral : Deferral

def Frame.mark (f : Frame) : Mark := ⟨f.generator, f.deferral⟩

/-- No block is armed and nothing is held back. -/
structure Deferral.Fresh (d : Deferral) : Prop where
  armed : true ∉ d.armed
  returns : d.returns = none
  error : d.error = none

theorem Iterator.isGenerator_of_parked {it : Iterator} {f : Frame} (parked : it.parked = some f) :
    it.isGenerator = true := by
  cases walk : it.isGenerator with
  | true => rfl
  | false =>
    rw [Heap.parked_of_walk walk] at parked
    cases parked

namespace Heap

variable {h j k : Heap H} {x : Handle} {f : Frame} {extra : Option (Handle × Mark)}

def parkedAt (h : Heap H) (x : Handle) : Option Frame :=
  match h.object? x with
  | some (.iterator it) => it.parked
  | _ => none

theorem parkedAt_eq_some : h.parkedAt x = some f ↔
    ∃ it, h.object? x = some (.iterator it) ∧ it.parked = some f := by
  unfold parkedAt
  split
  · rename_i it found
    exact ⟨fun parked => ⟨it, found, parked⟩, fun ⟨_, same, parked⟩ => by
      rw [found] at same
      cases same
      exact parked⟩
  · rename_i other
    exact ⟨fun none => (by cases none), fun ⟨it, found, _⟩ => absurd found (other it)⟩

/-- `k` came out of `h`, and besides `extra` nothing is parked in it that was not. -/
structure Parks (h : Heap H) (extra : Option (Handle × Mark)) (k : Heap H) : Prop where
  accounted : k.Accounted []
  issued : ∀ x, h.Issued x → k.Issued x
  parked : ∀ x f, k.parkedAt x = some f → h.parkedAt x = some f ∨ extra = some (x, f.mark)

theorem Parks.refl (accounted : h.Accounted []) : h.Parks none h :=
  ⟨accounted, fun _ issued => issued, fun _ _ parked => .inl parked⟩

theorem Parks.trans (first : h.Parks none j) (second : j.Parks extra k) : h.Parks extra k := by
  refine ⟨second.accounted, fun x issued => second.issued x (first.issued x issued),
    fun x f parked => ?_⟩
  rcases second.parked x f parked with before | new
  · exact .inl ((first.parked x f before).resolve_right (by simp))
  · exact .inr new

theorem Parks.andThen (first : h.Parks extra j) (second : j.Parks none k) : h.Parks extra k :=
  ⟨second.accounted, fun x issued => second.issued x (first.issued x issued), fun x f parked =>
    first.parked x f ((second.parked x f parked).resolve_right (by simp))⟩

theorem Parks.grows {Q : CodeUnit → Prop} (parks : h.Parks extra j) (grows : j.Grows Q k) :
    h.Parks extra k := by
  refine ⟨grows.accounted, fun x issued => grows.evolves.issued x (parks.issued x issued),
    fun x f parked => parks.parked x f ?_⟩
  obtain ⟨it, found, away⟩ := parkedAt_eq_some.mp parked
  have generates := Iterator.isGenerator_of_parked away
  exact parkedAt_eq_some.mpr ⟨it, grows.generator found generates, away⟩

theorem Parks.here (parks : h.Parks extra j) : j.Grows (fun _ => True) j :=
  (parks.accounted.coded []).here

theorem Parks.disposeAll (parks : h.Parks extra k) (vs : List Value) :
    h.Parks extra (k.disposeAll vs) := parks.grows (parks.here.disposeAll vs)

theorem Parks.withPools (parks : h.Parks extra k) (pools : Pools) :
    h.Parks extra { k with pools } := parks.grows (parks.here.withPools pools)

theorem Parks.retire (parks : h.Parks extra k) (f : Frame) (mask : UInt64) :
    h.Parks extra (k.retire f mask).2 := ((parks.disposeAll _).disposeAll _).withPools _

/-- An iterator is replaced by one in which nothing else is parked, or `extra` is. -/
theorem Parks.setObject {it it' : Iterator} (parks : h.Parks none k)
    (found : k.object? x = some (.iterator it))
    (parked : ∀ f, it'.parked = some f → it.parked = some f ∨ extra = some (x, f.mark)) :
    h.Parks extra (k.setObject x (.iterator it')) := by
  refine ⟨parks.accounted.setObject found _,
    fun y issued => (issued_setObject found y).mpr (parks.issued y issued), fun y f away => ?_⟩
  obtain ⟨it'', found'', away'⟩ := parkedAt_eq_some.mp away
  rw [object?_setObject found] at found''
  have before : k.parkedAt y = some f → h.parkedAt y = some f := fun before =>
    (parks.parked y f before).resolve_right (by simp)
  by_cases same : y = x
  · subst same
    rw [if_pos rfl] at found''
    cases found''
    exact (parked f away').imp (fun old => before (parkedAt_eq_some.mpr ⟨it, found, old⟩)) id
  · rw [if_neg same] at found''
    exact .inl (before (parkedAt_eq_some.mpr ⟨it'', found'', away'⟩))

theorem Parks.exhaust (parks : h.Parks none k) (x : Handle) : h.Parks none (k.exhaust x) := by
  cases found : k.iteratorAt x with
  | error e => rwa [exhaust_of_error found]
  | ok it =>
    rw [exhaust_of_ok found]
    exact (parks.setObject (Heap.iteratorAt_eq_ok found) fun f parked =>
      .inl ((finish_edit it).2.trans parked)).disposeAll _

theorem Parks.abandon (parks : h.Parks none k) (f : Frame) : h.Parks none (k.abandon f) := by
  unfold Heap.abandon
  split
  · exact (parks.retire f 0).exhaust _
  · exact parks.retire f 0

theorem Parks.abandonAll (fs : List Frame) :
    ∀ {k : Heap H}, h.Parks none k → h.Parks none (fs.foldl Heap.abandon k) := by
  induction fs with
  | nil => exact fun parks => parks
  | cons f fs ih => exact fun parks => ih (parks.abandon f)

end Heap

namespace Session

variable {host : Host H W} {s t u : Session H W} {f : Frame} {rest : List Frame} {e : Error}

def marks (s : Session H W) : List Mark := s.job.frames.map Frame.mark

def Quiet (s : Session H W) : Prop :=
  s.job.frames ≠ [] → s.job.pending = none → s.job.channel = []

structure Stays (s t : Session H W) : Prop where
  marks : t.marks = s.marks
  heap : s.machine.heap.Parks none t.machine.heap

structure Falls (s t : Session H W) : Prop where
  marks : t.marks <:+ s.marks
  heap : s.machine.heap.Parks none t.machine.heap

inductive Shifts (s t : Session H W) : Prop
  | falls : s.Falls t → Shifts s t
  | enters {d : Deferral} : d.Fresh → t.marks = ⟨none, d⟩ :: s.marks →
      s.machine.heap.Parks none t.machine.heap → Shifts s t
  /-- A new frame waits in a new iterator. -/
  | waits {x : Handle} {d : Deferral} : d.Fresh → ¬ s.machine.heap.Issued x → t.marks = s.marks →
      s.machine.heap.Parks (some (x, ⟨some x, d⟩)) t.machine.heap → Shifts s t
  | parks {x : Handle} {d : Deferral} : s.marks = ⟨some x, d⟩ :: t.marks →
      s.machine.heap.Parks (some (x, ⟨some x, d⟩)) t.machine.heap → Shifts s t
  | resumes {x : Handle} {g : Frame} : s.machine.heap.parkedAt x = some g →
      t.marks = g.mark :: s.marks → s.machine.heap.Parks none t.machine.heap → Shifts s t

theorem Stays.refl (accounted : s.machine.heap.Accounted []) : s.Stays s := ⟨rfl, .refl accounted⟩

theorem Stays.falls (stays : s.Stays t) : s.Falls t :=
  ⟨stays.marks ▸ List.suffix_refl _, stays.heap⟩

theorem Stays.thenStays (first : s.Stays t) (second : t.Stays u) : s.Stays u :=
  ⟨second.marks.trans first.marks, first.heap.trans second.heap⟩

theorem Stays.thenFalls (first : s.Stays t) (second : t.Falls u) : s.Falls u :=
  ⟨first.marks ▸ second.marks, first.heap.trans second.heap⟩

theorem Stays.thenShifts (first : s.Stays t) (second : t.Shifts u) : s.Shifts u := by
  cases second with
  | falls falls => exact .falls (first.thenFalls falls)
  | enters fresh marks heap => exact .enters fresh (first.marks ▸ marks) (first.heap.trans heap)
  | waits fresh new marks heap =>
    exact .waits fresh (fun issued => new (first.heap.issued _ issued)) (first.marks ▸ marks)
      (first.heap.trans heap)
  | parks marks heap => exact .parks (first.marks ▸ marks) (first.heap.trans heap)
  | resumes parked marks heap =>
    exact .resumes ((first.heap.parked _ _ parked).resolve_right (by simp)) (first.marks ▸ marks)
      (first.heap.trans heap)

/-! ## Small operations -/

theorem stays_of_frames (frames : t.job.frames = s.job.frames)
    (heap : s.machine.heap.Parks none t.machine.heap) : s.Stays t :=
  ⟨congrArg (List.map Frame.mark) frames, heap⟩

theorem marks_changeTop (change : Frame → Frame) (same : ∀ g, (change g).mark = g.mark) (j : Job) :
    (j.changeTop change).frames.map Frame.mark = j.frames.map Frame.mark := by
  obtain ⟨frames, channel, pending⟩ := j
  cases frames with
  | nil => rfl
  | cons top rest => simp [Job.changeTop, same]

theorem changeTop_channel (change : Frame → Frame) (j : Job) :
    (j.changeTop change).channel = j.channel ∧ (j.changeTop change).pending = j.pending := by
  obtain ⟨frames, channel, pending⟩ := j
  cases frames <;> exact ⟨rfl, rfl⟩

theorem pushAll_mark (vs : List Value) (f : Frame) : (f.pushAll vs).mark = f.mark := by
  have same := f.pushAll_deferral vs
  simp only [Frame.mark, same, (pushAll_same vs f).2]

theorem deliver_stays (accounted : s.machine.heap.Accounted []) (values : List Value) :
    (deliver values).Ensures s (fun _ t => s.Stays t ∧ (s.job.channel = [] → t.Quiet))
      (fun _ _ => False) := by
  obtain ⟨machine, frames, channel, pending⟩ := s
  cases frames with
  | nil => exact ⟨⟨rfl, .refl accounted⟩, fun _ loaded => absurd rfl loaded⟩
  | cons top rest =>
    refine ⟨⟨?_, .refl accounted⟩, fun empty _ _ => empty⟩
    exact congrArg (· :: rest.map Frame.mark) (pushAll_mark _ top)

theorem heap_stays {α : Type} (accounted : s.machine.heap.Accounted []) {op : HeapM H α}
    (keeps : ∀ P, Object.Stable P → ∀ base, op.Keeps (Heap.Later P [] base)) :
    (liftM op : SessionM H W α).Ensures s (fun _ t => s.Stays t ∧ t.job = s.job)
      (fun _ t => s.Stays t) := by
  refine (Effect.ensures_onPart ..).mpr ((Effect.ensures_onPart ..).mpr ?_)
  have parks := Heap.Parks.refl accounted
  exact (Heap.Grows.keeps (fun P stable => keeps P stable _) _ parks.here).mono
    (fun _ _ grows => ⟨stays_of_frames rfl (parks.grows grows), rfl⟩)
    (fun _ _ grows => stays_of_frames rfl (parks.grows grows))

/-! ## Calls -/

theorem gatherArgs_stays (accounted : s.machine.heap.Accounted []) (unit : CodeUnit)
    (args : List Value) :
    (gatherArgs unit args).Ensures s (fun _ t => s.Stays t ∧ t.job = s.job)
      (fun _ t => s.Stays t) := by
  unfold gatherArgs
  split
  · rw [Effect.ensures_bind]
    exact (heap_stays accounted fun _ stable _ => pack_keeps stable _).mono
      (fun _ _ stays => stays) fun _ _ stays => stays
  · exact ⟨.refl accounted, rfl⟩

theorem newFrame_fresh (accounted : s.machine.heap.Accounted []) (unit : CodeUnit)
    (args : List Value) (closure this : Value) :
    (newFrame unit args closure this).Ensures s
      (fun f t => s.Stays t ∧ t.job = s.job ∧ f.generator = none ∧ f.deferral.Fresh)
      (fun _ t => s.Stays t) := by
  refine newFrame_rule
    (fun _ _ => stays_of_frames rfl ((Heap.Parks.refl accounted).disposeAll _))
    fun _ drawn frames _ => ?_
  refine ⟨stays_of_frames rfl (((Heap.Parks.refl accounted).withPools _).disposeAll _), rfl,
    rfl, by simp [Frame.deferral, Frame.reset, Frame.bindArgs], rfl, rfl⟩

/-- A frame that is put into a new iterator is all that is parked besides what was. -/
theorem parks_made (accounted : s.machine.heap.Accounted []) {x : Handle}
    (answer : (s.machine.heap.alloc (.iterator (.ofFrame f))).1 = .owned ⟨.iterator, x⟩) :
    ¬ s.machine.heap.Issued x ∧
      s.machine.heap.Parks (some (x, ⟨some x, f.deferral⟩))
        ((s.machine.heap.alloc (.iterator (.ofFrame f))).2.setObject x
          (.iterator ((Iterator.ofFrame f).bind x))) := by
  have ref : (s.machine.heap.alloc (.iterator (.ofFrame f))).1.ref? = some ⟨.iterator, x⟩ := by
    rw [answer]
    rfl
  obtain ⟨new, found, issued⟩ := (accounted.coded []).made ref
  obtain ⟨-, made⟩ := accounted.object?_made ref
  have later : Heap.Later (fun _ _ => True) [] s.machine.heap
      (s.machine.heap.alloc (.iterator (.ofFrame f))).2 :=
    .alloc ⟨accounted, fun _ _ _ _ _ => trivial, .refl _⟩ fun _ => trivial
  refine ⟨new, later.accounted.setObject ((made x).trans (if_pos rfl)) _, issued,
    fun y g parked => ?_⟩
  obtain ⟨it, object, away⟩ := Heap.parkedAt_eq_some.mp parked
  rw [found] at object
  by_cases same : y = x
  · subst same
    rw [if_pos rfl] at object
    cases object
    cases away
    exact .inr rfl
  · rw [if_neg same] at object
    exact .inl (Heap.parkedAt_eq_some.mpr ⟨it, object, away⟩)

theorem activate_shifts (accounted : s.machine.heap.Accounted []) (unit : CodeUnit)
    (plain : f.generator = none) (fresh : f.deferral.Fresh) (empty : s.job.channel = []) :
    (activate unit f).Ensures s (fun _ t => s.Shifts t ∧ t.Quiet) (fun _ _ => False) := by
  refine activate_rule accounted (fun _ => ?_) fun _ x answer _ _ => ?_
  · refine ⟨.enters fresh ?_ (.refl accounted), fun _ _ => empty⟩
    show f.mark :: s.marks = _
    rw [Frame.mark, plain]
  · obtain ⟨new, placed⟩ := parks_made accounted answer
    refine (deliver_stays placed.accounted _).mono (fun _ t stays => ?_) fun _ _ never => never
    exact ⟨.waits fresh new stays.1.marks (placed.andThen stays.1.heap), stays.2 empty⟩

theorem enter_shifts (accounted : s.machine.heap.Accounted []) (unit : CodeUnit)
    (closure this : Value) :
    (enter unit closure this).Ensures s (fun _ t => s.Shifts t ∧ t.Quiet)
      (fun _ t => s.Stays t) := by
  have stays := Stays.refl accounted
  have drops : ∀ {t : Session H W}, s.Stays t → ∀ vs,
      s.Stays { t with machine := t.machine.dispose vs } := fun stays vs =>
    ⟨stays.marks, stays.heap.disposeAll vs⟩
  let drained : Session H W := { s with job := { s.job with channel := [] } }
  refine enter_rule (fun _ => drops stays _)
    (fun _ => drops (t := drained) ⟨rfl, stays.heap⟩ _) fun _ => ?_
  refine (gatherArgs_stays (s := drained) accounted unit _).mono (fun args t gathered => ?_)
    fun _ t gathered => drops ⟨gathered.marks, gathered.heap⟩ _
  rw [Effect.ensures_bind]
  refine (newFrame_fresh gathered.1.heap.accounted unit args closure this).mono
    (fun f u made => ?_) fun _ u stays =>
      ⟨stays.marks.trans gathered.1.marks, gathered.1.heap.trans stays.heap⟩
  obtain ⟨made, same, plain, fresh⟩ := made
  have here : s.Stays u := ⟨made.marks.trans gathered.1.marks, gathered.1.heap.trans made.heap⟩
  refine (activate_shifts here.heap.accounted unit plain fresh ?_).mono
    (fun _ v shifts => ⟨here.thenShifts shifts.1, shifts.2⟩) fun _ _ never => never.elim
  rw [same, gathered.2]

theorem takeReply_stays {reply : HostReply} {call : HostCall H} {world : W}
    (accounted : s.machine.heap.Accounted [])
    (grows : s.machine.heap.Grows (fun _ => True) call.heap) :
    (takeReply (reply, call, world)).Ensures s (fun _ t => s.Stays t ∧ t.Quiet)
      (fun _ t => s.Stays t) := by
  have finished := (((Heap.Parks.refl accounted).grows grows).disposeAll call.args).disposeAll
    [call.this]
  unfold takeReply
  rw [Effect.ensures_bind, Effect.ensures_modify]
  cases reply with
  | finished =>
    rw [Effect.ensures_bind, ensures_drainChannel]
    refine (deliver_stays finished.accounted _).mono (fun _ t stays => ?_)
      fun _ _ never => never.elim
    exact ⟨⟨stays.1.marks, finished.trans stays.1.heap⟩, stays.2 rfl⟩
  | failed e => exact ⟨rfl, finished⟩
  | task t => exact ⟨⟨rfl, finished⟩, fun _ idle => by cases idle⟩

theorem callHost_stays (plain : host.Plain fun _ => True) (accounted : s.machine.heap.Accounted [])
    (path : String) (function : H) (this : Value) :
    (callHost host path function this).Ensures s (fun _ t => s.Stays t ∧ t.Quiet)
      (fun _ t => s.Stays t) := by
  unfold callHost
  rw [Effect.ensures_bind, ensures_drainChannel, Effect.ensures_bind, Effect.ensures_get]
  obtain ⟨ops, plain, after⟩ := plain function
    { path, cursor := (s.job.frames.head?.map Frame.cursor).getD 0, this, args := s.job.channel
      heap := s.machine.heap } s.machine.world
  have grows := Heap.Grows.after (Heap.Parks.refl accounted).here plain
  exact (takeReply_stays (s := ⟨s.machine, { s.job with channel := [] }⟩) accounted
    (after ▸ grows)).mono (fun _ t stays => ⟨⟨stays.1.marks, stays.1.heap⟩, stays.2⟩)
      fun _ t stays => ⟨stays.marks, stays.heap⟩

theorem invokeValue_shifts (plain : host.Plain fun _ => True)
    (accounted : s.machine.heap.Accounted []) (callee this : Value) :
    (invokeValue host callee this).Ensures s (fun _ t => s.Shifts t ∧ t.Quiet)
      (fun _ t => s.Stays t) := by
  have disposed := fun vs => (Heap.Parks.refl accounted).disposeAll vs
  unfold invokeValue
  rw [Effect.ensures_bind, Effect.ensures_get]
  cases s.machine.heap.callableOf callee with
  | error e => exact ⟨rfl, disposed _⟩
  | ok callable =>
    cases callable with
    | script unit captures => exact enter_shifts accounted unit callee this
    | host path function =>
      have here : s.Stays { s with machine := s.machine.dispose [callee] } := ⟨rfl, disposed _⟩
      exact (callHost_stays plain here.heap.accounted path function this).mono
        (fun _ t stays => ⟨.falls (here.thenStays stays.1).falls, stays.2⟩)
        fun _ t stays => here.thenStays stays

theorem invoke_shifts (plain : host.Plain fun _ => True) (accounted : s.machine.heap.Accounted [])
    (target : CallTarget) (this : Value) :
    (invoke host target this).Ensures s (fun _ t => s.Shifts t ∧ t.Quiet)
      (fun _ t => s.Stays t) := by
  have refused : ∀ e : Error, (dispose [this] >>= fun _ => throw e :
      SessionM H W Unit).Ensures s (fun _ t => s.Shifts t ∧ t.Quiet) (fun _ t => s.Stays t) :=
    fun e => ⟨rfl, (Heap.Parks.refl accounted).disposeAll _⟩
  cases target with
  | value callee => exact invokeValue_shifts plain accounted callee this
  | path path =>
    unfold invoke
    rw [Effect.ensures_bind, Effect.ensures_get]
    simp only
    split
    · exact refused _
    · exact invokeValue_shifts plain accounted _ this
  | unit name =>
    unfold invoke
    rw [Effect.ensures_bind, Effect.ensures_get]
    split
    · exact enter_shifts accounted _ .null this
    · exact refused _

/-! ## Generators -/

theorem suspend_shifts (accounted : s.machine.heap.Accounted []) :
    suspend.Ensures s (fun _ t => s.Shifts t ∧ t.Quiet) (fun _ t => s.Falls t) := by
  unfold suspend
  rw [Effect.ensures_bind, Effect.ensures_get]
  cases frames : s.job.frames with
  | nil => exact ⟨.falls (Stays.refl accounted).falls, fun loaded => absurd frames loaded⟩
  | cons f rest =>
    simp only
    cases belongs : f.generator with
    | none => exact (Stays.refl accounted).falls
    | some x =>
      simp only [Effect.ensures_bind, ensures_changeJob, ensures_drainChannel, Effect.ensures_get]
      have parks := Heap.Parks.refl accounted
      have marks : s.marks = f.mark :: rest.map Frame.mark := by
        rw [marks, frames]
        rfl
      cases found : s.machine.heap.iteratorAt x with
      | ok it =>
        simp only [Effect.ensures_bind, ensures_changeHeap, ensures_dispose, ensures_changeJob]
        have parked : s.machine.heap.Parks (some (x, f.mark))
            (s.machine.heap.setObject x (.iterator (it.park f s.job.channel).2)) :=
          parks.setObject (Heap.iteratorAt_eq_ok found) fun g parked => by
            rw [Iterator.eq_of_park _ parked]
            exact .inr rfl
        have mark : f.mark = ⟨some x, f.deferral⟩ := by rw [Frame.mark, belongs]
        rw [mark] at marks parked
        refine ⟨.parks ?_ (parked.disposeAll _), fun _ _ => (changeTop_channel _ _).1⟩
        rw [marks]
        exact congrArg _ (marks_changeTop (fun caller => { caller with onExhaust := none })
          (fun _ => rfl) { frames := rest, pending := s.job.pending }).symm
      | error e =>
        simp only [Effect.ensures_bind, ensures_dispose, ensures_retire, Effect.ensures_throw]
        exact ⟨marks ▸ List.suffix_cons _ _, (parks.disposeAll _).retire f 0⟩

theorem advance_shifts (accounted : s.machine.heap.Accounted []) (x : Handle) (exhausted : Nat) :
    (advance x exhausted).Ensures s (fun _ t => s.Shifts t ∧ (s.job.channel = [] → t.Quiet))
      (fun _ t => t = s) := by
  have parks := Heap.Parks.refl accounted
  unfold advance
  rw [Effect.ensures_bind, Effect.ensures_get]
  split
  · exact rfl
  simp only [Effect.ensures_bind, Effect.ensures_liftM]
  cases found : s.machine.heap.iteratorAt x with
  | error e => simp only
  | ok it =>
    simp only
    split
    · exact rfl
    cases resumed : it.resume with
    | mk away it' =>
      cases away with
      | none =>
        have stays : s.Stays { s with
            job := s.job.changeTop fun caller => { caller with cursor := exhausted } } :=
          ⟨marks_changeTop _ (fun _ => by rfl) _, parks⟩
        exact ⟨.falls stays.falls, fun empty _ _ => (changeTop_channel _ _).1.trans empty⟩
      | some g =>
        simp only [Effect.ensures_bind, ensures_changeHeap, ensures_changeJob]
        obtain ⟨-, -, parked, -, away, -⟩ := Iterator.resume_eq_some resumed
        have object := Heap.iteratorAt_eq_ok found
        refine ⟨.resumes (Heap.parkedAt_eq_some.mpr ⟨it, object, parked⟩) ?_
            (parks.setObject object fun f parked' => ?_),
          fun empty _ _ => (changeTop_channel _ _).1.trans empty⟩
        · exact congrArg (g.mark :: ·) (marks_changeTop _ (fun _ => by rfl) _)
        · rw [away] at parked'
          cases parked'

end Session

end ScriptMachine
