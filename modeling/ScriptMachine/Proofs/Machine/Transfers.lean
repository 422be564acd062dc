import ScriptMachine.Proofs.Exec.Calm
import ScriptMachine.Proofs.Heap.Generations
import ScriptMachine.Proofs.Machine.Driving
import ScriptMachine.Proofs.Machine.Moves
import ScriptMachine.Proofs.Machine.Recompiled

/-!
# Transfers of control as moves

Everything that a job does to its machine is a run of moves: `Session.Moved` says so of a session
that came out of a heap `h` and a stack `fs`, whatever happened since. While frames are taken off a
stack one after the other, the stack that counts is not yet the one in the job; `Session.At` keeps
the two apart. Host functions use the heap only through its operations.
-/

set_option autoImplicit false

namespace ScriptMachine

variable {H W : Type}

/-! ## Host functions -/

def Object.Plain (Q : CodeUnit → Prop) : Object H → Prop
  | .callable (.script unit _) => Q unit
  | .iterator it => it.isGenerator = false
  | _ => True

/-- An operation that makes no generator, and no code but of units with `Q`. -/
def HeapOp.Plain (Q : CodeUnit → Prop) : HeapOp H → Prop
  | .alloc o => o.Plain Q
  | _ => True

/-- The heap after some operations; one that fails leaves the heap as it was when it failed. -/
def Heap.after (h : Heap H) (ops : List (HeapOp H)) : Heap H :=
  ops.foldl (fun h op => (op.perform.outcome h).2) h

/-- Host functions use the heap only through its operations. They make no generators, and no code
but of units with `Q`. -/
def Host.Plain (Q : CodeUnit → Prop) (host : Host H W) : Prop :=
  ∀ function call w, ∃ ops : List (HeapOp H), (∀ op ∈ ops, op.Plain Q) ∧
    (host.call function call w).2.1.heap = call.heap.after ops

theorem HeapOp.Plain.mono {Q Q' : CodeUnit → Prop} {op : HeapOp H} (plain : op.Plain Q)
    (weaker : ∀ u, Q u → Q' u) : op.Plain Q' := by
  cases op with
  | alloc o =>
    cases o with
    | callable c =>
      cases c with
      | script unit => exact weaker unit plain
      | host => trivial
    | iterator => exact plain
    | _ => trivial
  | _ => trivial

theorem Host.Plain.mono {Q Q' : CodeUnit → Prop} {host : Host H W} (plain : host.Plain Q)
    (weaker : ∀ u, Q u → Q' u) : host.Plain Q' := by
  intro function call w
  obtain ⟨ops, plain, after⟩ := plain function call w
  exact ⟨ops, fun op mem => (plain op mem).mono weaker, after⟩

theorem Heap.Grows.after {Q : CodeUnit → Prop} {h k : Heap H} {ops : List (HeapOp H)}
    (grows : h.Grows Q k) (plain : ∀ op ∈ ops, op.Plain Q) : h.Grows Q (k.after ops) := by
  induction ops generalizing k with
  | nil => exact grows
  | cons op ops ih =>
    obtain ⟨first, rest⟩ := List.forall_mem_cons.mp plain
    refine ih ?_ rest
    have new : ∀ o, op = .alloc o → ∀ x, o.Calm Q h x := by
      rintro o rfl x
      cases o with
      | callable c =>
        cases c with
        | script => exact first
        | host => trivial
      | iterator it =>
        intro generates
        rw [show it.isGenerator = false from first] at generates
        cases generates
      | _ => trivial
    have kept := perform_keeps (Object.Calm.stable Q h) op new k grows
    simp only [Effect.outcome]
    cases ran : op.perform k with
    | ok a t => exact (Effect.ensures_of_eq_ok ran).mp kept
    | error e t => exact (Effect.ensures_of_eq_error ran).mp kept

/-- Telling of an error lets the value go that it threw. -/
theorem Heap.Coded.uncaught {Q : CodeUnit → Prop} {h : Heap H} {fs : List Frame}
    (coded : h.Coded Q fs) (e : Error) : h.Grows Q (h.uncaught e).2 := by
  unfold Heap.uncaught
  split
  · exact coded.here.dispose _
  · exact coded.here
  · exact coded.here

/-! ## Sessions -/

structure Machine.Moved (p : Heap.Permits) (h : Heap H) (fs gs : List Frame)
    (m : Machine H W) : Prop where
  moves : Heap.Moves p h fs m.heap gs
  coded : m.heap.Coded p.code gs
  units : m.units.Codes p.code

theorem Machine.Moved.move {p : Heap.Permits} {h k : Heap H} {fs gs ks : List Frame}
    {m : Machine H W} (moved : m.Moved p h fs gs) (move : Heap.Move p m.heap gs k ks) :
    { m with heap := k }.Moved p h fs ks :=
  ⟨moved.moves.tail move, move.coded moved.coded, moved.units⟩

def Heap.abandon (h : Heap H) (f : Frame) : Heap H :=
  match f.generator with
  | some x => (h.retire f 0).2.exhaust x
  | none => (h.retire f 0).2

def Machine.abandon (m : Machine H W) (fs : List Frame) : Machine H W :=
  { m with heap := fs.foldl Heap.abandon m.heap }

namespace Session

section Rules
variable {s : Session H W} {fail : Error → Session H W → Prop}

@[simp] theorem ensures_note (topic : Topic) (severity : Severity)
    (post : Unit → Session H W → Prop) :
    (note topic severity).Ensures s post fail ↔
      post () { s with machine := s.machine.note topic severity } := Iff.rfl

@[simp] theorem ensures_dispose (vs : List Value) (post : Unit → Session H W → Prop) :
    (dispose vs).Ensures s post fail ↔ post () { s with machine := s.machine.dispose vs } := Iff.rfl

@[simp] theorem ensures_changeHeap (change : Heap H → Heap H)
    (post : Unit → Session H W → Prop) :
    (changeHeap change).Ensures s post fail ↔
      post () { s with machine := { s.machine with heap := change s.machine.heap } } := Iff.rfl

@[simp] theorem ensures_changeJob (change : Job → Job) (post : Unit → Session H W → Prop) :
    (changeJob change).Ensures s post fail ↔ post () { s with job := change s.job } := Iff.rfl

@[simp] theorem ensures_drainChannel (post : List Value → Session H W → Prop) :
    drainChannel.Ensures s post fail ↔
      post s.job.channel { s with job := { s.job with channel := [] } } := Iff.rfl

@[simp] theorem ensures_retire (frame : Frame) (mask : UInt64)
    (post : List Value → Session H W → Prop) :
    (retire frame mask).Ensures s post fail ↔
      post (s.machine.heap.retire frame mask).1
        { s with machine := { s.machine with heap := (s.machine.heap.retire frame mask).2 } } :=
  Iff.rfl

theorem ensures_routing (op : SessionM H W Unit) (post : Unit → Session H W → Prop) :
    (routing op).Ensures s post fail ↔
      op.Ensures s post (fun e t => (raise e).Ensures t post fail) := by
  unfold Effect.Ensures routing
  cases op s <;> rfl

end Rules

structure At (p : Heap.Permits) (h : Heap H) (fs gs js : List Frame) (s : Session H W) :
    Prop where
  machine : s.machine.Moved p h fs gs
  frames : s.job.frames = js

def Moved (p : Heap.Permits) (h : Heap H) (fs : List Frame) (s : Session H W) : Prop :=
  s.machine.Moved p h fs s.job.frames

section
variable {α : Type} {p : Heap.Permits} {h : Heap H} {fs gs js : List Frame} {f : Frame}
  {s : Session H W}

theorem At.moved (here : s.At p h fs gs gs) : s.Moved p h fs := by
  unfold Moved
  rw [here.frames]
  exact here.machine

theorem Moved.here (moved : s.Moved p h fs) : s.At p h fs s.job.frames s.job.frames :=
  ⟨moved, rfl⟩

theorem At.move {k : Heap H} {ks : List Frame} (here : s.At p h fs gs js)
    (move : Heap.Move p s.machine.heap gs k ks) :
    At p h fs ks js { s with machine := { s.machine with heap := k } } :=
  ⟨here.machine.move move, here.frames⟩

theorem At.step {ks : List Frame} (here : s.At p h fs gs js)
    (move : Heap.Move p s.machine.heap gs s.machine.heap ks) : s.At p h fs ks js :=
  ⟨here.machine.move move, here.frames⟩

theorem At.setFrames (here : s.At p h fs gs js) (ks : List Frame) :
    At p h fs gs ks { s with job := { s.job with frames := ks } } :=
  ⟨here.machine, rfl⟩

theorem At.replace (here : s.At p h fs (f :: gs) js) (g : Frame) (unit : g.unit = f.unit)
    (generator : g.generator = f.generator) :
    At p h fs (g :: gs) (g :: gs) { s with job := { s.job with frames := g :: gs } } :=
  (here.step (.edit unit generator)).setFrames _

theorem At.note (here : s.At p h fs gs js) (topic : Topic) (severity : Severity) :
    At p h fs gs js { s with machine := s.machine.note topic severity } :=
  ⟨⟨here.machine.moves, here.machine.coded, here.machine.units⟩, here.frames⟩

theorem At.dispose (here : s.At p h fs gs js) (vs : List Value) :
    At p h fs gs js { s with machine := s.machine.dispose vs } :=
  here.move (.heap (here.machine.coded.here.disposeAll vs))

theorem moved_of_at {op : SessionM H W α} (keeps : ∀ gs, op.Keeps (At p h fs gs gs)) :
    op.Keeps (Moved p h fs) := by
  intro s moved
  exact (keeps _ s moved.here).mono (fun _ _ here => here.moved) (fun _ _ here => here.moved)

/-! ### Small operations -/

theorem note_at (topic : Topic) (severity : Severity) :
    (note topic severity : SessionM H W Unit).Keeps (At p h fs gs js) :=
  .modify fun _ here => here.note topic severity

theorem dispose_at (vs : List Value) :
    (dispose vs : SessionM H W Unit).Keeps (At p h fs gs js) :=
  .modify fun _ here => here.dispose vs

theorem changeJob_at (change : Job → Job) (same : ∀ j, (change j).frames = j.frames) :
    (changeJob change : SessionM H W Unit).Keeps (At p h fs gs js) :=
  .modify fun s here => ⟨here.machine, (same s.job).trans here.frames⟩

theorem drainChannel_at :
    (drainChannel : SessionM H W (List Value)).Keeps (At p h fs gs js) := by
  intro s here
  exact ((changeJob_at (fun j => { j with channel := [] }) fun _ => rfl).bind fun _ =>
    .pure _ s.job.channel) s here

theorem clearChannel_at : (clearChannel : SessionM H W Unit).Keeps (At p h fs gs js) :=
  drainChannel_at.bind dispose_at

theorem heap_at {op : HeapM H α}
    (keeps : ∀ P, Object.Stable P → ∀ base, op.Keeps (Heap.Later P [] base)) :
    (liftM op : SessionM H W α).Keeps (At p h fs gs js) := by
  intro s here
  refine (Effect.ensures_onPart ..).mpr ((Effect.ensures_onPart ..).mpr ?_)
  exact (Heap.Grows.keeps (fun P stable => keeps P stable _) _ here.machine.coded.here).mono
    (fun _ _ grows => here.move (.heap grows)) (fun _ _ grows => here.move (.heap grows))

theorem changeTop_keeps (change : Frame → Frame)
    (same : ∀ g, (change g).unit = g.unit ∧ (change g).generator = g.generator) :
    (changeJob fun j => j.changeTop change : SessionM H W Unit).Keeps (Moved p h fs) := by
  refine .modify fun s moved => ?_
  obtain ⟨machine, frames, channel, pending⟩ := s
  cases frames with
  | nil => exact moved
  | cons top rest =>
    exact (moved.here.replace (change top) (same top).1 (same top).2).moved

theorem pushAll_same (vs : List Value) (g : Frame) :
    (g.pushAll vs).unit = g.unit ∧ (g.pushAll vs).generator = g.generator := by
  induction vs generalizing g with
  | nil => exact ⟨rfl, rfl⟩
  | cons v vs ih => exact ih (g.push v)

theorem deliver_keeps (values : List Value) :
    (deliver values : SessionM H W Unit).Keeps (Moved p h fs) := by
  refine .modify fun s moved => ?_
  obtain ⟨machine, frames, channel, pending⟩ := s
  cases frames with
  | nil => exact moved
  | cons top rest =>
    have same := pushAll_same (if values.isEmpty then [.null] else values) top
    exact (moved.here.replace _ same.1 same.2).moved

theorem At.retire (here : s.At p h fs gs js) (frame : Frame) (mask : UInt64) :
    At p h fs gs js
      { s with machine := { s.machine with heap := (s.machine.heap.retire frame mask).2 } } :=
  here.move (.heap (((here.machine.coded.here.disposeAll _).disposeAll _).withPools _))

/-! ### Frames that are left -/

theorem abandon_eq (f : Frame) (m : Machine H W) (j : Job) :
    abandon f ⟨m, j⟩ = .ok () ⟨m.abandon [f], j⟩ := by
  refine Effect.eq_ok_of_ensures ?_
  simp only [abandon, Effect.ensures_bind, ensures_retire]
  cases belongs : f.generator with
  | none => simp [Machine.abandon, Heap.abandon, belongs]
  | some x => simp [Machine.abandon, Heap.abandon, belongs]

theorem abandonFrames_eq (fs : List Frame) (j : Job) :
    ∀ m : Machine H W,
      (fs.forM abandon : SessionM H W PUnit) ⟨m, j⟩ = .ok ⟨⟩ ⟨m.abandon fs, j⟩ := by
  induction fs with
  | nil => exact fun _ => rfl
  | cons f fs ih =>
    intro m
    show EStateM.bind (abandon f) (fun _ => fs.forM abandon) ⟨m, j⟩ = _
    simp only [EStateM.bind, abandon_eq, ih]
    rfl

def torn (m : Machine H W) (j : Job) : Machine H W :=
  ((if j.frames.isEmpty then m else m.note .engine .debug).abandon j.frames).dispose j.channel

theorem teardown_eq (m : Machine H W) (j : Job) : teardown ⟨m, j⟩ = .ok () ⟨torn m j, {}⟩ := by
  refine Effect.eq_ok_of_ensures ?_
  have rest : ∀ m : Machine H W, (abandonAll >>= fun _ =>
      changeJob (fun j => { j with pending := none }) >>= fun _ => clearChannel :
        SessionM H W Unit).Ensures ⟨m, j⟩
          (fun a t => a = () ∧ t = ⟨(m.abandon j.frames).dispose j.channel, {}⟩)
          fun _ _ => False := by
    intro m
    simp only [abandonAll, clearChannel, Effect.ensures_bind, Effect.ensures_get]
    rw [Effect.ensures_of_eq_ok (abandonFrames_eq ..)]
    exact ⟨trivial, rfl⟩
  unfold teardown torn
  rw [Effect.ensures_bind, Effect.ensures_get]
  cases j.frames.isEmpty with
  | true => exact rest m
  | false => exact rest (m.note .engine .debug)

theorem torn_heap (m : Machine H W) (j : Job) :
    (torn m j).heap = (j.frames.foldl Heap.abandon m.heap).disposeAll j.channel := by
  unfold torn
  cases j.frames.isEmpty <;> rfl

theorem ensures_abandon (here : s.At p h fs (f :: gs) js) :
    (abandon f).Ensures s (fun _ => At p h fs gs js) (fun _ _ => False) := by
  have retired := here.retire f 0
  simp only [abandon, Effect.ensures_bind, ensures_retire]
  cases belongs : f.generator with
  | none => exact retired.step (.leave belongs)
  | some x => exact retired.move (.finish belongs)

theorem ensures_abandonFrames :
    ∀ {gs : List Frame} {s : Session H W}, s.At p h fs gs js →
      (gs.forM abandon).Ensures s (fun _ => At p h fs [] js) (fun _ _ => False) := by
  intro gs
  induction gs with
  | nil => exact fun here => here
  | cons f gs ih =>
    intro s here
    refine (Effect.ensures_bind ..).mpr ?_
    exact (ensures_abandon here).mono (fun _ _ here => ih here) fun _ _ never => never

theorem abandonAll_keeps : (abandonAll : SessionM H W Unit).Keeps (Moved p h fs) := by
  intro s moved
  unfold abandonAll
  simp only [Effect.ensures_bind, Effect.ensures_get]
  refine (ensures_abandonFrames moved.here).mono (fun _ t here => ?_) fun _ _ never => never.elim
  exact (here.setFrames []).moved

theorem ensures_unwind (e : Error) :
    ∀ {gs : List Frame} {s : Session H W}, s.At p h fs gs js →
      (unwind e gs).Ensures s (fun _ => Moved p h fs) (fun _ => Moved p h fs) := by
  intro gs
  induction gs with
  | nil => exact fun here => (here.setFrames []).moved
  | cons f gs ih =>
    intro s here
    unfold unwind
    split
    · rename_i handler _
      simp only [Effect.ensures_bind, ensures_dispose, ensures_note, ensures_changeJob]
      have noted := (here.dispose f.stack.reverse).note .engine .debug
      exact (noted.replace (f.trapped handler e) rfl rfl).moved
    · rename_i entry _ _
      simp only [Effect.ensures_bind, ensures_dispose, ensures_changeJob]
      have held := (here.dispose f.stack.reverse).replace (f.holdError entry e) rfl rfl
      exact ((held.dispose f.thrownValues).dispose f.returnedValues).moved
    · rw [Effect.ensures_bind]
      exact (ensures_abandon here).mono (fun _ _ here => ih here) fun _ _ never => never.elim

theorem raise_keeps (e : Error) : (raise e : SessionM H W Unit).Keeps (Moved p h fs) := by
  refine (moved_of_at fun _ => clearChannel_at).bind fun _ => ?_
  split
  · exact (moved_of_at fun _ => note_at _ _).bind fun _ => abandonAll_keeps.bind fun _ => .throw _ _
  · exact fun s moved => ensures_unwind e moved.here

theorem teardown_keeps : (teardown : SessionM H W Unit).Keeps (Moved p h fs) := by
  intro s moved
  have rest : (abandonAll >>= fun _ => changeJob (fun j => { j with pending := none }) >>= fun _ =>
      clearChannel : SessionM H W Unit).Keeps (Moved p h fs) :=
    abandonAll_keeps.bind fun _ =>
      (moved_of_at fun _ => changeJob_at (fun j => { j with pending := none }) fun _ => rfl).bind
        fun _ => moved_of_at fun _ => clearChannel_at
  unfold teardown
  simp only [Effect.ensures_bind, Effect.ensures_get] at rest ⊢
  by_cases empty : s.job.frames.isEmpty
  · simp only [empty]
    exact rest s moved
  · simp only [empty]
    exact rest _ (moved.here.note .engine .debug).moved

/-! ### Calls -/

theorem gatherArgs_at (unit : CodeUnit) (args : List Value) :
    (gatherArgs unit args : SessionM H W (List Value)).Keeps (At p h fs gs js) := by
  unfold gatherArgs
  split
  · exact (heap_at fun _ stable _ => pack_keeps stable _).bind fun _ => .pure _ _
  · exact .pure _ _

/-- A frame comes from the pool, if the slots of the unit fit. The arguments that find no slot in it
are disposed. -/
theorem newFrame_rule {unit : CodeUnit} {args : List Value} {closure this : Value}
    {post : Frame → Session H W → Prop} {fail : Error → Session H W → Prop}
    (misfits : ∀ panic, unit.misfit? = some panic → fail (.ofPanic panic)
      { s with machine := s.machine.dispose (args ++ [closure, this]) })
    (fits : unit.misfit? = none → ∀ drawn frames,
      s.machine.heap.pools.frames.checkout unit.frameCapacity = (drawn, frames) →
      post { ((drawn.reset unit).bindArgs args).2 with closure, this }
        ⟨({ s.machine with heap := { s.machine.heap with pools :=
            { s.machine.heap.pools with frames } } } : Machine H W).dispose
          ((drawn.reset unit).bindArgs args).1, s.job⟩) :
    (newFrame unit args closure this).Ensures s post fail := by
  unfold newFrame
  split
  · rename_i panic misfit
    exact misfits panic misfit
  · rename_i fit
    exact fits fit _ _ rfl

theorem ensures_newFrame {unit : CodeUnit} (code : p.code unit) (here : s.At p h fs gs js)
    (args : List Value) (closure this : Value) :
    (newFrame unit args closure this).Ensures s
      (fun frame t => t.At p h fs gs js ∧ frame.generator = none ∧ frame.Codes p.code)
      (fun _ t => t.At p h fs gs js) := by
  refine newFrame_rule (fun _ _ => At.dispose here _) fun _ drawn frames _ => ?_
  have taken := here.move (.heap (here.machine.coded.here.withPools
    { s.machine.heap.pools with frames }))
  refine ⟨taken.dispose _, rfl, fun u found => ?_⟩
  cases found
  exact code

/-- A frame goes onto the stack. That of a generator goes into a new iterator, which is delivered.
-/
theorem activate_rule {unit : CodeUnit} {post : Session H W → Prop}
    {fail : Error → Session H W → Prop} (accounted : s.machine.heap.Accounted [])
    (runs : unit.generator = false → post { s with
      machine := s.machine.note .engine .trace
      job := { s.job with frames := f :: s.job.frames } })
    (waits : unit.generator = true → ∀ x,
      (s.machine.heap.alloc (.iterator (.ofFrame f))).1 = .owned ⟨.iterator, x⟩ →
      ¬ s.machine.heap.Issued x →
      (∀ y, (s.machine.heap.alloc (.iterator (.ofFrame f))).2.object? y =
        if y = x then some (.iterator (.ofFrame f)) else s.machine.heap.object? y) →
      (deliver [.owned ⟨.iterator, x⟩]).Ensures { s with machine := { s.machine.note .engine .trace with
        heap := (s.machine.heap.alloc (.iterator (.ofFrame f))).2.setObject x
          (.iterator ((Iterator.ofFrame f).bind x)) } } (fun _ => post) fail) :
    (activate unit f).Ensures s (fun _ => post) fail := by
  unfold activate
  rw [Effect.ensures_bind, ensures_note]
  cases generates : unit.generator with
  | false => exact runs generates
  | true =>
    simp only [if_true, Effect.ensures_bind, Effect.ensures_get, ensures_changeHeap]
    rw [show (s.machine.note .engine .trace).heap = s.machine.heap from rfl]
    obtain ⟨x, answer, new, found⟩ := accounted.object?_alloc (.iterator (.ofFrame f))
    have delivered := waits generates x answer new found
    rw [answer]
    exact delivered

theorem ensures_activate (unit : CodeUnit) (moved : s.Moved p h fs)
    (loaded : p.start ∨ s.job.frames ≠ []) (plain : f.generator = none) (code : f.Codes p.code) :
    (activate unit f).Ensures s (fun _ => Moved p h fs) (fun _ => Moved p h fs) := by
  have noted := moved.here.note .engine .trace
  refine activate_rule noted.machine.coded.accounted (fun _ => ?_) fun _ x answer _ _ => ?_
  · exact ((noted.step (.enter loaded plain code)).setFrames _).moved
  · have made := noted.move (.make plain code (congrArg Value.ref? answer))
    exact deliver_keeps _ _ made.moved

theorem enter_rule {unit : CodeUnit} {closure this : Value} {post : Session H W → Prop}
    {fail : Error → Session H W → Prop}
    (full : s.atDepthLimit = true → fail (depthExceeded s.machine.config.maxFrames)
      { s with machine := s.machine.dispose [closure, this] })
    (refused : unit.accepts s.job.channel.length = false →
      fail (.ofFault (.parameterCount unit.name unit.fixedParams s.job.channel.length))
        { machine := s.machine.dispose (s.job.channel ++ [closure, this])
          job := { s.job with channel := [] } })
    (entered : unit.accepts s.job.channel.length = true →
      (gatherArgs unit s.job.channel).Ensures { s with job := { s.job with channel := [] } }
        (fun args t => (newFrame unit args closure this >>= activate unit).Ensures t
          (fun _ => post) fail)
        (fun e t => fail e
          { t with machine := t.machine.dispose (s.job.channel.take unit.fixedParams ++
            [closure, this]) })) :
    (enter unit closure this).Ensures s (fun _ => post) fail := by
  unfold enter
  rw [Effect.ensures_bind, Effect.ensures_get]
  split
  · rename_i limit
    exact full limit
  rw [Effect.ensures_bind, ensures_drainChannel]
  split
  · rename_i refuses
    exact refused (by simpa using refuses)
  · rename_i accepts
    rw [Effect.ensures_bind, Effect.ensures_onFailure]
    exact entered (by simpa using accepts)

theorem ensures_enter {unit : CodeUnit} (code : p.code unit) (closure this : Value)
    (moved : s.Moved p h fs) (loaded : p.start ∨ s.job.frames ≠ []) :
    (enter unit closure this).Ensures s (fun _ => Moved p h fs) (fun _ => Moved p h fs) := by
  have drained : At p h fs s.job.frames s.job.frames
      { s with job := { s.job with channel := [] } } := ⟨moved, rfl⟩
  refine enter_rule (fun _ => (moved.here.dispose _).moved) (fun _ => (drained.dispose _).moved)
    fun _ => ?_
  refine (gatherArgs_at unit _ _ drained).mono (fun args t here => ?_)
    fun _ t here => (here.dispose _).moved
  rw [Effect.ensures_bind]
  refine (ensures_newFrame code here args closure this).mono (fun frame u made => ?_)
    fun _ _ here => here.moved
  obtain ⟨here, plain, code⟩ := made
  exact ensures_activate unit here.moved (here.frames ▸ loaded) plain code

theorem takeReply_keeps {reply : HostReply} {call : HostCall H} {world : W}
    (moved : s.Moved p h fs) (grows : s.machine.heap.Grows p.code call.heap) :
    (takeReply (reply, call, world)).Ensures s (fun _ => Moved p h fs) (fun _ => Moved p h fs) := by
  unfold takeReply
  rw [Effect.ensures_bind, Effect.ensures_modify]
  have taken := moved.here.move (.heap (k := call.finish) ((grows.disposeAll _).dispose _))
  have here : At p h fs s.job.frames s.job.frames
      { machine := { s.machine with heap := call.finish, world }
        job := { s.job with channel := call.returned } } :=
    ⟨⟨taken.machine.moves, taken.machine.coded, taken.machine.units⟩, rfl⟩
  cases reply with
  | finished => exact ((moved_of_at fun _ => drainChannel_at).bind deliver_keeps) _ here.moved
  | failed e => exact here.moved
  | task t =>
    exact ((moved_of_at fun _ => changeJob_at (fun j => { j with pending := some t }) fun _ =>
      rfl).bind fun _ => moved_of_at fun _ => note_at .engine .trace) _ here.moved

theorem callHost_keeps {host : Host H W} (plain : host.Plain p.code) (path : String) (function : H)
    (this : Value) : (callHost host path function this).Keeps (Moved p h fs) := by
  refine (moved_of_at fun _ => drainChannel_at).bind fun args => .get_bind fun s moved => ?_
  obtain ⟨ops, plain, after⟩ := plain function
    { path, cursor := (s.job.frames.head?.map Frame.cursor).getD 0, this, args
      heap := s.machine.heap } s.machine.world
  exact takeReply_keeps moved (after ▸ Heap.Grows.after moved.coded.here plain)

theorem ensures_invokeValue {host : Host H W} (plain : host.Plain p.code) (callee this : Value)
    (moved : s.Moved p h fs) (loaded : p.start ∨ s.job.frames ≠ []) :
    (invokeValue host callee this).Ensures s (fun _ => Moved p h fs) (fun _ => Moved p h fs) := by
  unfold invokeValue
  rw [Effect.ensures_bind, Effect.ensures_get]
  cases found : s.machine.heap.callableOf callee with
  | error e => exact ((moved_of_at fun _ => dispose_at _).bind fun _ => .throw _ _) s moved
  | ok callable =>
    cases callable with
    | script unit captures =>
      exact ensures_enter (moved.coded.closure found) callee this moved loaded
    | host path function =>
      exact ((moved_of_at fun _ => dispose_at _).bind fun _ =>
        callHost_keeps plain path function this) s moved

theorem ensures_invoke {host : Host H W} (plain : host.Plain p.code) (target : CallTarget)
    (this : Value) (moved : s.Moved p h fs) (loaded : p.start ∨ s.job.frames ≠ []) :
    (invoke host target this).Ensures s (fun _ => Moved p h fs) (fun _ => Moved p h fs) := by
  have refused : ∀ e : Error, (dispose [this] >>= fun _ => throw e :
      SessionM H W Unit).Ensures s (fun _ => Moved p h fs) (fun _ => Moved p h fs) :=
    fun e => ((moved_of_at fun _ => dispose_at _).bind fun _ => .throw _ _) s moved
  cases target with
  | value callee => exact ensures_invokeValue plain callee this moved loaded
  | path path =>
    have chosen : ∀ callee : Value, (if callee.isNull then
        dispose [this] >>= fun _ => throw (notCallable path)
        else invokeValue host callee this).Ensures s (fun _ => Moved p h fs)
          (fun _ => Moved p h fs) := by
      intro callee
      split
      · exact refused _
      · exact ensures_invokeValue plain _ this moved loaded
    exact chosen (s.machine.globals.load path)
  | unit name =>
    unfold invoke
    rw [Effect.ensures_bind, Effect.ensures_get]
    cases found : SortedMap.get? s.machine.units name with
    | none => exact refused _
    | some unit => exact ensures_enter (moved.units name unit found) .null this moved loaded

/-! ### Returns and generators -/

theorem ensures_holdExit (here : s.At p h fs (f :: gs) js) (entry : Nat) (exit : Exit) :
    (holdExit f gs entry exit).Ensures s (fun _ => Moved p h fs) (fun _ => Moved p h fs) := by
  cases exit with
  | values =>
    exact ((here.replace { f with
      pendingReturn := some (.values s.job.channel), cursor := entry } rfl rfl).dispose _).moved
  | locals mask =>
    exact ((here.replace { f with
      pendingReturn := some (.locals mask), cursor := entry } rfl rfl).dispose _).moved

theorem ensures_handOver (here : s.At p h fs (f :: gs) gs) (returned : List Value) :
    (handOver f returned).Ensures s (fun _ => Moved p h fs) (fun _ => Moved p h fs) := by
  unfold handOver
  cases belongs : f.generator with
  | none => exact deliver_keeps returned s (here.step (.leave belongs)).moved
  | some x =>
    simp only [endGenerator, Effect.ensures_bind, ensures_dispose, ensures_changeHeap]
    have gone := (here.dispose returned).move (.finish belongs)
    refine changeTop_keeps _ (fun g => ?_) _ gone.moved
    cases g.onExhaust <;> exact ⟨rfl, rfl⟩

theorem leave_keeps (exit : Exit) : (leave exit : SessionM H W Unit).Keeps (Moved p h fs) := by
  refine .get_bind fun s moved => ?_
  have here := moved.here
  cases frames : s.job.frames with
  | nil => exact moved
  | cons f rest =>
    rw [frames] at here
    simp only
    cases diverted : f.diversion with
    | some entry => exact ensures_holdExit here entry exit
    | none =>
      simp only [Effect.ensures_bind, ensures_changeJob]
      have popped := here.setFrames rest
      cases exit with
      | values =>
        simp only [Effect.ensures_bind, ensures_drainChannel, ensures_retire, Effect.ensures_pure]
        have drained : At p h fs (f :: rest) rest
            { s with job := { s.job with frames := rest, channel := [] } } := ⟨popped.machine, rfl⟩
        exact ensures_handOver (drained.retire f 0) s.job.channel
      | locals mask =>
        simp only [Effect.ensures_bind, ensures_retire]
        exact ensures_handOver (popped.retire f mask) _

theorem suspend_keeps (parks : p.park) :
    (suspend : SessionM H W Unit).Keeps (Moved p h fs) := by
  refine .get_bind fun s moved => ?_
  have here := moved.here
  cases frames : s.job.frames with
  | nil => exact moved
  | cons f rest =>
    rw [frames] at here
    simp only
    cases belongs : f.generator with
    | none => exact moved
    | some x =>
      simp only [Effect.ensures_bind, ensures_changeJob, ensures_drainChannel, Effect.ensures_get]
      have popped : At p h fs (f :: rest) rest
          { s with job := { s.job with frames := rest, channel := [] } } := ⟨here.machine, rfl⟩
      cases found : s.machine.heap.iteratorAt x with
      | ok it =>
        simp only [Effect.ensures_bind, ensures_changeHeap, ensures_dispose]
        have parked := popped.move (.park s.job.channel parks belongs found)
        exact changeTop_keeps (fun caller => { caller with onExhaust := none })
          (fun _ => ⟨rfl, rfl⟩) _ (parked.dispose _).moved
      | error e =>
        -- the iterator is gone, so ending the generator changes nothing
        simp only [Effect.ensures_bind, ensures_dispose, ensures_retire, Effect.ensures_throw]
        have gone := popped.move (.finish belongs)
        simp only [Heap.exhaust_of_error found] at gone
        exact ((gone.dispose s.job.channel).retire f 0).moved

theorem ensures_advance (x : Handle) (exhausted : Nat) (moved : s.Moved p h fs)
    (loaded : p.start ∨ s.job.frames ≠ []) :
    (advance x exhausted).Ensures s (fun _ => Moved p h fs) (fun _ => Moved p h fs) := by
  unfold advance
  rw [Effect.ensures_bind, Effect.ensures_get]
  split
  · exact moved
  simp only [Effect.ensures_bind, Effect.ensures_liftM]
  cases found : s.machine.heap.iteratorAt x with
  | error e => exact moved
  | ok it =>
    simp only
    split
    · exact moved
    rename_i running
    cases resumed : it.resume with
    | mk away it' =>
      cases away with
      | none =>
        exact changeTop_keeps (fun caller => { caller with cursor := exhausted })
          (fun _ => ⟨rfl, rfl⟩) s moved
      | some frame =>
        simp only [Effect.ensures_bind, ensures_changeHeap, ensures_changeJob]
        obtain ⟨machine, frames, channel, pending⟩ := s
        cases frames with
        | nil =>
          exact ((moved.here.move (.resume loaded found running resumed)).setFrames
            [frame]).moved
        | cons caller rest =>
          have marked := moved.here.replace { caller with onExhaust := some exhausted } rfl rfl
          exact ((marked.move (.resume (Or.inr (by simp)) found running resumed)).setFrames
            (frame :: { caller with onExhaust := some exhausted } :: rest)).moved

theorem advance_fails (x : Handle) (exhausted : Nat) (s : Session H W) :
    (advance x exhausted).Ensures s (fun _ _ => True) (fun _ t => t = s) := by
  unfold advance
  rw [Effect.ensures_bind, Effect.ensures_get]
  split
  · exact rfl
  simp only [Effect.ensures_bind, Effect.ensures_liftM]
  cases s.machine.heap.iteratorAt x with
  | error e => simp only
  | ok it =>
    simp only
    split
    · exact rfl
    · cases it.resume with
      | mk away it' => cases away <;> exact trivial

/-! ### Steps and runs -/

theorem ensures_follow {host : Host H W} (plain : host.Plain p.code) (flow : Flow)
    (parks : flow = .yield → p.park) (moved : s.Moved p h fs)
    (loaded : p.start ∨ s.job.frames ≠ []) :
    (follow host flow).Ensures s (fun _ => Moved p h fs) (fun _ => Moved p h fs) := by
  cases flow with
  | next => exact moved
  | jump target =>
    exact changeTop_keeps (fun f => { f with cursor := target }) (fun _ => ⟨rfl, rfl⟩) s moved
  | call target this => exact ensures_invoke plain target this moved loaded
  | ret => exact leave_keeps .values s moved
  | returnLocals mask => exact leave_keeps (.locals mask) s moved
  | yield => exact suspend_keeps (parks rfl) s moved
  | finalize =>
    exact ((moved_of_at fun _ => clearChannel_at).bind fun _ => leave_keeps .values) s moved
  | advance x exhausted => exact ensures_advance x exhausted moved loaded

theorem apply_keeps {host : Host H W} (plain : host.Plain p.code) (flow : Flow) (next : Nat)
    (parks : flow = .yield → p.park) : (apply host flow next).Keeps (Moved p h fs) := by
  refine .get_bind fun s moved => ?_
  obtain ⟨machine, frames, channel, pending⟩ := s
  cases frames with
  | nil => exact moved
  | cons f rest =>
    have placed := moved.here.replace { f with cursor := next } rfl rfl
    exact ensures_follow plain flow parks placed.moved (Or.inr (by simp [Job.changeTop]))

def yielded (f : Frame) (s : Session H W) : Option (List Value) :=
  match f.unit.bind (·.stepAt? f.cursor) with
  | some step =>
    match Exec.action s.machine.units step.action (context f s) with
    | .ok .yield c => some c.channel
    | _ => none
  | none => none

theorem Moved.withContext (moved : s.Moved p h fs) {rest : List Frame}
    (frames : s.job.frames = f :: rest) {c : Context H} (calm : c.Calm p.code s.machine.heap f) :
    (Session.withContext c s).Moved p h fs := by
  have here := moved.here
  rw [frames] at here
  have stepped := (here.move (.heap calm.heap)).replace c.frame calm.unit calm.generator
  obtain ⟨machine, job⟩ := s
  obtain ⟨js, channel, pending⟩ := job
  cases frames
  exact ⟨stepped.machine.moves, stepped.machine.coded, stepped.machine.units⟩

theorem ensures_executeStep {host : Host H W} (plain : host.Plain p.code) (moved : s.Moved p h fs)
    {rest : List Frame} (frames : s.job.frames = f :: rest)
    (parks : p.park ∨ yielded f s = none) :
    (executeStep host f).Ensures s (fun _ => Moved p h fs) (fun _ => Moved p h fs) := by
  unfold executeStep
  cases runs : f.unit with
  | none => exact moved
  | some unit =>
    simp only
    cases found : unit.stepAt? f.cursor with
    | none =>
      simp only
      split
      · exact apply_keeps plain .ret f.cursor (fun ret => by cases ret) s moved
      · exact moved
    | some step =>
      simp only [Effect.ensures_bind, Effect.ensures_get, Effect.ensures_onPart]
      have acts := Exec.action_keeps (h := s.machine.heap) (f := f) moved.units step.action
        (context f s) ⟨moved.coded.here, rfl, rfl⟩
      cases ran : Exec.action s.machine.units step.action (context f s) with
      | error e c =>
        rw [Effect.ensures_of_eq_error ran] at acts ⊢
        exact moved.withContext frames acts
      | ok flow c =>
        rw [Effect.ensures_of_eq_ok ran] at acts ⊢
        refine apply_keeps plain flow _ ?_ _ (moved.withContext frames acts)
        rintro rfl
        refine parks.resolve_right ?_
        simp [yielded, runs, found, ran]

theorem routing_keeps {op : SessionM H W Unit}
    (ran : op.Ensures s (fun _ => Moved p h fs) (fun _ => Moved p h fs)) :
    (routing op).Ensures s (fun _ => Moved p h fs) (fun _ => Moved p h fs) := by
  rw [ensures_routing]
  exact ran.mono (fun _ _ moved => moved) fun e t moved => raise_keeps e t moved

theorem settle_keeps (task : HostTask) :
    (settle task : SessionM H W Unit).Keeps (Moved p h fs) := by
  refine (moved_of_at fun _ => changeJob_at (fun j => { j with pending := none }) fun _ =>
    rfl).bind fun _ => ?_
  cases task.result with
  | error e => exact raise_keeps e
  | ok values => exact (moved_of_at fun _ => drainChannel_at).bind fun _ => deliver_keeps _

/-- A tick, in whatever mode, is a run of moves. It parks a frame only if the top frame yields. -/
theorem ensures_tick {host : Host H W} (plain : host.Plain p.code) (mode : Mode) (budget : Budget)
    (moved : s.Moved p h fs)
    (parks : p.park ∨ ∀ f ∈ s.job.frames.head?, yielded f s = none) :
    (tick host mode budget).Ensures s (fun _ => Moved p h fs) (fun _ => Moved p h fs) := by
  refine tick_rule (fun task n _ _ _ => ?_) (fun task _ _ => ?_) (fun _ _ => ?_)
    (fun _ _ => moved) fun f rest _ frames _ => ?_
  · exact moved_of_at (fun _ => changeJob_at
      (fun j => { j with pending := some { task with polls := n } }) fun _ => rfl) s moved
  · exact settle_keeps task s moved
  · exact moved_of_at (fun _ => changeJob_at (fun j => { j with channel := [] }) fun _ => rfl) s moved
  · have parks' : p.park ∨ yielded f s = none :=
      parks.imp id fun quiet => quiet f (by rw [frames]; rfl)
    exact routing_keeps (ensures_executeStep plain moved frames parks')

theorem conclude_keeps (host : Host H W) (outcome : Except Error Outcome) :
    (conclude host outcome).Keeps (Moved p h fs) := by
  cases outcome with
  | ok outcome =>
    cases outcome with
    | completed values => exact (moved_of_at fun _ => note_at _ _).bind fun _ => .pure _ _
    | _ => exact .pure _ _
  | error e =>
    refine teardown_keeps.bind fun _ => .get_bind fun s moved => ?_
    simp only [Effect.ensures_bind, ensures_changeHeap, ensures_note, Effect.ensures_get]
    have told := (moved.here.move (.heap (moved.coded.uncaught e))).note .engine .warn
    split
    · exact ⟨told.machine.moves, told.machine.coded, told.machine.units⟩
    · exact told.moved

/-- The job of a run that failed is torn down, and what is told of the error goes with it. -/
theorem ensures_conclude_error (host : Host H W) (e : Error) (s : Session H W) :
    (conclude host (.error e)).Ensures s
      (fun _ t => t.job = {} ∧ t.machine.heap = ((torn s.machine s.job).heap.uncaught e).2)
      (fun _ t => t.job = {} ∧ t.machine.heap = ((torn s.machine s.job).heap.uncaught e).2) := by
  simp only [conclude, Effect.ensures_bind]
  rw [Effect.ensures_of_eq_ok (teardown_eq s.machine s.job)]
  simp only [Effect.ensures_get, ensures_changeHeap, ensures_note]
  split <;> exact ⟨rfl, rfl⟩

theorem run_empties {host : Host H W} {fuel : Nat} {t : Session H W} {r : Except Error Outcome}
    (ran : run host fuel s = some (r, t)) : t.job.frames = [] := by
  obtain ⟨⟨outcome, u⟩, driven, concluded⟩ := Option.map_eq_some_iff.mp ran
  have result : ((conclude host outcome).outcome u).2 = t := congrArg Prod.snd concluded
  subst result
  rcases drive_blocking_ends driven with ⟨e, rfl⟩ | ⟨⟨values, rfl⟩, empty⟩
  · have torn := ensures_conclude_error host e u
    unfold Effect.outcome
    cases ended : conclude host (.error e) u with
    | ok a t => exact congrArg Job.frames ((Effect.ensures_of_eq_ok ended).mp torn).1
    | error e t => exact congrArg Job.frames ((Effect.ensures_of_eq_error ended).mp torn).1
  · exact empty

theorem drive_keeps {host : Host H W} (plain : host.Plain p.code) (parks : p.park) (mode : Mode)
    (fuel : Nat) (budget : Budget) {s : Session H W} {x : Except Error Outcome × Session H W}
    (moved : s.Moved p h fs) (ran : drive host mode fuel budget s = some x) : x.2.Moved p h fs :=
  (drives_of_drive ran).keeps
    (fun budget _ moved => ensures_tick plain mode budget moved (.inl parks)) moved

theorem start_keeps {call : SessionM H W Unit} (keeps : call.Keeps (Moved p h fs))
    (args : List Value) : (start args call).Keeps (Moved p h fs) := by
  refine (moved_of_at fun _ => changeJob_at (fun j => { j with channel := j.channel ++ args })
    fun _ => rfl).bind fun _ => ?_
  intro s moved
  rw [Effect.ensures_onFailure]
  exact (keeps s moved).mono (fun _ _ moved => moved) fun _ t moved =>
    (clearChannel_at t moved.here).moved

end

end Session

end ScriptMachine
