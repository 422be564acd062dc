import ScriptMachine.Proofs.Machine.Lives

/-!
# Frames with an armed block stay

A frame with an armed block, and an entry to its blocks, is guarded: it holds back every exit, and
an error that reaches it goes no further. So calls, returns and errors leave a guarded frame where
it is, wherever it is on the stack. The one operation that does not look for armed blocks is a
yield: it takes the frame off the stack, and if the iterator that should take it in is gone then the
frame is gone as well.
-/

set_option autoImplicit false

namespace ScriptMachine

variable {H W : Type}

def Frame.Guarded (f : Frame) : Prop := f.hasArmedDefers ∧ f.deferEntry.isSome

theorem Frame.guarded_iff {f : Frame} : f.Guarded ↔ true ∈ f.defers ∧ f.deferEntry.isSome := by
  simp [Guarded, hasArmedDefers]

theorem Frame.not_guarded {f : Frame} (passes : f.diversion = none) : ¬ f.Guarded := by
  rintro ⟨armed, entry⟩
  simp [diversion, armed] at passes
  simp [passes] at entry

theorem Frame.Guarded.congr {f g : Frame} (guarded : f.Guarded) (defers : g.defers = f.defers)
    (unit : g.unit = f.unit) : g.Guarded := by
  rw [Frame.guarded_iff] at guarded ⊢
  exact ⟨defers ▸ guarded.1, by rw [deferEntry, unit]; exact guarded.2⟩

/-! ## Stacks -/

def Guards (fs gs : List Frame) : Prop :=
  ∀ (n : Nat) (f : Frame), fs.reverse[n]? = some f → f.Guarded →
    ∃ g : Frame, gs.reverse[n]? = some g ∧ g.Guarded

namespace Guards

variable {fs gs ks : List Frame} {f g : Frame}

theorem refl (fs : List Frame) : Guards fs fs := fun _ f found guarded => ⟨f, found, guarded⟩

theorem trans (first : Guards fs gs) (second : Guards gs ks) : Guards fs ks := by
  intro n f found guarded
  obtain ⟨g, found, guarded⟩ := first n f found guarded
  exact second n g found guarded

theorem push (fs : List Frame) (g : Frame) : Guards fs (g :: fs) := by
  intro n f found guarded
  have inside := (List.getElem?_eq_some_iff.mp found).1
  rw [List.length_reverse] at inside
  exact ⟨f, by rw [getElem?_reverse_cons, if_neg (by omega), found], guarded⟩

theorem top (fs : List Frame) (stays : f.Guarded → g.Guarded) : Guards (f :: fs) (g :: fs) := by
  intro n k found guarded
  rw [getElem?_reverse_cons] at found ⊢
  by_cases here : n = fs.length
  · rw [if_pos here] at found ⊢
    cases found
    exact ⟨g, rfl, stays guarded⟩
  · rw [if_neg here] at found ⊢
    exact ⟨k, found, guarded⟩

theorem pop (fs : List Frame) (passes : f.diversion = none) : Guards (f :: fs) fs := by
  intro n k found guarded
  rw [getElem?_reverse_cons] at found
  split at found
  · cases found
    exact absurd guarded (Frame.not_guarded passes)
  · exact ⟨k, found, guarded⟩

theorem changeTop (change : Frame → Frame) (stays : ∀ g, g.Guarded → (change g).Guarded) (j : Job) :
    Guards j.frames (j.changeTop change).frames := by
  obtain ⟨frames, channel, pending⟩ := j
  cases frames with
  | nil => exact .refl _
  | cons f rest => exact .top rest (stays f)

end Guards

namespace Session

def Guarding (fs : List Frame) (s : Session H W) : Prop := Guards fs s.job.frames

variable {host : Host H W} {fs : List Frame} {s t : Session H W} {f : Frame} {rest : List Frame}
  {e : Error} {α : Type}

/-! ## Operations that leave the stack alone -/

theorem guarding_of_frames {op : SessionM H W α}
    (same : ∀ s, op.Ensures s (fun _ t => t.job.frames = s.job.frames)
      fun _ t => t.job.frames = s.job.frames) : op.Keeps (Guarding fs) := by
  intro s guards
  have still : ∀ t : Session H W, t.job.frames = s.job.frames → Guarding fs t := fun t frames => by
    unfold Guarding
    rwa [frames]
  exact (same s).mono (fun _ t => still t) fun _ t => still t

theorem heap_guarding (op : HeapM H α) : (liftM op : SessionM H W α).Keeps (Guarding fs) := by
  refine guarding_of_frames fun s => ?_
  refine (Effect.ensures_onPart ..).mpr ((Effect.ensures_onPart ..).mpr ?_)
  exact (op.ensures_true _).mono (fun _ _ _ => rfl) fun _ _ _ => rfl

theorem dispose_guarding (vs : List Value) :
    (dispose vs : SessionM H W Unit).Keeps (Guarding fs) := guarding_of_frames fun _ => rfl

theorem changeHeap_guarding (change : Heap H → Heap H) :
    (changeHeap change : SessionM H W Unit).Keeps (Guarding fs) := guarding_of_frames fun _ => rfl

theorem note_guarding (topic : Topic) (severity : Severity) :
    (note topic severity : SessionM H W Unit).Keeps (Guarding fs) := guarding_of_frames fun _ => rfl

theorem drainChannel_guarding : (drainChannel : SessionM H W _).Keeps (Guarding fs) :=
  guarding_of_frames fun _ => rfl

theorem clearChannel_guarding : (clearChannel : SessionM H W Unit).Keeps (Guarding fs) :=
  drainChannel_guarding.bind fun _ => dispose_guarding _

theorem changeTop_guarding {change : Frame → Frame}
    (stays : ∀ g, g.Guarded → (change g).Guarded) :
    (changeJob fun j => j.changeTop change : SessionM H W Unit).Keeps (Guarding fs) :=
  .modify fun s guards => guards.trans (.changeTop _ stays s.job)

/-! ## Calls -/

theorem deliver_guarding (values : List Value) :
    (deliver values : SessionM H W Unit).Keeps (Guarding fs) := by
  refine .modify fun s guards => ?_
  obtain ⟨machine, frames, channel, pending⟩ := s
  cases frames with
  | nil => exact guards
  | cons top rest => exact guards.trans (.top rest fun guarded => guarded.congr
      (congrArg Deferral.armed (top.pushAll_deferral _)) (pushAll_same _ top).1)

theorem activate_guarding (unit : CodeUnit) (frame : Frame) :
    (activate unit frame : SessionM H W Unit).Keeps (Guarding fs) := by
  refine (note_guarding _ _).bind fun _ => ?_
  split
  · refine .get_bind fun s guards => ?_
    generalize s.machine.heap.alloc (.iterator (.ofFrame frame)) = made
    obtain ⟨it, heap⟩ := made
    refine ((changeHeap_guarding _).bind fun _ => ?_) s guards
    cases it.ref? with
    | none => exact .pure _ _
    | some r => exact (changeHeap_guarding _).bind fun _ => deliver_guarding _
  · exact .modify fun s guards => guards.trans (.push s.job.frames frame)

theorem enter_guarding (unit : CodeUnit) (closure this : Value) :
    (enter unit closure this : SessionM H W Unit).Keeps (Guarding fs) := by
  refine .get_bind fun s guards => ?_
  split
  · exact ((dispose_guarding _).bind fun _ => .throw _ _) s guards
  refine (drainChannel_guarding.bind fun args => ?_) s guards
  split
  · exact (dispose_guarding _).bind fun _ => .throw _ _
  refine Effect.Keeps.bind (fun s guards => ?_) fun args => Effect.Keeps.bind ?_ fun frame =>
    activate_guarding unit frame
  · have gathers : (gatherArgs unit args : SessionM H W _).Keeps (Guarding fs) := by
      unfold gatherArgs
      split
      · exact (heap_guarding _).bind fun _ => .pure _ _
      · exact .pure _ _
    rw [Effect.ensures_onFailure]
    exact (gathers s guards).mono (fun _ _ guards => guards) fun _ _ guards => guards
  · unfold newFrame
    split
    · exact (dispose_guarding _).bind fun _ => .throw _ _
    · refine .get_bind fun s guards => ?_
      exact ((changeHeap_guarding _).bind fun _ => (dispose_guarding _).bind fun _ => .pure _ _) s
        guards

theorem takeReply_guarding (reply : HostReply × HostCall H × W) :
    (takeReply reply).Keeps (Guarding fs) := by
  obtain ⟨reply, call, world⟩ := reply
  refine Effect.Keeps.bind (.modify fun s guards => guards) fun _ => ?_
  cases reply with
  | finished => exact drainChannel_guarding.bind fun _ => deliver_guarding _
  | failed e => exact .throw _ _
  | task t =>
    exact Effect.Keeps.bind (.modify fun s guards => guards) fun _ => note_guarding _ _

theorem callHost_guarding (path : String) (function : H) (this : Value) :
    (callHost host path function this).Keeps (Guarding fs) :=
  drainChannel_guarding.bind fun _ => .get_bind fun s guards => takeReply_guarding _ s guards

theorem invokeValue_guarding (callee this : Value) :
    (invokeValue host callee this).Keeps (Guarding fs) := by
  refine .get_bind fun s guards => ?_
  cases s.machine.heap.callableOf callee with
  | error e => exact ((dispose_guarding _).bind fun _ => .throw _ _) s guards
  | ok callable =>
    cases callable with
    | script unit captures => exact enter_guarding unit callee this s guards
    | host path function =>
      exact ((dispose_guarding _).bind fun _ => callHost_guarding path function this) s guards

theorem invoke_guarding (target : CallTarget) (this : Value) :
    (invoke host target this).Keeps (Guarding fs) := by
  have refused : ∀ e : Error, (dispose [this] >>= fun _ => throw e :
      SessionM H W Unit).Keeps (Guarding fs) := fun e =>
    (dispose_guarding _).bind fun _ => .throw _ _
  cases target with
  | value callee => exact invokeValue_guarding callee this
  | path path =>
    refine .get_bind fun s guards => ?_
    simp only
    split
    · exact refused _ s guards
    · exact invokeValue_guarding _ this s guards
  | unit name =>
    refine .get_bind fun s guards => ?_
    split
    · exact enter_guarding _ .null this s guards
    · exact refused _ s guards

theorem advance_guarding (x : Handle) (exhausted : Nat) :
    (advance x exhausted : SessionM H W Unit).Keeps (Guarding fs) := by
  intro s guards
  have topped : ∀ {change : Frame → Frame} (m : Machine H W),
      (∀ g, g.Guarded → (change g).Guarded) → Guarding fs ⟨m, s.job.changeTop change⟩ :=
    fun m stays => guards.trans (.changeTop _ stays s.job)
  unfold advance
  rw [Effect.ensures_bind, Effect.ensures_get]
  split
  · exact guards
  simp only [Effect.ensures_bind, Effect.ensures_liftM]
  cases s.machine.heap.iteratorAt x with
  | error e => exact guards
  | ok it =>
    simp only
    split
    · exact guards
    cases it.resume with
    | mk away it' =>
      cases away with
      | none => exact topped s.machine fun _ guarded => guarded.congr rfl rfl
      | some g =>
        have waiting : Guarding fs ⟨s.machine,
            s.job.changeTop fun caller => { caller with onExhaust := some exhausted }⟩ :=
          topped s.machine fun _ guarded => guarded.congr rfl rfl
        simp only [Effect.ensures_bind, ensures_changeHeap, ensures_changeJob]
        exact waiting.trans (.push _ g)

/-! ## Exits and errors -/

/-- A guarded frame holds its exits back; any other frame may go. -/
theorem leave_guarding (exit : Exit) : (leave exit : SessionM H W Unit).Keeps (Guarding fs) := by
  refine .get_bind fun s guards => ?_
  cases frames : s.job.frames with
  | nil => exact guards
  | cons f rest =>
    have here : Guards fs (f :: rest) := frames ▸ guards
    simp only
    cases diverted : f.diversion with
    | some entry =>
      have held : ∀ pending : PendingReturn, Guards fs
          ({ f with pendingReturn := some pending, cursor := entry } :: rest) := fun _ =>
        here.trans (.top rest fun guarded => guarded.congr rfl rfl)
      simp only [holdExit]
      cases exit with
      | values =>
        simp only [Effect.ensures_bind, ensures_drainChannel, Effect.ensures_pure,
          ensures_changeJob, ensures_dispose]
        exact held _
      | locals mask =>
        simp only [Effect.ensures_bind, Effect.ensures_pure, ensures_changeJob, ensures_dispose]
        exact held _
    | none =>
      have handed : ∀ returned : List Value,
          (handOver f returned : SessionM H W Unit).Keeps (Guarding fs) := by
        intro returned
        unfold handOver
        cases f.generator with
        | none => exact deliver_guarding _
        | some x =>
          refine (dispose_guarding _).bind fun _ => (changeHeap_guarding _).bind fun _ =>
            changeTop_guarding fun g guarded => ?_
          cases g.onExhaust <;> exact guarded.congr rfl rfl
      have below : Guards fs rest := here.trans (.pop rest diverted)
      simp only [Effect.ensures_bind, ensures_changeJob]
      cases exit with
      | values =>
        simp only [Effect.ensures_bind, ensures_drainChannel, ensures_retire, Effect.ensures_pure]
        exact handed _ _ below
      | locals mask => exact handed _ _ below

/-- An error that is not fatal stops at the topmost guarded frame, if no trap above took it. -/
theorem unwind_guards (e : Error) (frames : List Frame) :
    ∀ s : Session H W, (unwind e frames).Ensures s (fun _ t => Guards frames t.job.frames)
      fun e' t => e' = e ∧ Guards frames t.job.frames := by
  induction frames with
  | nil => exact fun _ => ⟨rfl, .refl []⟩
  | cons f rest ih =>
    rintro ⟨m, j⟩
    cases trap : f.trap with
    | some handler =>
      rw [Effect.ensures_of_eq_ok (unwind_trap trap rest)]
      exact .top rest fun guarded => guarded.congr rfl rfl
    | none =>
      cases diverted : f.diversion with
      | some entry =>
        rw [Effect.ensures_of_eq_ok (unwind_diverted trap diverted rest)]
        exact .top rest fun guarded => guarded.congr rfl rfl
      | none =>
        have passes : ∀ g ∈ [f], ¬ g.Takes := by
          simpa using Frame.not_takes_iff.mpr ⟨trap, diverted⟩
        rw [Effect.Ensures, show f :: rest = [f] ++ rest from rfl, unwind_above e rest j m passes]
        exact (ih _).mono (fun _ _ guards => (Guards.pop rest diverted).trans guards)
          fun _ _ failed => ⟨failed.1, (Guards.pop rest diverted).trans failed.2⟩

theorem raise_guarding (guards : Guarding fs s) :
    (raise e).Ensures s (fun _ => Guarding fs) fun e' t => e'.isFatal ∨ Guarding fs t := by
  obtain ⟨m, j⟩ := s
  by_cases fatal : e.isFatal = true
  · rw [Effect.ensures_of_eq_error (raise_of_fatal fatal m j)]
    exact .inl fatal
  · unfold Effect.Ensures
    rw [raise_of_not_fatal fatal]
    exact (unwind_guards e j.frames _).mono (fun _ _ after => guards.trans after)
      fun _ _ failed => .inr (guards.trans failed.2)

theorem follow_guarding {flow : Flow} (other : flow ≠ .yield) :
    (follow host flow).Keeps (Guarding fs) := by
  cases flow with
  | next => exact .pure _ _
  | jump target => exact changeTop_guarding fun _ guarded => guarded.congr rfl rfl
  | call target this => exact invoke_guarding target this
  | ret => exact leave_guarding .values
  | returnLocals mask => exact leave_guarding (.locals mask)
  | yield => exact absurd rfl other
  | finalize => exact clearChannel_guarding.bind fun _ => leave_guarding .values
  | advance x exhausted => exact advance_guarding x exhausted

theorem settle_guarding (task : HostTask) (guards : Guarding fs s) :
    (settle task).Ensures s (fun _ => Guarding fs) fun e' t => e'.isFatal ∨ Guarding fs t := by
  have resumed : Guarding fs ⟨s.machine, { s.job with pending := none }⟩ := guards
  unfold settle
  rw [Effect.ensures_bind, ensures_changeJob]
  cases task.result with
  | error e => exact raise_guarding resumed
  | ok values =>
    exact ((drainChannel_guarding.bind fun _ => deliver_guarding _) _ resumed).mono
      (fun _ _ guards => guards) fun _ _ guards => .inr guards

theorem start_guarding (args : List Value) {call : SessionM H W Unit}
    (called : call.Keeps (Guarding fs)) : (start args call).Keeps (Guarding fs) := by
  refine Effect.Keeps.bind (.modify fun s guards => guards) fun _ s guards => ?_
  rw [Effect.ensures_onFailure]
  exact (called s guards).mono (fun _ _ guards => guards) fun _ t guards => guards

theorem startPath_guarding (path : String) (args : List Value) :
    (startPath host path args).Keeps (Guarding fs) := by
  refine .get_bind fun s guards => ?_
  simp only
  split
  · exact start_guarding args (invoke_guarding _ _) s guards
  split
  · exact start_guarding args (invoke_guarding _ _) s guards
  · exact ((dispose_guarding args).bind fun _ => .throw _ _) s guards

end Session

/-! ## Steps -/

/-- Control is let into a deferred block only where it goes on with the next instruction. -/
theorem Instruction.not_entered {ins : Instruction} {flow : Option Flow}
    (elsewhere : flow ≠ some .next) (k : Nat) : .entered k ∉ ins.moments flow := by
  unfold moments
  split
  case h_2 => exact absurd rfl elsewhere
  all_goals simp

/-- A block that is armed stays so, as long as control is let into none. -/
theorem Deferral.Follows.armed {ms : List Moment} :
    ∀ {d d' : Deferral}, d.Follows ms d' → (∀ k, .entered k ∉ ms) → true ∈ d.armed →
      true ∈ d'.armed := by
  induction ms with
  | nil =>
    intro d d' same _ armed
    cases same
    exact armed
  | cons m ms ih =>
    intro d d' follows outside armed
    refine ih follows.2 (fun k mem => outside k (List.mem_cons_of_mem _ mem)) ?_
    cases m with
    | armed k =>
      by_cases inside : k < d.armed.length
      · exact List.mem_iff_getElem?.mpr ⟨k, List.getElem?_set_self inside⟩
      · rwa [Deferral.after, List.set_eq_of_length_le (Nat.le_of_not_lt inside)]
    | entered k => exact absurd List.mem_cons_self (outside k)
    | reissued =>
      simp only [Deferral.after]
      split <;> exact armed
    | left departure => cases departure <;> exact armed

namespace Session

variable {host : Host H W} {fs : List Frame} {s t : Session H W} {f g : Frame} {rest : List Frame}
  {u : CodeUnit}

theorem stride_guarding (runs : f.Runs u) (frames : s.job.frames = f :: rest)
    (accounted : s.machine.heap.Accounted []) :
    (stride f).Ensures s
      (fun flow t => ∃ g, t.job.frames = g :: rest ∧ g.generator = f.generator ∧
        s.machine.heap.Grows (fun _ => True) t.machine.heap ∧
        (flow ≠ .next → f.Guarded → g.Guarded))
      (fun _ t => ∃ g, t.job.frames = g :: rest ∧ (f.Guarded → g.Guarded)) := by
  obtain ⟨targets, fusion, laid⟩ := runs.laid
  have units : s.machine.units.Codes fun _ => True := fun _ _ _ => trivial
  cases found : u.stepAt? f.cursor with
  | none =>
    simp only [stride, runs.unit, Option.bind_some, found, Effect.ensures_pure]
    exact ⟨f, frames, rfl, (accounted.coded []).here, fun _ guarded => guarded⟩
  | some step =>
    obtain ⟨mem, -⟩ := laid.mem_of_stepAt? found
    obtain ⟨ins, -, moments⟩ := Exec.action_moments s.machine.units laid mem (c := context f s) runs
    have calm := Exec.action_keeps (h := s.machine.heap) (f := f) units step.action
      (context f s) ⟨(accounted.coded []).here, rfl, rfl⟩
    have stays : ∀ {c : Context H} {flow : Option Flow}, flow ≠ some .next →
        c.Calm (fun _ => True) s.machine.heap f →
        f.deferral.Follows (ins.moments flow) c.frame.deferral → f.Guarded → c.frame.Guarded := by
      intro c flow elsewhere calm follows guarded
      rw [Frame.guarded_iff] at guarded ⊢
      refine ⟨follows.armed (Instruction.not_entered elsewhere) guarded.1, ?_⟩
      rw [Frame.deferEntry, calm.unit]
      exact guarded.2
    have top : ∀ c : Context H, (withContext c s).job.frames = c.frame :: rest := fun c => by
      simp [withContext, Job.changeTop, frames]
    simp only [stride, runs.unit, Option.bind_some, found, Effect.ensures_bind, Effect.ensures_get,
      Effect.ensures_onPart]
    refine (moments.and calm).mono (fun flow c acted => ?_) fun _ c acted => ?_
    · exact ⟨c.frame, top c, acted.2.generator, acted.2.heap, fun elsewhere =>
        stays (fun same => elsewhere (Option.some.inj same)) acted.2 acted.1.1⟩
    · exact ⟨c.frame, top c, stays (by simp) acted.2 acted.1⟩

end Session

/-- The running frame yields and is parked in its generator. -/
def Frame.Parks (f : Frame) (s : Session H W) (h : Heap H) : Prop :=
  ∃ x v g it, f.generator = some x ∧ Session.stride f s = .ok .yield v ∧
    v.job.frames.head? = some g ∧ g.Guarded ∧
    v.machine.heap.object? x = some (.iterator it) ∧ it.isGenerator ∧
    let parked := it.park { g with cursor := f.cursor + f.cost } v.job.channel
    h = (v.machine.heap.setObject x (.iterator parked.2)).disposeAll parked.1

/-- The running frame yields, and its generator is gone. -/
def Frame.Strands (f : Frame) (s : Session H W) : Prop :=
  ∃ x v, f.generator = some x ∧ Session.stride f s = .ok .yield v ∧ v.machine.heap.object? x = none

namespace Session

variable {host : Host H W} {fs : List Frame} {s t : Session H W} {f g : Frame} {rest : List Frame}
  {u : CodeUnit}

inductive Remains (s t : Session H W) : Prop
  | guards : Guarding s.job.frames t → Remains s t
  | steps {f g : Frame} {rest : List Frame} : s.job.frames = f :: rest → t.job.frames = g :: rest →
      Remains s t
  | parks {f : Frame} {rest : List Frame} : s.job.frames = f :: rest → Guarding rest t →
      (f.Guarded → f.Parks s t.machine.heap) → Remains s t
  | strands {f : Frame} {rest : List Frame} : s.job.frames = f :: rest → Guarding rest t →
      f.Strands s → Remains s t

theorem suspend_guarding (frames : s.job.frames = g :: rest)
    (generating : ∀ x, g.generator = some x → s.machine.heap.Generating x) :
    suspend.Ensures s
      (fun _ t => Guarding rest t ∧ ∃ x it, g.generator = some x ∧
        s.machine.heap.object? x = some (.iterator it) ∧ it.isGenerator ∧
        let parked := it.park g s.job.channel
        t.machine.heap = (s.machine.heap.setObject x (.iterator parked.2)).disposeAll parked.1)
      (fun _ t => t.job.frames = g :: rest ∨
        Guarding rest t ∧ ∃ x, g.generator = some x ∧ s.machine.heap.object? x = none) := by
  unfold suspend
  rw [Effect.ensures_bind, Effect.ensures_get, frames]
  simp only
  cases belongs : g.generator with
  | none => exact .inl frames
  | some x =>
    simp only [Effect.ensures_bind, ensures_changeJob, ensures_drainChannel, Effect.ensures_get]
    cases found : s.machine.heap.iteratorAt x with
    | ok it =>
      simp only [Effect.ensures_bind, ensures_changeHeap, ensures_dispose, ensures_changeJob]
      have object := Heap.iteratorAt_eq_ok found
      obtain ⟨it', same, generates⟩ := (generating x belongs).generator _ object
      cases same
      refine ⟨?_, x, it, rfl, object, generates, rfl⟩
      exact Guards.changeTop (fun caller => { caller with onExhaust := none })
        (fun _ guarded => guarded.congr rfl rfl) { s.job with frames := rest, channel := [] }
    | error e =>
      simp only [Effect.ensures_bind, ensures_dispose, ensures_retire, Effect.ensures_throw]
      refine .inr ⟨.refl rest, x, rfl, ?_⟩
      cases object : s.machine.heap.object? x with
      | none => rfl
      | some o =>
        obtain ⟨it, rfl, -⟩ := (generating x belongs).generator o object
        rw [Heap.iteratorAt_of_object? object] at found
        cases found

theorem executeStep_remains (runs : f.Runs u) (frames : s.job.frames = f :: rest)
    (accounted : s.machine.heap.Accounted [])
    (generating : ∀ x, f.generator = some x → s.machine.heap.Generating x) :
    (executeStep host f).Ensures s (fun _ t => s.Remains t)
      (fun _ t => Guarding s.job.frames t ∨ Guarding rest t ∧ f.Strands s) := by
  have strode := stride_guarding runs frames accounted
  rw [executeStep_eq_stride runs, Effect.ensures_bind]
  cases ran : stride f s with
  | error e t =>
    rw [Effect.ensures_of_eq_error ran] at strode ⊢
    obtain ⟨g, top, stays⟩ := strode
    refine .inl ?_
    rw [Guarding, frames, top]
    exact .top rest stays
  | ok flow v =>
    rw [Effect.ensures_of_eq_ok ran] at strode ⊢
    obtain ⟨g, top, belongs, grows, stays⟩ := strode
    let placed : Session H W :=
      ⟨v.machine, { v.job with frames := { g with cursor := f.cursor + f.cost } :: rest }⟩
    have moves : ∀ {post : Unit → Session H W → Prop} {fail : Error → Session H W → Prop},
        (follow host flow).Ensures placed post fail →
          (apply host flow (f.cursor + f.cost)).Ensures v post fail := by
      intro post fail ensures
      unfold apply
      simp only [Effect.ensures_bind, Effect.ensures_get, top, List.isEmpty_cons,
        Bool.false_eq_true, if_false, ensures_changeJob, Job.changeTop]
      exact ensures
    refine moves ?_
    by_cases next : flow = .next
    · subst next
      exact .steps frames rfl
    have here : Guarding s.job.frames placed := by
      rw [Guarding, frames]
      exact .top rest fun guarded => (stays next guarded).congr rfl rfl
    by_cases yields : flow = .yield
    · subst yields
      refine (suspend_guarding (s := placed) rfl fun x owner =>
        (generating x (belongs.symm.trans owner)).grows grows).mono (fun _ t parked => ?_)
          fun _ t failed => ?_
      · obtain ⟨below, x, it, owner, object, generates, heap⟩ := parked
        exact .parks frames below fun guarded => ⟨x, v, g, it, belongs.symm.trans owner, ran,
          congrArg List.head? top, stays next guarded, object, generates, heap⟩
      · rcases failed with same | ⟨below, x, owner, lost⟩
        · left
          unfold Guarding at here ⊢
          rw [same]
          exact here
        · exact .inr ⟨below, x, v, belongs.symm.trans owner, ran, lost⟩
    · exact (follow_guarding yields placed here).mono (fun _ _ guards => .guards guards)
        fun _ _ guards => .inl guards

theorem tick_remains (host : Host H W) (mode : Mode) (budget : Budget) (sound : s.Sound)
    (generating : ∀ f ∈ s.job.frames, ∀ x, f.generator = some x → s.machine.heap.Generating x) :
    (tick host mode budget).Ensures s (fun _ t => s.Remains t)
      (fun e t => e.isFatal ∨ s.Remains t) := by
  have all : Guarding s.job.frames s := .refl _
  refine tick_rule (fun _ _ _ _ _ => .guards all) (fun task _ _ => ?_) (fun _ _ => .guards all)
    (fun _ _ => .guards all) fun f rest idle frames _ => ?_
  · exact (settle_guarding task all).mono (fun _ _ guards => .guards guards)
      fun _ _ failed => failed.imp_right .guards
  · obtain ⟨u, runs⟩ := sound.frames f (frames ▸ List.mem_cons_self)
    rw [ensures_routing]
    refine (executeStep_remains runs frames sound.heap.accounted
      (generating f (frames ▸ List.mem_cons_self))).mono (fun _ _ remains => remains)
        fun e t failed => ?_
    rcases failed with guards | ⟨below, strands⟩
    · exact (raise_guarding guards).mono (fun _ _ guards => .guards guards)
        fun _ _ failed => failed.imp_right .guards
    · exact (raise_guarding below).mono (fun _ _ guards => .strands frames guards strands)
        fun _ _ failed => failed.imp_right fun guards => .strands frames guards strands

theorem act_remains (host : Host H W) (mode : Mode) (budget : Budget) (sound : s.Sound)
    (generating : ∀ f ∈ s.job.frames, ∀ x, f.generator = some x → s.machine.heap.Generating x) :
    ((Act.tick mode budget).op host).Ensures s
      (fun _ t => (∃ e u, tick host mode budget s = .error e u ∧ e.isFatal) ∨ s.Remains t)
      (fun _ t => (∃ e u, tick host mode budget s = .error e u ∧ e.isFatal) ∨ s.Remains t) := by
  have remains := tick_remains host mode budget sound generating
  unfold Act.op
  rw [Effect.ensures_bind]
  cases ticked : tick host mode budget s with
  | ok a t =>
    rw [Effect.ensures_of_eq_ok ticked] at remains ⊢
    exact .inr remains
  | error e t =>
    rw [Effect.ensures_of_eq_error ticked] at remains ⊢
    exact remains.imp_left fun fatal => ⟨e, t, rfl, fatal⟩

theorem Remains.gone {n : Nat} (remains : s.Remains t) (here : s.job.frames.reverse[n]? = some f)
    (guarded : f.Guarded) (gone : t.job.frames.reverse[n]? = none) :
    n + 1 = s.job.depth ∧ (f.Parks s t.machine.heap ∨ f.Strands s) := by
  have stays : ∀ {fs : List Frame}, Guarding fs t → fs.reverse[n]? ≠ some f := by
    intro fs guards found
    obtain ⟨g, found, -⟩ := guards n f found guarded
    rw [gone] at found
    cases found
  have running : ∀ {g : Frame} {rest : List Frame}, s.job.frames = g :: rest → Guarding rest t →
      n + 1 = s.job.depth ∧ f = g := by
    intro g rest frames below
    rw [frames, getElem?_reverse_cons] at here
    split at here
    · rename_i top
      exact ⟨by rw [Job.depth, frames, top]; rfl, (Option.some.inj here).symm⟩
    · exact absurd here (stays below)
  cases remains with
  | guards guards => exact absurd here (stays guards)
  | steps frames after =>
    have inside := (List.getElem?_eq_some_iff.mp here).1
    rw [List.getElem?_eq_none_iff] at gone
    rw [frames] at inside
    rw [after] at gone
    simp only [List.length_reverse, List.length_cons] at inside gone
    omega
  | parks frames below parks =>
    obtain ⟨top, rfl⟩ := running frames below
    exact ⟨top, .inl (parks guarded)⟩
  | strands frames below strands =>
    obtain ⟨top, rfl⟩ := running frames below
    exact ⟨top, .inr strands⟩

end Session

namespace System

variable {host : Host H W} {deed : Deed} {s t : System H W} {f : Frame} {i n : Nat}

/-- A guarded frame leaves the stack of a job when the job is torn down, by a fatal error, or by a
yield. A yield parks it in its generator, unless that is gone. -/
theorem guarded_leaves (plain : host.Plain CodeUnit.Compiled) (underway : Underway host s)
    (turn : Turn host deed s t) (placed : s.frameAt (.stack i n) = some f) (guarded : f.Guarded)
    (gone : t.frameAt (.stack i n) = none) :
    ∃ job act, s.jobs[i]? = some job ∧ deed = .act i act ∧
      (act = .teardown ∨ (∃ e, act = .conclude (.error e)) ∨
        ∃ mode budget, act = .tick mode budget ∧
          ((∃ e u, Session.tick host mode budget ⟨s.machine, job⟩ = .error e u ∧ e.isFatal) ∨
            n + 1 = job.depth ∧
              (f.Parks ⟨s.machine, job⟩ t.machine.heap ∨ f.Strands ⟨s.machine, job⟩))) := by
  have running := underway.running plain
  obtain ⟨job, found, here⟩ := Option.bind_eq_some_iff.mp placed
  have inside : i < s.jobs.length := (List.getElem?_eq_some_iff.mp found).1
  have unmoved : t.jobs[i]? ≠ some job := by
    intro same
    rw [frameAt_stack same, here] at gone
    cases gone
  cases turn with
  | spawn => exact absurd ((List.getElem?_append_left inside).trans found) unmoved
  | embed => exact absurd found unmoved
  | @act _ j job' act u found' admits result =>
    by_cases same : j = i
    · subst same
      rw [found] at found'
      cases found'
      refine ⟨job, act, found, rfl, ?_⟩
      have away : u.job.frames.reverse[n]? = none :=
        (frameAt_stack (s := ⟨u.machine, s.jobs.set j u.job⟩) (List.getElem?_set_self inside)
          n).symm.trans gone
      have kept : ∀ {op : SessionM H W Unit}, op.Keeps (Session.Guarding job.frames) →
          (op.outcome ⟨s.machine, job⟩).2 = u → False := by
        intro op keeps result
        have guards := (keeps ⟨s.machine, job⟩ (Guards.refl job.frames)).outcome
        rw [result] at guards
        obtain ⟨g, found, -⟩ := guards n f here guarded
        rw [away] at found
        cases found
      cases act with
      | callPath path args => exact (kept (Session.startPath_guarding path args) result).elim
      | callValue callee args =>
        exact (kept (Session.start_guarding args (Session.invoke_guarding _ _)) result).elim
      | callUnit unit args =>
        exact (kept (Session.start_guarding args (Session.enter_guarding _ _ _)) result).elim
      | resume x => exact (kept (Session.advance_guarding x 0) result).elim
      | tick mode budget =>
        refine .inr (.inr ⟨mode, budget, rfl, ?_⟩)
        have remains := (Session.act_remains host mode budget
          (running.session (List.mem_of_getElem? found)) fun g mem => running.protocol.frames g
            (List.mem_flatMap.mpr ⟨job, List.mem_of_getElem? found, mem⟩)).outcome
        rw [result] at remains
        exact remains.imp_right fun remains => remains.gone here guarded away
      | conclude outcome =>
        cases outcome with
        | error e => exact .inr (.inl ⟨e, rfl⟩)
        | ok outcome =>
          cases outcome with
          | completed values =>
            exact (kept (((Session.note_guarding _ _).bind fun _ => .pure _ _).bind
              fun _ => .pure _ _) result).elim
          | _ => exact (kept ((Effect.Keeps.pure _ _).bind fun _ => .pure _ _) result).elim
      | teardown => exact .inl rfl
    · exact absurd ((List.getElem?_set_ne same).trans found) unmoved

/-! A generator that lets its own iterator go, with a block armed, and then yields. -/

def lapse : Function :=
  { name := "lapse", generator := true
    code :=
      [{ op := .deferArm }, { op := .pushNull }, { op := .storeGlobal, str := "it" },
       { op := .pushInt, int := 1 }, { op := .yield, int := 1 }, { op := .ret },
       { op := .deferCheck }, { op := .pushBool, int := 1 },
       { op := .storeGlobal, str := "cleaned" }, { op := .deferEnd }] }

def pullOnce : Function :=
  { name := "pullOnce"
    code :=
      [{ op := .callDirect, str := "lapse" }, { op := .storeGlobal, str := "it" },
       { op := .loadGlobal, str := "it" }, { op := .iterNext }, { op := .ret }] }

def lapseUnit : CodeUnit :=
  lapse.assemble [none, none, none, none, none, none, some 8, none, none, none] false

def pullOnceUnit : CodeUnit := pullOnce.assemble [none, none, none, some 5, none] false

theorem compiled_lapseUnit : lapseUnit.Compiled :=
  ⟨false, Function.compile_eq_ok_iff.mpr
    ⟨rfl, [none, none, none, none, none, none, some 8, none, none, none], rfl, rfl⟩⟩

theorem compiled_pullOnceUnit : pullOnceUnit.Compiled :=
  ⟨false, Function.compile_eq_ok_iff.mpr ⟨rfl, [none, none, none, some 5, none], rfl, rfl⟩⟩

/-- The system after the call and a number of ticks. -/
def lapsed (n : Nat) : System Unit Unit :=
  performs Session.idle 0 (.callUnit pullOnceUnit [] :: List.replicate n (.tick .blocking none))
    ⟨{ units := ⟨[("lapse", lapseUnit)]⟩, world := () }, [{}]⟩

theorem turn_lapsed (n : Nat) {job : Job} (found : (lapsed n).jobs[0]? = some job) :
    Turn Session.idle (.act 0 (.tick .blocking none)) (lapsed n) (lapsed (n + 1)) := by
  have next : lapsed (n + 1) = (lapsed n).perform Session.idle 0 (.tick .blocking none) := by
    simp only [lapsed, performs, List.replicate_succ', List.foldl_cons, List.foldl_append,
      List.foldl_nil]
  exact next ▸ turn_perform found trivial

theorem underway_lapsed (n : Nat) : Underway Session.idle (lapsed n) := by
  have units : UnitTable.Sound ⟨[("lapse", lapseUnit)]⟩ :=
    UnitTable.codes_single compiled_lapseUnit "lapse"
  refine .performs (fun act mem job => ?_) (.turn (.start _ rfl units) (.spawn _)) Nat.one_pos
  rcases List.mem_cons.mp mem with rfl | mem
  · exact compiled_pullOnceUnit
  · rw [List.eq_of_mem_replicate mem]
    trivial

/-- The error that the next tick of the only job answers. -/
def refuses (s : System Unit Unit) : Option Error :=
  s.jobs[0]?.bind fun job =>
    match Session.tick Session.idle .blocking none ⟨s.machine, job⟩ with
    | .ok _ _ => none
    | .error e _ => some e

theorem refuses_lapsed : (lapsed 8).refuses = some (.ofFault (.stalePointer 0 0 1)) := by
  decide +kernel

theorem guarded_leaves_lapsed : ∃ f job, (lapsed 8).frameAt (.stack 0 1) = some f ∧ f.Guarded ∧
    (lapsed 8).jobs[0]? = some job ∧
    (f.Parks ⟨(lapsed 8).machine, job⟩ (lapsed 9).machine.heap ∨
      f.Strands ⟨(lapsed 8).machine, job⟩) := by
  have guarded : ((lapsed 8).frameAt (.stack 0 1)).any fun f =>
      f.hasArmedDefers && f.deferEntry.isSome := by decide +kernel
  obtain ⟨f, placed, armed⟩ := (Option.any_eq_true _ _).mp guarded
  obtain ⟨armed, entry⟩ := Bool.and_eq_true_iff.mp armed
  have gone : (lapsed 9).frameAt (.stack 0 1) = none := by
    rw [← Option.isNone_iff_eq_none]
    decide +kernel
  obtain ⟨first, running⟩ : ∃ job, (lapsed 8).jobs[0]? = some job :=
    Option.isSome_iff_exists.mp (by decide +kernel)
  have turn : Turn Session.idle (.act 0 (.tick .blocking none)) (lapsed 8) (lapsed 9) :=
    turn_lapsed 8 running
  obtain ⟨job, act, found, deed, ways⟩ := guarded_leaves
    (Session.plain_idle CodeUnit.Compiled) (underway_lapsed 8) turn placed ⟨armed, entry⟩ gone
  cases deed
  refine ⟨f, job, placed, ⟨armed, entry⟩, found, ?_⟩
  rcases ways with never | ⟨e, never⟩ | ⟨mode, budget, same, ⟨e, u, ticked, fatal⟩ | ⟨-, left⟩⟩
  · cases never
  · cases never
  · cases same
    have refused : (lapsed 8).refuses = some e := by simp [refuses, found, ticked]
    rw [refuses_lapsed] at refused
    cases refused
    cases fatal
  · exact left

/-- The job ends with an error that is not fatal, and the block never ran. -/
theorem lapsed_cleans_nothing :
    ((lapsed 8).frameAt (.stack 0 1)).map (fun f => (f.defers, f.deferEntry)) =
      some ([true], some 6) ∧
    (lapsed 8).refuses = some (.ofFault (.stalePointer 0 0 1)) ∧
    (lapsed 9).jobs.map Job.depth = [0] ∧ (lapsed 9).machine.globals.load "cleaned" = .null := by
  decide +kernel

end System

end ScriptMachine
