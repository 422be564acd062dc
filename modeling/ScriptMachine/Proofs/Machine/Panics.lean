import ScriptMachine.Proofs.Machine.Channel
import ScriptMachine.Proofs.Machine.Guarded
import ScriptMachine.Proofs.Machine.References

/-!
# Slices end

Every bounded run ends, with a result or with a panic. An instruction panics for nothing but an
overflow, and that memory is too small is said in one place only: where a unit is entered that asks
for more slots than memory can have. No frame holds a panic back, as it stops at none. So a run
whose units all fit ends without, unless a key overflows.
-/

set_option autoImplicit false

namespace ScriptMachine

variable {H W : Type} {may : Panic → Prop}

/-! ## The embedding program returns -/

def HostTask.Returns (t : HostTask) : Prop := Fails (·.panic? = none) t.result

def HostReply.Returns : HostReply → Prop
  | .finished => True
  | .failed e => e.panic? = none
  | .task t => t.Returns

/-- Host functions, and the tasks that they leave, do not panic. -/
def Host.Returns (host : Host H W) : Prop :=
  ∀ function call w, (host.call function call w).1.Returns

/-- The job waits for no task that panics. -/
def Job.Returns (j : Job) : Prop := ∀ t, j.pending = some t → t.Returns

theorem Error.bounded_of_plain {e : Error} (plain : e.panic? = none) : e.Bounded may := by
  intro panic panics
  rw [plain] at panics
  cases panics

theorem Error.panic?_of_not_fatal {e : Error} (fatal : e.isFatal = false) : e.panic? = none := by
  unfold panic?
  unfold isFatal at fatal
  split at fatal <;> simp_all

theorem HostTask.Returns.bounded {t : HostTask} (returns : t.Returns) :
    Fails (Error.Bounded may) t.result := fun e failed => Error.bounded_of_plain (returns e failed)

/-! ## What frames hold back -/

theorem struck_not_fatal {e e' : Error} {frames : List Frame} {n : Nat}
    (arrives : .left (.fails e') ∈ struck e frames n) : e'.isFatal = false := by
  unfold struck at arrives
  split at arrives
  · rename_i reached
    cases List.mem_singleton.mp arrives
    simpa using (Bool.and_eq_true_iff.mp reached).1
  · cases arrives

theorem Act.not_fatal {host : Host H W} {act : Act} {s : Session H W} {n : Nat} {e : Error}
    (arrives : .left (.fails e) ∈ act.moments host s n) : e.isFatal = false := by
  cases act with
  | tick mode budget =>
    simp only [Act.moments, Session.tickMoments] at arrives
    split at arrives
    · split at arrives
      · cases arrives
      · unfold Session.settleMoments at arrives
        split at arrives
        · cases arrives
        · exact struck_not_fatal arrives
    · cases arrives
    · cases arrives
    · rename_i f _ _ _ _
      rcases List.mem_append.mp arrives with issued | struck
      · unfold atTop at issued
        split at issued
        · exact absurd issued (Session.fails_not_mem_strideMoments f _ e)
        · cases issued
      · split at struck
        · cases struck
        · exact struck_not_fatal struck
  | _ => cases arrives

namespace System

variable {host : Host H W} {s t : System H W} {deed : Deed} {pl : Place}

theorem not_fatal_of_arrives {e : Error} (arrives : .left (.fails e) ∈ s.moments host deed pl) :
    e.isFatal = false := by
  unfold moments at arrives
  split at arrives
  · split at arrives
    · split at arrives
      · exact Act.not_fatal arrives
      · cases arrives
    · cases arrives
  · cases arrives

/-- No frame holds a fatal error back, be it on a stack or parked. -/
theorem Underway.holds_no_fatal (plain : host.Plain CodeUnit.Compiled)
    (underway : Underway host s) :
    ∀ pl f, s.frameAt pl = some f → f.deferral.Holds (·.isFatal = false) := by
  induction underway with
  | start m empty _ =>
    intro pl f placed
    cases pl with
    | stack => cases placed
    | parked x =>
      obtain ⟨it, found, -⟩ := Heap.parkedAt_eq_some.mp placed
      rw [empty] at found
      cases found
  | @turn deed s t before turn ih =>
    intro pl f placed
    have running := before.running plain
    have quiet := before.quiet plain
    -- a frame that was there before went through its moments, and one that was not is fresh
    by_cases old : ∃ pl', Goes s t pl' pl
    · obtain ⟨pl', goes⟩ := old
      obtain ⟨g, there⟩ := goes.before
      have aged := turn.aged plain running quiet goes there placed
      exact aged.follows.holds (fun e => not_fatal_of_arrives) (ih pl' g there)
    · have fresh := turn.fresh plain running quiet (fun pl' goes => old ⟨pl', goes⟩) placed
      intro e kept
      rw [fresh.error] at kept
      cases kept

end System

namespace Session

variable {host : Host H W} {s t : Session H W} {f : Frame} {rest : List Frame}
  {Q : CodeUnit → Prop}

/-- The session of a job in a system that is underway. -/
def Arises (host : Host H W) (s : Session H W) : Prop :=
  ∃ (jobs : List Job) (i : Nat), System.Underway host ⟨s.machine, jobs⟩ ∧ jobs[i]? = some s.job

theorem Arises.tick (arises : s.Arises host) {mode : Mode} {budget : Budget} {result : Tick}
    (ran : tick host mode budget s = .ok result t) : t.Arises host := by
  obtain ⟨jobs, i, underway, found⟩ := arises
  have ticked : (((Act.tick mode budget).op host).outcome s).2 = t := by
    rw [Act.op, Effect.outcome_bind_pure, Effect.outcome, ran]
  exact ⟨jobs.set i t.job, i, underway.turn (.act (.tick mode budget) t found trivial ticked),
    List.getElem?_set_self (List.getElem?_eq_some_iff.mp found).1⟩

theorem Arises.sound (arises : s.Arises host) (plain : host.Plain CodeUnit.Compiled) :
    s.Sound ∧ s.Quiet := by
  obtain ⟨jobs, i, underway, found⟩ := arises
  have listed := List.mem_of_getElem? found
  exact ⟨(underway.running plain).session listed, underway.quiet plain _ listed⟩

theorem Arises.holds (arises : s.Arises host) (plain : host.Plain CodeUnit.Compiled)
    (frames : s.job.frames = f :: rest) : f.deferral.Holds (Error.Bounded may) := by
  obtain ⟨jobs, i, underway, found⟩ := arises
  have top : (jobs[i]?.bind fun job => job.frames.reverse[rest.length]?) = some f := by
    simp [found, frames]
  intro e kept
  exact Error.bounded_of_plain (Error.panic?_of_not_fatal
    (underway.holds_no_fatal plain (.stack i rest.length) f top e kept))

/-! ## Transfers of control -/

theorem activate_bounded (unit : CodeUnit) (f : Frame) :
    (activate unit f : SessionM H W Unit).Fails (Error.Bounded may) := by
  refine (Effect.Fails.modify _).bind fun _ => ?_
  split
  · refine .get_bind fun s => ?_
    cases s.machine.heap.alloc (.iterator (.ofFrame f)) with
    | mk it heap =>
      refine (Effect.Fails.modify _).bind fun _ => ?_
      split
      · exact (Effect.Fails.modify _).bind fun _ => .modify _
      · exact .pure _
  · exact .modify _

theorem newFrame_bounded {unit : CodeUnit} (fits : ∀ panic, unit.misfit? = some panic → may panic)
    (args : List Value) (closure this : Value) :
    (newFrame unit args closure this : SessionM H W Frame).Fails (Error.Bounded may) :=
  fun _ => newFrame_rule (fun _ misfit _ panics => fits _ (misfit.trans panics))
    fun _ _ _ _ => trivial

theorem enter_bounded (overflow : may .overflow) {unit : CodeUnit}
    (fits : ∀ panic, unit.misfit? = some panic → may panic)
    (closure this : Value) :
    (enter unit closure this : SessionM H W Unit).Fails (Error.Bounded may) := by
  refine fun s => enter_rule (fun _ => nofun) (fun _ => nofun) fun _ => ?_
  have gathers : (gatherArgs unit s.job.channel : SessionM H W _).Fails (Error.Bounded may) := by
    have packs : (Heap.pack (s.job.channel.drop unit.fixedParams) : HeapM H Value).Fails
      (Error.Bounded may) := (Heap.pack_tame _).weaken fun _ => Error.bounded_of_tame overflow
    unfold gatherArgs
    split
    · exact ((packs.onPart _ _).onPart _ _).bind fun _ => .pure _
    · exact .pure _
  refine (gathers _).mono (fun args t _ => ?_) fun _ _ bounded => bounded
  exact (newFrame_bounded fits args closure this).bind (fun f => activate_bounded unit f) t

theorem callHost_bounded (returns : host.Returns) (path : String) (function : H) (this : Value) :
    (callHost host path function this).Fails (Error.Bounded may) := by
  refine Effect.Fails.bind (fun _ => trivial) fun args => .get_bind fun s => ?_
  have replies : ∀ call, (host.call function call s.machine.world).1.Returns :=
    fun call => returns function call s.machine.world
  simp only
  generalize hcall : host.call function _ s.machine.world = answer
  have returned : answer.1.Returns := hcall ▸ replies _
  obtain ⟨reply, call, world⟩ := answer
  refine (Effect.Fails.modify _).bind fun _ => ?_
  cases reply with
  | finished => exact Effect.Fails.bind (fun _ => trivial) fun _ => .modify _
  | failed e => exact .throw (Error.bounded_of_plain returned)
  | task t => exact (Effect.Fails.modify _).bind fun _ => .modify _

theorem leave_bounded (exit : Exit) :
    (leave exit : SessionM H W Unit).Fails (Error.Bounded may) := by
  have handed : ∀ (f : Frame) (returned : List Value),
      (handOver f returned : SessionM H W Unit).Fails (Error.Bounded may) := by
    intro f returned
    unfold handOver
    split
    · exact (Effect.Fails.modify _).bind fun _ => (Effect.Fails.modify _).bind fun _ => .modify _
    · exact .modify _
  refine .get_bind fun s => ?_
  cases s.job.frames with
  | nil => exact .throw nofun
  | cons f rest =>
    simp only
    cases f.diversion with
    | some entry => cases exit <;> exact fun _ => trivial
    | none =>
      refine (Effect.Fails.modify _).bind fun _ => ?_
      cases exit with
      | values =>
        exact Effect.Fails.bind (fun _ => trivial) fun values =>
          Effect.Fails.bind (fun _ => trivial) fun _ => handed f values
      | locals mask => exact Effect.Fails.bind (fun _ => trivial) fun _ => handed f _

theorem suspend_bounded (overflow : may .overflow) :
    (suspend : SessionM H W Unit).Fails (Error.Bounded may) := by
  refine .get_bind fun s => ?_
  cases s.job.frames with
  | nil => exact .pure _
  | cons f rest =>
    simp only
    cases f.generator with
    | none => exact .throw nofun
    | some x =>
      simp only
      refine (Effect.Fails.modify _).bind fun _ => Effect.Fails.bind (fun _ => trivial) fun values =>
        .get_bind fun s => ?_
      cases found : s.machine.heap.iteratorAt x with
      | ok it => exact fun _ => trivial
      | error e =>
        exact fun _ => Error.bounded_of_tame overflow (s.machine.heap.tame_iteratorAt x e found)

theorem advance_bounded (overflow : may .overflow) (x : Handle) (exhausted : Nat) :
    (advance x exhausted : SessionM H W Unit).Fails (Error.Bounded may) := by
  intro s
  unfold advance
  rw [Effect.ensures_bind, Effect.ensures_get]
  split
  · exact nofun
  rw [Effect.ensures_bind, Effect.ensures_liftM]
  cases found : s.machine.heap.iteratorAt x with
  | error e => exact Error.bounded_of_tame overflow (s.machine.heap.tame_iteratorAt x e found)
  | ok it =>
    simp only
    split
    · exact nofun
    cases it.resume with
    | mk away it => cases away <;> exact trivial

section
variable (overflow : may .overflow)
  (fits : ∀ u, Q u → ∀ panic, u.misfit? = some panic → may panic) (returns : host.Returns)
include overflow fits returns

theorem invokeValue_bounded {m : Machine H W} {j : Job} (coded : Coded Q ⟨m, j⟩)
    (callee this : Value) (j' : Job) :
    (invokeValue host callee this).Ensures ⟨m, j'⟩ (fun _ _ => True) fun e _ => e.Bounded may := by
  unfold invokeValue
  rw [Effect.ensures_bind, Effect.ensures_get]
  simp only
  cases found : m.heap.callableOf callee with
  | error e => exact Error.bounded_of_tame overflow (m.heap.tame_callableOf callee e found)
  | ok callable =>
    cases callable with
    | script unit captures =>
      exact enter_bounded overflow (fits unit (coded.heap.closure found)) _ _ _
    | host path function => exact callHost_bounded returns path function this _

theorem invoke_bounded {m : Machine H W} {j : Job} (coded : Coded Q ⟨m, j⟩)
    (target : CallTarget) (this : Value) (j' : Job) :
    (invoke host target this).Ensures ⟨m, j'⟩ (fun _ _ => True) fun e _ => e.Bounded may := by
  cases target with
  | value callee => exact invokeValue_bounded overflow fits returns coded callee this j'
  | path path =>
    unfold invoke
    rw [Effect.ensures_bind, Effect.ensures_get]
    simp only
    split
    · exact nofun
    · exact invokeValue_bounded overflow fits returns coded _ this j'
  | unit name =>
    unfold invoke
    rw [Effect.ensures_bind, Effect.ensures_get]
    simp only
    cases found : m.units.get? name with
    | none => exact nofun
    | some unit => exact enter_bounded overflow (fits unit (coded.units name unit found)) _ _ _

theorem apply_bounded (coded : s.Coded Q) (flow : Flow) (next : Nat) :
    (apply host flow next).Ensures s (fun _ _ => True) fun e _ => e.Bounded may := by
  unfold apply
  rw [Effect.ensures_bind, Effect.ensures_get]
  split
  · exact nofun
  rw [Effect.ensures_bind, ensures_changeJob]
  cases flow with
  | next | jump target => exact trivial
  | call target this => exact invoke_bounded overflow fits returns (j := s.job) coded target this _
  | ret => exact leave_bounded .values _
  | returnLocals mask => exact leave_bounded (.locals mask) _
  | yield => exact suspend_bounded overflow _
  | finalize =>
    have clears : (clearChannel : SessionM H W Unit).Fails (Error.Bounded may) := fun _ => trivial
    exact (clears.bind fun _ => leave_bounded .values) _
  | advance x exhausted => exact advance_bounded overflow x exhausted _

theorem executeStep_bounded (coded : s.Coded Q) (frames : s.job.frames = f :: rest)
    (sound : s.Sound) (held : f.deferral.Holds (Error.Bounded may)) :
    (executeStep host f).Ensures s (fun _ _ => True) fun e _ => e.Bounded may := by
  obtain ⟨u, runs⟩ := sound.frames f (frames ▸ List.mem_cons_self)
  obtain ⟨targets, fusion, laid⟩ := runs.laid
  simp only [executeStep, runs.unit]
  cases found : u.stepAt? f.cursor with
  | none =>
    simp only
    split
    · exact apply_bounded overflow fits returns coded .ret f.cursor
    · exact Error.bounded_of_plain rfl
  | some step =>
    simp only [Effect.ensures_bind, Effect.ensures_get, Effect.ensures_onPart]
    have bounded : (Exec.action s.machine.units step.action).Ensures (context f s)
        (fun _ _ => True) fun e _ => e.Bounded may :=
      Exec.action_bounded overflow laid (laid.mem_of_stepAt? found).1 runs held
    have calm := Exec.action_keeps (h := s.machine.heap) (f := f) coded.units step.action
      (context f s) ⟨coded.heap.here, rfl, rfl⟩
    refine (bounded.and calm).mono (fun flow c after => ?_) fun _ _ after => after.1
    have moved : (withContext c s).Moved ⟨Q, True, True⟩ s.machine.heap s.job.frames :=
      Moved.withContext ⟨.refl, coded.heap, coded.units⟩ frames after.2
    exact apply_bounded overflow fits returns ⟨moved.coded, moved.units⟩ flow _

end

/-! ## Ticks -/

/-- An error that no frame takes is answered as it was raised. -/
theorem raise_passes (e : Error) :
    (raise e).Ensures s (fun _ _ => True) fun e' _ => e' = e := by
  obtain ⟨m, j⟩ := s
  by_cases fatal : e.isFatal = true
  · rw [Effect.ensures_of_eq_error (raise_of_fatal fatal m j)]
  · unfold Effect.Ensures
    rw [raise_of_not_fatal fatal]
    exact (unwind_guards e j.frames _).mono (fun _ _ _ => trivial) fun _ _ failed => failed.1

theorem settle_bounded {task : HostTask} (returns : task.Returns) :
    (settle task : SessionM H W Unit).Fails (Error.Bounded may) := by
  refine (Effect.Fails.modify _).bind fun _ => ?_
  cases failed : task.result with
  | ok values => exact fun _ => trivial
  | error e =>
    exact fun s => (raise_passes e).mono (fun _ _ _ => trivial) fun _ _ same =>
      same ▸ returns.bounded e failed

theorem tick_waits (returns : host.Returns) (sound : s.Sound) (quiet : s.Quiet)
    (waits : s.job.Returns) {mode : Mode} {budget : Budget} {result : Tick}
    (ran : tick host mode budget s = .ok result t) : t.job.Returns := by
  have code : ∀ g ∈ s.job.frames, g.Codes CodeUnit.Compiled := by
    intro g mem u unit
    obtain ⟨u', runs⟩ := sound.frames g mem
    cases runs.unit.symm.trans unit
    exact runs.compiled
  cases pending : s.job.pending with
  | none =>
    have carries := (Effect.ensures_of_eq_ok ran).mp (tick_carries mode budget sound quiet)
    intro task left e failed
    obtain ⟨function, call, after, w, w', polls, replied, -⟩ :=
      carries.awaits (Job.awaits_of_none pending) task left
    have returned := returns function call w
    rw [replied] at returned
    exact returned e failed
  | some task =>
    have kept : (tick host mode budget).Ensures s (fun _ t => t.job.Returns) (fun _ _ => True) := by
      refine tick_rule (fun task n pending _ _ => ?_) (fun task _ _ => ?_)
        (fun idle _ => absurd idle (by simp [pending]))
        (fun idle _ => absurd idle (by simp [pending]))
        fun f rest idle _ _ => absurd idle (by simp [pending])
      · intro task' left
        cases left
        exact waits task pending
      · refine (ensures_settle_idle task code).mono (fun _ t idle task' left => ?_)
          fun _ _ _ => trivial
        rw [idle] at left
        cases left
    exact (Effect.ensures_of_eq_ok ran).mp kept

theorem tick_bounded (plain : host.Plain CodeUnit.Compiled) (returns : host.Returns)
    (overflow : may .overflow) (fits : ∀ u, Q u → ∀ panic, u.misfit? = some panic → may panic)
    (arises : s.Arises host) (coded : s.Coded Q) (waits : s.job.Returns) (mode : Mode)
    (budget : Budget) :
    (tick host mode budget).Ensures s (fun _ _ => True) fun e _ => e.Bounded may := by
  refine tick_rule (fun _ _ _ _ _ => trivial) (fun task pending _ => ?_) (fun _ _ => trivial)
    (fun _ _ => trivial) fun f rest _ frames _ => ?_
  · exact settle_bounded (waits task pending) s
  · rw [ensures_routing]
    refine (executeStep_bounded overflow fits returns coded frames (arises.sound plain).1
      (arises.holds plain frames)).mono (fun _ _ _ => trivial) fun e t bounded => ?_
    exact (raise_passes e).mono (fun _ _ _ => trivial) fun _ _ same => same ▸ bounded

/-! ## Runs -/

def panicked : Except Error Outcome → Option Panic
  | .error e => e.panic?
  | .ok _ => none

theorem Drives.bounded {mode : Mode} {budget : Budget} {x : Except Error Outcome × Session H W}
    (plain : host.Plain Q) (compiled : ∀ u, Q u → u.Compiled) (returns : host.Returns)
    (overflow : may .overflow) (fits : ∀ u, Q u → ∀ panic, u.misfit? = some panic → may panic)
    (drives : Drives host mode budget s x) :
    s.Arises host → s.Coded Q → s.job.Returns → Fails (Error.Bounded may) x.1 := by
  have compiles : host.Plain CodeUnit.Compiled := plain.mono compiled
  have ticks := fun {s : Session H W} {budget} (arises : s.Arises host) (coded : s.Coded Q) waits =>
    tick_bounded compiles returns overflow fits arises coded waits mode budget
  induction drives with
  | fails ticked =>
    intro arises coded waits
    exact fails_error ((Effect.ensures_of_eq_error ticked).mp (ticks arises coded waits))
  | ends ticked => exact fun _ _ _ => fails_ok _
  | goes ticked _ ih =>
    intro arises coded waits
    obtain ⟨sound, quiet⟩ := arises.sound compiles
    exact ih (arises.tick ticked) (coded.tick plain ticked)
      (tick_waits returns sound quiet waits ticked)

theorem conclude_bounded {outcome : Except Error Outcome}
    (bounded : Fails (Error.Bounded may) outcome) :
    (conclude host outcome).Fails (Error.Bounded may) := by
  intro s
  cases outcome with
  | ok outcome => cases outcome <;> exact trivial
  | error e =>
    have told : ((torn s.machine s.job).heap.uncaught e).1.Bounded may := by
      unfold Heap.uncaught
      split
      · exact nofun
      · exact nofun
      · exact bounded e rfl
    simp only [conclude, Effect.ensures_bind]
    rw [Effect.ensures_of_eq_ok (teardown_eq s.machine s.job)]
    simp only [Effect.ensures_get, ensures_changeHeap, ensures_note]
    split
    · exact trivial
    · exact told

/-- Steps of units that were compiled without fusion are made of one instruction each. -/
theorem length_of_mem_executed (unfused : ∀ u, Q u → u.function.compile false = .ok u)
    (plain : host.Plain Q) (coded : s.Coded Q) {fuel : Nat} {budget : Budget} {step : Step}
    (mem : step ∈ executed host .bounded fuel budget s) : step.length = 1 := by
  obtain ⟨u, p, known, found⟩ := mem_executed plain fuel budget s coded step mem
  obtain ⟨targets, laid⟩ := CodeUnit.laid_of_compile (unfused u known)
  exact laid.length_eq_one found

/-- A bounded run of a session whose code came out of compilations ends, whatever its frames are at
and whatever its code does: it returns, or the process panics. It panics where a key overflows, or
where a known unit asks for more slots than a frame can have. If the run executes any step, the
instructions of all its steps but the last one are fewer than its budget; and if all code was
compiled without fusion, it executes no more instructions than its budget. -/
theorem runBounded_ends (compiled : ∀ u, Q u → u.Compiled) (plain : host.Plain Q)
    (coded : s.Coded Q) (budget : Nat) :
    ∃ fuel r t, runBounded host fuel budget s = some (r, t) ∧
      (s.Arises host → host.Returns → s.job.Returns →
        ∀ panic, panicked r = some panic →
          panic = .overflow ∨ ∃ u, Q u ∧ u.misfit? = some panic) ∧
      let steps := executed host .bounded fuel (some budget) s
      (steps ≠ [] → covered steps.dropLast < budget) ∧
      ((∀ u, Q u → u.function.compile false = .ok u) →
        covered steps = steps.length ∧ steps.length ≤ budget) := by
  obtain ⟨fuel, x, ends⟩ := drive_bounded_ends compiled plain budget s coded
  refine ⟨fuel, ((conclude host x.1).outcome x.2).1, ((conclude host x.1).outcome x.2).2, ?_,
    fun arises returns waits panic panics => ?_, ?_⟩
  · simp [runBounded, runIn, ends]
  · have bounded : Fails (Error.Bounded fun panic =>
        panic = .overflow ∨ ∃ u, Q u ∧ u.misfit? = some panic) x.1 :=
      (drives_of_drive ends).bounded plain compiled returns (.inl rfl)
        (fun u known _ misfit => .inr ⟨u, known, misfit⟩) arises coded waits
    have told := (conclude_bounded bounded : (conclude host x.1).Fails (Error.Bounded _)) x.2
    cases ran : conclude host x.1 x.2 with
    | ok outcome t =>
      rw [Effect.outcome, ran] at panics
      cases panics
    | error e t =>
      rw [Effect.outcome, ran] at panics
      exact (Effect.ensures_of_eq_error ran).mp told panic panics
  intro steps
  have less : steps ≠ [] → covered steps.dropLast < budget := covered_executed_lt fuel budget s
  refine ⟨less, fun unfused => ?_⟩
  have ones : ∀ step ∈ steps, step.length = 1 :=
    fun step mem => length_of_mem_executed unfused plain coded mem
  refine ⟨covered_of_ones ones, ?_⟩
  by_cases none : steps = []
  · simp [none]
  · have bound := less none
    rw [covered_of_ones fun step mem => ones step (List.dropLast_subset _ mem),
      List.length_dropLast] at bound
    omega

/-! A function that jumps back to its last instruction for ever. -/

def spin : Function :=
  { name := "spin", code := [{ op := .nop }, { op := .jumpBack, depth := 1 }] }

def spinUnit : CodeUnit := spin.assemble [none, some 1] false

theorem compile_spin : spin.compile false = .ok spinUnit :=
  Function.compile_eq_ok_iff.mpr ⟨rfl, [none, some 1], rfl, rfl⟩

def spun : System Unit Unit :=
  System.performs idle 0 [.callUnit spinUnit []] ⟨{ world := () }, [{}]⟩

def spinning : Session Unit Unit :=
  ⟨spun.machine, { frames := [{ unit := some spinUnit, capacity := 4 }] }⟩

theorem underway_spun : System.Underway idle spun := by
  have units : UnitTable.Sound {} := fun _ _ found => by cases found
  refine .performs (fun act mem job => ?_) (.turn (.start { world := () } rfl units) (.spawn _))
    Nat.one_pos
  cases List.mem_singleton.mp mem
  exact ⟨false, compile_spin⟩

theorem arises_spinning : spinning.Arises idle := ⟨_, 0, underway_spun, rfl⟩

theorem coded_spinning : spinning.Coded (· = spinUnit) := by
  have running := underway_spun.running (plain_idle _)
  refine ⟨⟨running.heap.accounted, fun _ _ _ found => ?_, fun f mem u runs => ?_⟩,
    fun _ _ found => (by cases found)⟩
  · rw [show spinning.machine.heap.slots = #[] from rfl] at found
    simp at found
  · cases List.mem_singleton.mp mem
    exact (Option.some.inj runs).symm

theorem runBounded_ends_spinning :
    ∃ fuel r t, runBounded idle fuel 3 spinning = some (r, t) ∧
      (∀ panic, panicked r = some panic → panic = .overflow) ∧
      (executed idle .bounded fuel (some 3) spinning).length ≤ 3 := by
  have compiles : ∀ u, u = spinUnit → u.function.compile false = .ok u := by
    rintro u rfl
    exact compile_spin
  obtain ⟨fuel, r, t, ends, panics, -, most⟩ := runBounded_ends (fun u same =>
    ⟨false, compiles u same⟩) (plain_idle _) coded_spinning 3
  refine ⟨fuel, r, t, ends, fun panic fails => ?_, (most compiles).2⟩
  rcases panics arises_spinning (fun _ _ _ => trivial) nofun panic fails with
    past | ⟨u, rfl, misfit⟩
  · exact past
  · cases misfit

example : (executed idle .bounded 4 (some 3) spinning).length = 3 := rfl

/-! A function with so many deferred blocks that no memory has slots for them all. -/

def deep : Function :=
  { name := "deep", code := [{ op := .deferArm, int := Int64.maxValue }, { op := .ret }] }

def deepUnit : CodeUnit := deep.assemble [none, none] false

theorem compile_deep : deep.compile false = .ok deepUnit :=
  Function.compile_eq_ok_iff.mpr ⟨rfl, [none, none], rfl, rfl⟩

def diver : Function :=
  { name := "main", code := [{ op := .callDirect, str := "deep" }, { op := .ret }] }

def diverUnit : CodeUnit := diver.assemble [none, none] false

theorem compile_diver : diver.compile false = .ok diverUnit :=
  Function.compile_eq_ok_iff.mpr ⟨rfl, [none, none], rfl, rfl⟩

/-- The machine knows the function, and another that calls it was called. -/
def diving : System Unit Unit :=
  System.performs idle 0 [.callUnit diverUnit []]
    ⟨{ world := (), units := ⟨[("deep", deepUnit)]⟩ }, [{}]⟩

theorem underway_diving : System.Underway idle diving := by
  have units : UnitTable.Sound ⟨[("deep", deepUnit)]⟩ :=
    UnitTable.codes_single ⟨false, compile_deep⟩ "deep"
  refine .performs (fun act mem job => ?_) (.turn (.start { world := (), units := _ } rfl units)
    (.spawn _)) Nat.one_pos
  cases List.mem_singleton.mp mem
  exact ⟨false, compile_diver⟩

/-- The call of the function that is deep ends the process. -/
theorem runBounded_panics : System.Underway idle diving ∧ ∃ job ∈ diving.jobs,
    ((runBounded idle 2 10 ⟨diving.machine, job⟩).bind fun x => panicked x.1) = some .capacity :=
  ⟨underway_diving, by decide +kernel⟩

end Session

end ScriptMachine
