import ScriptMachine.Proofs.Exec.Deferred
import ScriptMachine.Proofs.Machine.Fusion
import ScriptMachine.Proofs.Machine.System

/-!
# Systems whose jobs keep their numbers

A turn is one thing that happens to a system: a job comes into being, or does one act, or the
embedding program uses the machine. Jobs are numbered in the order in which they came, so a job can
be followed from turn to turn. All code that a system ever runs came out of a compilation; every
turn keeps the heap, the units and the frames such that it can run.
-/

set_option autoImplicit false

namespace ScriptMachine

variable {H W : Type}

/-! ## Operations on the heap -/

theorem Object.Plain.sound {o : Object H} (plain : o.Plain CodeUnit.Compiled) : o.Sound := by
  cases o with
  | callable c =>
    cases c with
    | script => exact plain
    | host => trivial
  | iterator it =>
    intro f parked
    rw [Heap.parked_of_walk plain] at parked
    cases parked
  | _ => trivial

theorem HeapOp.Plain.any {Q : CodeUnit → Prop} {op : HeapOp H} (plain : op.Plain Q) :
    op.Plain fun _ => True := by
  cases op with
  | alloc o =>
    cases o with
    | callable c => cases c <;> trivial
    | iterator => exact plain
    | _ => trivial
  | _ => trivial

theorem Frame.Runs.laid {f : Frame} {u : CodeUnit} (runs : f.Runs u) :
    ∃ targets fusion, u.Laid targets fusion := by
  obtain ⟨fusion, compiled⟩ := runs.compiled
  obtain ⟨targets, laid⟩ := CodeUnit.laid_of_compile compiled
  exact ⟨targets, fusion, laid⟩

theorem Host.Plain.any {Q : CodeUnit → Prop} {host : Host H W} (plain : host.Plain Q) :
    host.Plain fun _ => True := by
  intro function call w
  obtain ⟨ops, plain, after⟩ := plain function call w
  exact ⟨ops, fun op mem => (plain op mem).any, after⟩

theorem Heap.Sound.after {ops : List (HeapOp H)} (plain : ∀ op ∈ ops, op.Plain CodeUnit.Compiled) :
    ∀ {h : Heap H}, h.Sound → (h.after ops).Sound := by
  induction ops with
  | nil => exact fun sound => sound
  | cons op ops ih =>
    intro h sound
    obtain ⟨first, rest⟩ := List.forall_mem_cons.mp plain
    have new : ∀ o, op = .alloc o → ∀ _ : Handle, o.Sound := by
      rintro o rfl _
      exact Object.Plain.sound first
    exact ih rest
      (Heap.keeps_sound (fun _ => perform_keeps Object.Sound.stable op new) h sound).outcome

namespace Session

variable {host : Host H W} {m : Machine H W} {f : Frame} {rest : List Frame}
  {channel : List Value} {s : Session H W}

/-! ## Acts on sound sessions

What does not call the embedding program has its rule with fusion already, so these are the rules
for what may call it. -/

theorem Alike.keeps {α : Type} {op op' : SessionM H W α} (alike : Alike false op op') :
    op.Keeps Session.Sound := fun s sound => (alike s sound).keeps

theorem takeReply_sound (reply : HostReply) {call : HostCall H} (world : W)
    (heap : call.heap.Sound) : (takeReply (reply, call, world)).Keeps Session.Sound :=
  (alike_takeReply reply world heap : Alike false _ _).keeps

/-- Where control goes if the generator has ended is a position that the frame may have. -/
theorem advance_sound (handle : Handle) {exhausted : Nat} (sound : s.Sound)
    (reaches : s.Reaches exhausted) :
    (advance handle exhausted).Ensures s (fun _ => Session.Sound) (fun _ => Session.Sound) := by
  have alike : (advance handle exhausted : SessionM H W Unit).Mirrors (Session.recompiled false)
      Session.Sound (advance handle exhausted) s := alike_advance handle sound reaches
  exact alike.keeps

theorem callHost_sound (plain : host.Plain CodeUnit.Compiled) (path : String) (function : H)
    (this : Value) : (callHost host path function this).Keeps Session.Sound := by
  refine alike_drainChannel.keeps.bind fun args => .get_bind fun s sound => ?_
  obtain ⟨ops, plain, after⟩ := plain function
    { path, cursor := (s.job.frames.head?.map Frame.cursor).getD 0, this, args
      heap := s.machine.heap } s.machine.world
  exact takeReply_sound _ _ (after ▸ Heap.Sound.after plain sound.heap) s sound

theorem invokeValue_sound (plain : host.Plain CodeUnit.Compiled) (callee this : Value) :
    (invokeValue host callee this).Keeps Session.Sound := by
  refine .get_bind fun s sound => ?_
  cases found : s.machine.heap.callableOf callee with
  | error e => exact ((alike_dispose _).bind fun _ => alike_throw e).keeps s sound
  | ok callable =>
    cases callable with
    | script unit captures =>
      exact (alike_enter (sound.heap.callable found) callee this).keeps s sound
    | host path function =>
      exact ((alike_dispose _).keeps.bind fun _ => callHost_sound plain path function this) s sound

theorem invoke_sound (plain : host.Plain CodeUnit.Compiled) (target : CallTarget) (this : Value) :
    (invoke host target this).Keeps Session.Sound := by
  have refused : ∀ e : Error,
      (dispose [this] >>= fun _ => throw e : SessionM H W Unit).Keeps Session.Sound :=
    fun e => ((alike_dispose _).bind fun _ => alike_throw e).keeps
  cases target with
  | value callee => exact invokeValue_sound plain callee this
  | path path =>
    refine .get_bind fun s sound => ?_
    simp only
    split
    · exact refused _ s sound
    · exact invokeValue_sound plain _ this s sound
  | unit name =>
    refine .get_bind fun s sound => ?_
    cases found : SortedMap.get? s.machine.units name with
    | none => exact refused _ s sound
    | some unit => exact (alike_enter (sound.units name unit found) .null this).keeps s sound

theorem follow_sound (plain : host.Plain CodeUnit.Compiled) {flow : Flow} (sound : s.Sound)
    (heads : s.Heads flow) :
    (follow host flow).Ensures s (fun _ => Session.Sound) (fun _ => Session.Sound) := by
  cases flow with
  | next => exact sound
  | jump target =>
    have mirrors : (changeJob fun j => j.changeTop fun f => { f with cursor := target } :
        SessionM H W Unit).Mirrors (Session.recompiled false) Session.Sound
        (changeJob fun j => j.changeTop fun f => { f with cursor := target }) s :=
      mirrors_changeTop sound (fun _ => rfl) fun _ top =>
        Reaches.sound (p := target) heads sound top
    exact mirrors.keeps
  | call target this => exact invoke_sound plain target this s sound
  | ret => exact (alike_leave .values).keeps s sound
  | returnLocals mask => exact (alike_leave (.locals mask)).keeps s sound
  | yield => exact alike_suspend.keeps s sound
  | finalize => exact (alike_clearChannel.bind fun _ => alike_leave .values).keeps s sound
  | advance handle exhausted => exact advance_sound handle sound heads

theorem apply_sound (plain : host.Plain CodeUnit.Compiled) {flow : Flow} {next : Nat} {u : CodeUnit}
    (sound : Session.Sound ⟨m, ⟨f :: rest, channel, none⟩⟩) (runs : f.Runs u)
    (boundary : u.Boundary next) (lands : Lands u flow) :
    (apply host flow next).Ensures ⟨m, ⟨f :: rest, channel, none⟩⟩ (fun _ => Session.Sound)
      (fun _ => Session.Sound) := by
  have placed : Session.Sound ⟨m, ⟨{ f with cursor := next } :: rest, channel, none⟩⟩ :=
    ⟨sound.heap, sound.units, List.forall_mem_cons.mpr
      ⟨⟨u, runs.unit, runs.compiled, runs.slots, boundary, runs.trap, runs.onExhaust⟩,
        (List.forall_mem_cons.mp sound.frames).2⟩⟩
  refine follow_sound (s := ⟨m, ⟨{ f with cursor := next } :: rest, channel, none⟩⟩) plain placed ?_
  intro g v top unit
  cases top
  exact Option.some.inj (runs.unit.symm.trans unit) ▸ lands

/-- Instructions of a unit, one after the other, leave a sound context and go to where control can
be. -/
theorem known_sequence {u : CodeUnit} {targets : List (Option Nat)} {fusion : Bool}
    (units : m.units.Sound) (laid : u.Laid targets fusion) {span : List Resolved} :
    (∀ r ∈ span, r ∈ u.resolved) → ∀ {c : Context H}, c.Sound u →
      Known u (Exec.sequence m.units span c) := by
  induction span with
  | nil => exact fun _ _ sound => ⟨sound, trivial⟩
  | cons r span ih =>
    intro listed c sound
    obtain ⟨first, others⟩ := List.forall_mem_cons.mp listed
    have known := known_single units laid first sound
    cases run : Exec.single m.units r c with
    | error e c' =>
      rw [run] at known
      rw [Exec.sequence_error m.units run]
      exact known
    | ok flow c' =>
      rw [run] at known
      by_cases next : flow = .next
      · subst next
        rw [Exec.sequence_next m.units run]
        exact ih others known.1
      · rw [Exec.sequence_stop m.units run next]
        exact known

theorem executeStep_sound (plain : host.Plain CodeUnit.Compiled)
    (sound : Session.Sound ⟨m, ⟨f :: rest, channel, none⟩⟩) :
    (executeStep host f).Ensures ⟨m, ⟨f :: rest, channel, none⟩⟩ (fun _ => Session.Sound)
      (fun _ => Session.Sound) := by
  obtain ⟨⟨u, runs⟩, below⟩ := List.forall_mem_cons.mp sound.frames
  obtain ⟨targets, fusion, laid⟩ := runs.laid
  cases found : u.stepAt? f.cursor with
  | none =>
    have beyond : u.code.length ≤ f.cursor := runs.cursor.resolve_left (by simp [found])
    simp only [executeStep, runs.unit, found, beyond, if_true]
    exact apply_sound plain sound runs runs.cursor trivial
  | some step =>
    have mem := (laid.mem_of_stepAt? found).1
    have context : Context.Sound u (⟨m.heap, m.globals, f, channel⟩ : Context H) :=
      ⟨sound.heap, runs⟩
    have known : Known u (Exec.sequence m.units (u.span step) ⟨m.heap, m.globals, f, channel⟩) :=
      known_sequence sound.units laid
        (fun r member => List.mem_of_mem_drop (List.mem_of_mem_take member)) context
    have ran := executeStep_eq host m rest (c := ⟨m.heap, m.globals, f, channel⟩) runs.unit found
    rw [Exec.action_of_runs m.units laid mem context.frame] at ran
    unfold Effect.Ensures
    rw [show executeStep host f ⟨m, ⟨f :: rest, channel, none⟩⟩ = _ from ran]
    cases acted : Exec.sequence m.units (u.span step) ⟨m.heap, m.globals, f, channel⟩ with
    | error e c => exact sound_around sound.units below (acted ▸ known)
    | ok flow c =>
      rw [acted] at known
      have after := sound_around sound.units below known.1
      exact apply_sound plain after known.1.frame (laid.boundary_next mem) known.2

theorem routing_sound {op : SessionM H W Unit}
    (ran : op.Ensures s (fun _ => Session.Sound) (fun _ => Session.Sound)) :
    (routing op).Ensures s (fun _ => Session.Sound) (fun _ => Session.Sound) := by
  rw [ensures_routing]
  exact ran.mono (fun _ _ sound => sound) fun e t sound => (alike_raise e).keeps t sound

theorem tick_sound (plain : host.Plain CodeUnit.Compiled) (mode : Mode) (budget : Budget) :
    (tick host mode budget).Keeps Session.Sound := by
  intro s sound
  refine tick_rule (fun task n _ _ _ => ?_) (fun task _ _ => ?_) (fun _ _ => ?_)
    (fun _ _ => sound) fun f rest idle frames _ => ?_
  · exact ⟨sound.heap, sound.units, sound.frames⟩
  · exact (alike_settle task).keeps s sound
  · exact ⟨sound.heap, sound.units, sound.frames⟩
  · obtain ⟨m, _, channel, _⟩ := s
    cases idle
    cases frames
    exact routing_sound (executeStep_sound plain sound)

end Session

theorem Act.sound {host : Host H W} (plain : host.Plain CodeUnit.Compiled) (act : Act)
    (code : act.Codes CodeUnit.Compiled) : (act.op host).Keeps Session.Sound := by
  have started : ∀ (args : List Value) {call : SessionM H W Unit}, call.Keeps Session.Sound →
      (Session.start args call).Keeps Session.Sound := by
    intro args call keeps
    refine Effect.Keeps.bind (.modify fun s sound => ⟨sound.heap, sound.units, sound.frames⟩)
      fun _ s sound => ?_
    rw [Effect.ensures_onFailure]
    exact (keeps s sound).mono (fun _ _ sound => sound) fun _ t sound =>
      (Session.alike_clearChannel.keeps t sound).outcome
  have invoked := fun target => Session.invoke_sound plain target .null
  cases act with
  | callPath path args =>
    refine .get_bind fun s sound => ?_
    simp only
    split
    · exact started args (invoked (.path path)) s sound
    split
    · exact started args (invoked (.unit path)) s sound
    · exact ((Session.alike_dispose args).bind fun _ => Session.alike_throw _).keeps s sound
  | callValue callee args => exact started args (invoked (.value callee))
  | callUnit unit args => exact started args (Session.alike_enter code .null .null).keeps
  | resume x =>
    intro s sound
    refine Session.advance_sound x sound fun f u top runs => ?_
    obtain ⟨v, known⟩ := sound.frames f (List.mem_of_mem_head? top)
    obtain ⟨targets, fusion, laid⟩ := known.laid
    exact Option.some.inj (known.unit.symm.trans runs) ▸ laid.boundary_zero
  | tick mode budget => exact (Session.tick_sound plain mode budget).bind fun _ => .pure _ ()
  | conclude outcome => exact (Session.alike_conclude host outcome).keeps.bind fun _ => .pure _ ()
  | teardown => exact Session.alike_teardown.keeps

/-! ## Turns -/

/-- What a turn of a system consists of. -/
inductive Deed where
  | spawn
  | act (job : Nat) (act : Act)
  /-- The embedding program uses the machine. -/
  | embed

def Act.Admits (job : Job) : Act → Prop
  | callUnit unit _ => unit.Compiled
  | resume _ => job = {}
  | _ => True

theorem Act.Admits.codes {job : Job} {act : Act} (admits : act.Admits job) :
    act.Codes CodeUnit.Compiled := by
  cases act with
  | callUnit => exact admits
  | _ => trivial

namespace System

variable {host : Host H W} {deed : Deed} {s t : System H W}

/-- What can happen to a system. Jobs keep their numbers; one that is over stays without frames. -/
inductive Turn (host : Host H W) : Deed → System H W → System H W → Prop
  | spawn (s : System H W) : Turn host .spawn s ⟨s.machine, s.jobs ++ [({} : Job)]⟩
  | act {s : System H W} {i : Nat} {job : Job} (act : Act) (t : Session H W) :
      s.jobs[i]? = some job → act.Admits job → ((act.op host).outcome ⟨s.machine, job⟩).2 = t →
      Turn host (.act i act) s ⟨t.machine, s.jobs.set i t.job⟩
  | embed (s : System H W) (m : Machine H W) (ops : List (HeapOp H)) :
      (∀ op ∈ ops, op.Plain CodeUnit.Compiled) → m.heap = s.machine.heap.after ops →
      m.units.Sound → Turn host .embed s ⟨m, s.jobs⟩

/-- What becomes in turns of a machine with an empty heap and compiled units. -/
inductive Underway (host : Host H W) : System H W → Prop
  | start (m : Machine H W) : m.heap = {} → m.units.Sound → Underway host ⟨m, []⟩
  | turn {deed : Deed} {s t : System H W} : Underway host s → Turn host deed s t → Underway host t

structure Running (s : System H W) : Prop where
  heap : s.machine.heap.Sound
  units : s.machine.units.Sound
  frames : ∀ job ∈ s.jobs, ∀ f ∈ job.frames, f.Sound
  protocol : s.machine.heap.Protocol s.frames

theorem Running.session (running : s.Running) {job : Job} (mem : job ∈ s.jobs) :
    Session.Sound ⟨s.machine, job⟩ :=
  ⟨running.heap, running.units, running.frames job mem⟩

theorem split_jobs {i : Nat} {job : Job} (at_ : s.jobs[i]? = some job) (job' : Job) :
    ∃ before after, s.jobs = before ++ job :: after ∧
      s.jobs.set i job' = before ++ job' :: after := by
  obtain ⟨inside, rfl⟩ := List.getElem?_eq_some_iff.mp at_
  obtain ⟨before, after, same, _, changed⟩ := @List.exists_of_set _ i job' _ inside
  exact ⟨before, after, same, changed⟩

theorem Turn.protocol (plain : host.Plain CodeUnit.Compiled) (turn : Turn host deed s t)
    (running : s.Running) : t.machine.heap.Protocol t.frames := by
  have sound : s.Sound := ⟨running.heap.accounted, running.protocol⟩
  obtain ⟨m, jobs⟩ := s
  cases turn with
  | spawn => simpa [frames] using running.protocol
  | act act u found _ result =>
    obtain ⟨before, after, same, changed⟩ := split_jobs found u.job
    rw [changed]
    subst same
    exact (Step.sound plain.any (.act m before after _ act u result) sound).protocol
  | embed _ m' ops makes heap =>
    have grows := Heap.Grows.after (running.heap.accounted.coded []).here
      fun op mem => (makes op mem).any
    exact heap ▸ running.protocol.grows grows

theorem Turn.running (plain : host.Plain CodeUnit.Compiled) (turn : Turn host deed s t)
    (running : s.Running) : t.Running := by
  have protocol := turn.protocol plain running
  cases turn with
  | spawn =>
    refine ⟨running.heap, running.units, fun job mem => ?_, protocol⟩
    rcases List.mem_append.mp mem with old | new
    · exact running.frames job old
    · rw [List.mem_singleton.mp new]
      exact fun f mem => absurd mem List.not_mem_nil
  | act act u found admits result =>
    have sound : u.Sound := result ▸
      (act.sound plain admits.codes _ (running.session (List.mem_of_getElem? found))).outcome
    refine ⟨sound.heap, sound.units, fun job mem => ?_, protocol⟩
    rcases List.mem_or_eq_of_mem_set mem with old | rfl
    · exact running.frames job old
    · exact sound.frames
  | embed _ m ops makes heap units =>
    exact ⟨heap ▸ running.heap.after makes, units, running.frames, protocol⟩

theorem Underway.running (plain : host.Plain CodeUnit.Compiled) (underway : Underway host s) :
    s.Running := by
  induction underway with
  | start m empty units =>
    refine ⟨empty ▸ Heap.sound_empty, units, fun job mem => absurd mem List.not_mem_nil, ?_, ?_⟩
    · intro x it found
      rw [empty] at found
      cases found
    · exact fun f mem => absurd mem List.not_mem_nil
  | turn _ turn ih => exact turn.running plain ih

/-! ## Runs as turns -/

def perform (host : Host H W) (s : System H W) (i : Nat) (act : Act) : System H W :=
  match s.jobs[i]? with
  | some job =>
    let t := ((act.op host).outcome ⟨s.machine, job⟩).2
    ⟨t.machine, s.jobs.set i t.job⟩
  | none => s

theorem turn_perform {i : Nat} {job : Job} {act : Act} (found : s.jobs[i]? = some job)
    (admits : act.Admits job) : Turn host (.act i act) s (s.perform host i act) := by
  unfold perform
  rw [found]
  exact .act act _ found admits rfl

def performs (host : Host H W) (i : Nat) (acts : List Act) (s : System H W) : System H W :=
  acts.foldl (fun s act => s.perform host i act) s

theorem Underway.performs {i : Nat} {acts : List Act} :
    (∀ act ∈ acts, ∀ job, act.Admits job) → ∀ {s : System H W}, Underway host s →
      i < s.jobs.length → Underway host (s.performs host i acts) := by
  induction acts with
  | nil => exact fun _ _ underway _ => underway
  | cons act acts ih =>
    intro admits s underway inside
    obtain ⟨first, others⟩ := List.forall_mem_cons.mp admits
    have found : s.jobs[i]? = some s.jobs[i] := List.getElem?_eq_getElem inside
    refine ih others (underway.turn (turn_perform found (first _))) ?_
    simpa [perform, found] using inside

theorem keeps_of_drives {I : System H W → Prop} {E : Error → Prop} {mode : Mode} {i : Nat}
    (ticks : ∀ (budget : Budget) (s : System H W) (job : Job), I s → s.jobs[i]? = some job →
      (Session.tick host mode budget).Ensures ⟨s.machine, job⟩
        (fun _ t => I ⟨t.machine, s.jobs.set i t.job⟩)
        fun e t => E e ∧ I ⟨t.machine, s.jobs.set i t.job⟩)
    {budget : Budget} {u : Session H W} {x : Except Error Outcome × Session H W}
    (drives : Session.Drives host mode budget u x) :
    ∀ {s : System H W}, s.machine = u.machine → s.jobs[i]? = some u.job → I s →
      I ⟨x.2.machine, s.jobs.set i x.2.job⟩ ∧ ∀ e, x.1 = .error e → E e := by
  induction drives with
  | fails ticked =>
    rintro ⟨m, jobs⟩ rfl found here
    obtain ⟨bad, kept⟩ := (Effect.ensures_of_eq_error ticked).mp (ticks _ _ _ here found)
    refine ⟨kept, fun e failed => ?_⟩
    cases failed
    exact bad
  | ends ticked =>
    rintro ⟨m, jobs⟩ rfl found here
    exact ⟨(Effect.ensures_of_eq_ok ticked).mp (ticks _ _ _ here found), fun e failed => by
      cases failed⟩
  | goes ticked _ ih =>
    rintro ⟨m, jobs⟩ rfl found here
    have inside := (List.getElem?_eq_some_iff.mp found).1
    have kept := (Effect.ensures_of_eq_ok ticked).mp (ticks _ _ _ here found)
    have again := ih rfl (List.getElem?_set_self inside) kept
    rwa [List.set_set] at again

/-- A system is still underway when one of its jobs was run on. -/
theorem Underway.drive {mode : Mode} {fuel : Nat} {budget : Budget} {s : System H W} {i : Nat}
    {job : Job} {x : Except Error Outcome × Session H W} (underway : Underway host s)
    (found : s.jobs[i]? = some job)
    (ran : Session.drive host mode fuel budget ⟨s.machine, job⟩ = some x) :
    Underway host ⟨x.2.machine, s.jobs.set i x.2.job⟩ := by
  refine (keeps_of_drives (E := fun _ => True) (fun budget s job underway found => ?_)
    (Session.drives_of_drive ran) rfl found underway).1
  have turned := underway.turn (.act (.tick mode budget) _ found trivial
    (Effect.outcome_bind_pure ..))
  exact (Effect.ensures_of_outcome (I := fun t => Underway host ⟨t.machine, s.jobs.set i t.job⟩)
    turned).mono (fun _ _ turned => turned) fun _ _ turned => ⟨trivial, turned⟩

end System

end ScriptMachine
