import Mathlib.Logic.Relation
import ScriptMachine.Proofs.Machine.Transfers

/-!
# Jobs in turns on one machine

A system is a machine with all jobs on it. Its steps are what the embedding program can do, one tick
of one job at a time, so every interleaving of jobs is a run. Along each run the protocol of
generators is kept, and a generator that has ended never has a frame again.
-/

set_option autoImplicit false

namespace ScriptMachine

variable {H W : Type}

/-! ## Whole runs as moves -/

namespace Machine

variable {host : Host H W} {p : Heap.Permits} {h : Heap H} {m m' : Machine H W}

theorem Moved.alone (moved : m.Moved p h [] []) : Session.Moved p h [] ⟨m, {}⟩ := moved

theorem resumed_moved (plain : host.Plain p.code) (parks : p.park) {fuel : Nat}
    {s : Session H W} {r : Except Error Bool} (moved : s.Moved p h [])
    (ran : resumed host fuel s = some (r, m')) : m'.Moved p h [] [] := by
  obtain ⟨⟨outcome, t⟩, ended, answer⟩ := Option.map_eq_some_iff.mp ran
  have after : t.Moved p h [] := by
    obtain ⟨⟨result, u⟩, driven, concluded⟩ := Option.map_eq_some_iff.mp ended
    have kept := Session.conclude_keeps host result u
      (Session.drive_keeps plain parks _ _ _ moved driven)
    have final : ((Session.conclude host result).outcome u).2 = t := congrArg Prod.snd concluded
    subst final
    unfold Effect.outcome
    cases last : Session.conclude host result u with
    | ok a t => exact (Effect.ensures_of_eq_ok last).mp kept
    | error e t => exact (Effect.ensures_of_eq_error last).mp kept
  have here := after.here
  rw [Session.run_empties ended] at here
  have disposed := fun values => (here.dispose values).machine
  cases outcome with
  | error e =>
    cases answer
    exact here.machine
  | ok outcome =>
    cases outcome with
    | completed values =>
      cases answer
      exact disposed values
    | _ =>
      cases answer
      exact here.machine

theorem walk_of_ok {x : Handle} {more : Bool} {k : Heap H}
    (walked : Heap.advanceWalk x m.heap = .ok more k) :
    nextValue.walk (H := H) (W := W) x m = some (.ok more, { m with heap := k }) := by
  simp [nextValue.walk, Effect.outcome, liftM, monadLift, MonadLift.monadLift, Effect.onPart,
    walked]

theorem walk_of_error {x : Handle} {e : Error} {k : Heap H}
    (walked : Heap.advanceWalk x m.heap = .error e k) :
    nextValue.walk (H := H) (W := W) x m = some (.error e, { m with heap := k }) := by
  simp [nextValue.walk, Effect.outcome, liftM, monadLift, MonadLift.monadLift, Effect.onPart,
    walked]

/-- A generator that the embedding program moves on runs in a job of its own, which is gone
afterwards. -/
theorem nextValue_moved (plain : host.Plain p.code) (starts : p.start) (parks : p.park)
    {fuel : Nat} {v : Value} {r : Except Error (Option Value)} (moved : m.Moved p h [] [])
    (ran : nextValue host fuel v m = some (r, m')) : m'.Moved p h [] [] := by
  rw [nextValue_eq] at ran
  split at ran
  · cases ran
    exact moved
  · rename_i x it _
    split at ran
    · cases ran
      exact moved
    obtain ⟨⟨result, m''⟩, advanced, answer⟩ := Option.map_eq_some_iff.mp ran
    cases answer
    split at advanced
    · rw [generator_eq] at advanced
      have kept := Session.ensures_advance x 0 moved.alone (.inl starts)
      cases resumes : Session.advance x 0 ⟨m, {}⟩ with
      | ok a s =>
        rw [Effect.ensures_of_eq_ok resumes] at kept
        rw [resumes] at advanced
        exact resumed_moved plain parks kept advanced
      | error e s =>
        rw [Effect.ensures_of_eq_error resumes] at kept
        rw [resumes] at advanced
        cases advanced
        have same := (Effect.ensures_of_eq_error resumes).mp (Session.advance_fails x 0 ⟨m, {}⟩)
        exact same ▸ moved
    · have kept := Heap.Grows.keeps
        (fun P stable => Heap.advanceWalk_keeps stable x) m.heap moved.coded.here
      cases walked : Heap.advanceWalk x m.heap with
      | ok a k =>
        rw [Effect.ensures_of_eq_ok walked] at kept
        rw [walk_of_ok walked] at advanced
        cases advanced
        exact moved.move (.heap kept)
      | error e k =>
        rw [Effect.ensures_of_eq_error walked] at kept
        rw [walk_of_error walked] at advanced
        cases advanced
        exact moved.move (.heap kept)

end Machine

/-! ## Acts of a job -/

theorem Heap.Accounted.coded {h : Heap H} (accounted : h.Accounted [])
    (fs : List Frame) : h.Coded (fun _ => True) fs := by
  refine ⟨accounted, fun i slot o _ _ => ?_, fun f _ u _ => trivial⟩
  cases o with
  | callable c => cases c <;> trivial
  | iterator it => exact fun _ _ _ _ => trivial
  | _ => trivial

def Heap.Permits.any : Heap.Permits := ⟨fun _ => True, True, True⟩

inductive Act where
  | callPath (path : String) (args : List Value)
  | callValue (callee : Value) (args : List Value)
  | callUnit (unit : CodeUnit) (args : List Value)
  | resume (generator : Handle)
  | tick (mode : Mode) (budget : Budget)
  | conclude (outcome : Except Error Outcome)
  | teardown

def Act.op (host : Host H W) : Act → SessionM H W Unit
  | callPath path args => Session.startPath host path args
  | callValue callee args => Session.startValue host callee args
  | callUnit unit args => Session.startUnit unit args
  | resume x => Session.advance x 0
  | tick mode budget => do let _ ← Session.tick host mode budget
  | conclude outcome => do let _ ← Session.conclude host outcome
  | teardown => Session.teardown

def Act.Codes (Q : CodeUnit → Prop) : Act → Prop
  | callUnit unit _ => Q unit
  | _ => True

theorem Act.keeps {p : Heap.Permits} (starts : p.start) (parks : p.park) {host : Host H W}
    (plain : host.Plain p.code) {h : Heap H} {fs : List Frame} (act : Act) (code : act.Codes p.code) :
    (act.op host).Keeps (Session.Moved p h fs) := by
  have invoked : ∀ target, (Session.invoke host target .null).Keeps (Session.Moved p h fs) :=
    fun target s moved => Session.ensures_invoke plain target .null moved (.inl starts)
  cases act with
  | callPath path args =>
    refine .get_bind fun s moved => ?_
    simp only
    split
    · exact Session.start_keeps (invoked (.path path)) args s moved
    split
    · exact Session.start_keeps (invoked (.unit path)) args s moved
    · exact ((Session.moved_of_at fun _ => Session.dispose_at args).bind fun _ => .throw _ _) s moved
  | callValue callee args => exact Session.start_keeps (invoked (.value callee)) args
  | callUnit unit args =>
    refine Session.start_keeps (fun s moved => ?_) args
    exact Session.ensures_enter code .null .null moved (.inl starts)
  | resume x => exact fun s moved => Session.ensures_advance x 0 moved (.inl starts)
  | tick mode budget =>
    refine Effect.Keeps.bind (fun s moved => ?_) fun _ => .pure _ ()
    exact Session.ensures_tick plain mode budget moved (.inl parks)
  | conclude outcome => exact (Session.conclude_keeps host outcome).bind fun _ => .pure _ ()
  | teardown => exact Session.teardown_keeps

/-! ## Systems -/

/-- A machine with the jobs that run on it. -/
structure System (H W : Type) where
  machine : Machine H W
  jobs : List Job := []

namespace System

variable {host : Host H W} {s t : System H W} {x : Handle}

def frames (s : System H W) : List Frame := s.jobs.flatMap Job.frames

/-- What the embedding program can do. A job is dropped when it has no frames any more, which is so
once it is over or was torn down. -/
inductive Step (host : Host H W) : System H W → System H W → Prop
  | spawn (m : Machine H W) (jobs : List Job) : Step host ⟨m, jobs⟩ ⟨m, {} :: jobs⟩
  | act (m : Machine H W) (before after : List Job) (job : Job) (act : Act) (t : Session H W) :
      ((act.op host).outcome ⟨m, job⟩).2 = t →
      Step host ⟨m, before ++ job :: after⟩ ⟨t.machine, before ++ t.job :: after⟩
  | drop (m : Machine H W) (before after : List Job) (job : Job) : job.frames = [] →
      Step host ⟨m, before ++ job :: after⟩ ⟨m, before ++ after⟩
  | nextValue (m m' : Machine H W) (jobs : List Job) (fuel : Nat) (v : Value)
      (r : Except Error (Option Value)) : m.nextValue host fuel v = some (r, m') →
      Step host ⟨m, jobs⟩ ⟨m', jobs⟩
  /-- The embedding program uses the heap, and changes anything else of the machine. -/
  | embed (m m' : Machine H W) (jobs : List Job) (ops : List (HeapOp H)) :
      (∀ op ∈ ops, op.Plain fun _ => True) → m'.heap = m.heap.after ops →
      Step host ⟨m, jobs⟩ ⟨m', jobs⟩

def Steps (host : Host H W) : System H W → System H W → Prop := Relation.ReflTransGen (Step host)

/-- What becomes of a machine with an empty heap and no jobs. -/
def Reachable (host : Host H W) (s : System H W) : Prop :=
  ∃ m : Machine H W, m.heap = {} ∧ Steps host ⟨m, []⟩ s

/-- The accounts of the heap are in order, and generators follow the protocol. -/
structure Sound (s : System H W) : Prop where
  accounted : s.machine.heap.Accounted []
  protocol : s.machine.heap.Protocol s.frames

theorem Step.moves (plain : host.Plain fun _ => True) (step : Step host s t)
    (accounted : s.machine.heap.Accounted []) :
    ∃ fs gs others, s.frames.Perm (fs ++ others) ∧ t.frames.Perm (gs ++ others) ∧
      Heap.Moves .any s.machine.heap fs t.machine.heap gs := by
  have units : ∀ m : Machine H W, m.units.Codes fun _ => True := fun _ _ _ _ => trivial
  cases step with
  | spawn m jobs => exact ⟨[], [], _, .refl _, .refl _, .refl⟩
  | act m before after job act t result =>
    refine ⟨job.frames, t.job.frames, before.flatMap Job.frames ++ after.flatMap Job.frames,
      ?_, ?_, ?_⟩
    · simpa [frames] using List.perm_append_comm_assoc ..
    · simpa [frames] using List.perm_append_comm_assoc ..
    · have code : act.Codes fun _ => True := by cases act <;> trivial
      have moved := act.keeps (p := .any) trivial trivial plain code ⟨m, job⟩
        ⟨.refl, accounted.coded job.frames, units m⟩
      subst result
      unfold Effect.outcome
      cases ran : act.op host ⟨m, job⟩ with
      | ok a t => exact ((Effect.ensures_of_eq_ok ran).mp moved).moves
      | error e t => exact ((Effect.ensures_of_eq_error ran).mp moved).moves
  | drop m before after job empty =>
    refine ⟨[], [], before.flatMap Job.frames ++ after.flatMap Job.frames, ?_, ?_, .refl⟩
    · simp [frames, empty]
    · simp [frames]
  | nextValue m m' jobs fuel v r ran =>
    have moved : m.Moved .any m.heap [] [] := ⟨.refl, accounted.coded [], units m⟩
    exact ⟨[], [], _, .refl _, .refl _, (m.nextValue_moved plain trivial trivial moved ran).moves⟩
  | embed m m' jobs ops plain after =>
    have grows := Heap.Grows.after (accounted.coded []).here plain
    exact ⟨[], [], _, .refl _, .refl _, .tail .refl (.heap (after ▸ grows))⟩

theorem Step.sound (plain : host.Plain fun _ => True) (step : Step host s t) (sound : s.Sound) :
    t.Sound := by
  obtain ⟨fs, gs, others, before, after, moves⟩ := step.moves plain sound.accounted
  have coded := sound.accounted.coded fs
  refine ⟨(moves.coded coded).accounted, ?_⟩
  have protocol := sound.protocol.of_generators (before.map Frame.generator).symm
  exact (moves.protocol coded protocol).of_generators (after.map Frame.generator)

theorem Reachable.sound (plain : host.Plain fun _ => True) (reachable : Reachable host s) :
    s.Sound := by
  obtain ⟨m, empty, steps⟩ := reachable
  induction steps with
  | refl =>
    refine ⟨empty ▸ Heap.accounted_empty, fun x it found => ?_, fun f mem => ?_⟩
    · rw [empty] at found
      cases found
    · cases mem
  | tail _ step ih => exact step.sound plain ih

structure Over (s : System H W) (x : Handle) : Prop where
  ended : s.machine.heap.Ended x
  quiet : runners x s.frames = 0

theorem Step.over (plain : host.Plain fun _ => True) (step : Step host s t) (sound : s.Sound)
    (gone : s.Over x) : t.Over x := by
  obtain ⟨fs, gs, others, before, after, moves⟩ := step.moves plain sound.accounted
  have coded := sound.accounted.coded fs
  have protocol := sound.protocol.of_generators (before.map Frame.generator).symm
  have counted : runners x s.frames = runners x fs + runners x others :=
    (before.countP_eq _).trans (runners_append ..)
  have quiet := gone.quiet
  refine ⟨moves.ended coded protocol gone.ended, ?_⟩
  rw [show runners x t.frames = runners x gs + runners x others from
    (after.countP_eq _).trans (runners_append ..)]
  have none := moves.quiet coded protocol gone.ended (by omega)
  omega

theorem Steps.over (plain : host.Plain fun _ => True) (steps : Steps host s t) (sound : s.Sound)
    (gone : s.Over x) : t.Sound ∧ t.Over x := by
  induction steps with
  | refl => exact ⟨sound, gone⟩
  | tail _ step ih => exact ⟨step.sound plain ih.1, step.over plain ih.1 ih.2⟩

end System

end ScriptMachine
