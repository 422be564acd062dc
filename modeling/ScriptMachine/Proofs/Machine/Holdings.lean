import ScriptMachine.Proofs.Machine.Driving
import ScriptMachine.Proofs.Machine.Ownership
import ScriptMachine.Proofs.Machine.System

/-!
# One owner for every object

An estate is a system together with what the embedding program has in hand. Its steps are those of a
system, by an embedding program that treats values linearly: what it hands in comes out of its hand,
and what comes out of a job goes there, also the value that an error carries. To run a job, in
whatever mode, is to take such steps.

As long as no instruction finds too few operands, each live object has one owner, in one of the
places that are counted, and no owner names anything else.
-/

set_option autoImplicit false

namespace ScriptMachine

variable {H W : Type}

def Job.held (j : Job) : List Value := j.frames.flatMap Frame.held ++ j.channel

/-! ## Machines -/

namespace Machine

open Effect (Conserves)

variable {keeps : W → List Value} {m : Machine H W} {out : List Value}

/-- The owners on a machine and in hand account for all objects. -/
structure Owned (keeps : W → List Value) (out : List Value) (m : Machine H W) : Prop where
  heap : m.heap.Owned [] (m.globals.values ++ keeps m.world ++ out)
  globals : SortedMap.Ascending m.globals.entries.entries

def ledger (keeps : W → List Value) : Ledger (Machine H W) where
  Settled := Owned keeps
  recount same owned := ⟨owned.heap.recount ((SameOwners.refl _).append same), owned.globals⟩
  Excused _ := False

theorem Owned.recount {out' : List Value} (owned : m.Owned keeps out)
    (same : SameOwners out out') : m.Owned keeps out' :=
  (ledger keeps).recount same owned

theorem Owned.dispose {vs : List Value} (owned : m.Owned keeps (vs ++ out)) :
    (m.dispose vs).Owned keeps out := by
  refine ⟨Heap.Owned.disposeAll (owned.heap.recount fun x => ?_), owned.globals⟩
  simp only [Machine.dispose, tally_append]
  omega

theorem Owned.rebind {v : Value} {old : Option Value} {g : Globals}
    (owned : m.Owned keeps (v :: out)) (rebound : m.globals.Rebound v old g) :
    ({ m with globals := g }.dispose old.toList).Owned keeps out := by
  refine Owned.dispose ⟨owned.heap.recount fun x => ?_, rebound.1⟩
  have deals := rebound.2 x
  simp only [tally_append, tally_cons, tally_nil] at deals ⊢
  omega

theorem define_conserves (path : String) (v : Value) (overwritable : Bool) :
    Conserves (ledger keeps) [v] (define path v overwritable : MachineM H W Unit) fun _ => [] := by
  refine .get_bind fun m rest owned => ?_
  cases defined : m.globals.define path v overwritable with
  | error e =>
    refine .inr ?_
    rw [Globals.light_define _ _ _ _ e defined]
    exact Owned.dispose owned
  | ok result =>
    have rebound := Owned.rebind owned (Globals.rebound_define owned.globals defined)
    exact ⟨rebound.heap, rebound.globals⟩

theorem store_conserves (path : String) (v : Value) :
    Conserves (ledger keeps) [v] (store path v : MachineM H W Unit) fun _ => [] := by
  refine .get_bind fun m rest owned => ?_
  cases stored : m.globals.store path v with
  | error e =>
    refine .inr ?_
    rw [Globals.light_store _ _ _ e stored]
    exact Owned.dispose owned
  | ok result => exact Owned.rebind owned (Globals.rebound_store owned.globals stored)

theorem Owned.shutdown (owned : m.Owned keeps out) : m.shutdown.Owned keeps out := by
  have emptied : { m with globals := {} }.Owned keeps (m.globals.values ++ out) :=
    ⟨owned.heap.recount fun x => by
      simp only [Globals.values, SortedMap.values, List.map_nil, tally_append, tally_nil]
      omega, .nil⟩
  exact ⟨emptied.dispose.heap, emptied.dispose.globals⟩

def Disposes (m t : Machine H W) : Prop :=
  (∃ vs, t.heap = m.heap.disposeAll vs) ∧ t.units = m.units

theorem define_disposes (path : String) (v : Value) (overwritable : Bool) (m : Machine H W) :
    m.Disposes ((define path v overwritable).outcome m).2 := by
  have disposes : (define path v overwritable).Ensures m (fun _ t => m.Disposes t)
      (fun _ t => m.Disposes t) := by
    unfold define
    rw [Effect.ensures_bind, Effect.ensures_get]
    cases m.globals.define path v overwritable <;> exact ⟨⟨_, rfl⟩, rfl⟩
  exact disposes.outcome

theorem store_disposes (path : String) (v : Value) (m : Machine H W) :
    m.Disposes ((store path v).outcome m).2 := by
  have disposes : (store path v).Ensures m (fun _ t => m.Disposes t)
      (fun _ t => m.Disposes t) := by
    unfold store
    rw [Effect.ensures_bind, Effect.ensures_get]
    cases m.globals.store path v <;> exact ⟨⟨_, rfl⟩, rfl⟩
  exact disposes.outcome

end Machine

/-! ## Acts -/

namespace Act

open Effect (ConservesAt)

variable {host : Host H W} {keeps : W → List Value} {s : Session H W} {others : List Frame}

/-- Does something with a job; answers the values that come out of it. -/
def run (host : Host H W) : Act → SessionM H W (List Value)
  | tick mode budget => do return Session.tickValues (← Session.tick host mode budget)
  | conclude outcome => do return (← Session.conclude host outcome).values
  | act => do
    act.op host
    return []

def takes : Act → List Value
  | callPath _ args => args
  | callValue callee args => args ++ [callee]
  | callUnit _ args => args
  | conclude outcome => Effect.handed Outcome.values outcome
  | _ => []

def Underflows (s : Session H W) : Act → Prop
  | tick _ budget => s.job.pending = none ∧ budget ≠ some 0 ∧ s.Underflows
  | _ => False

theorem run_state (act : Act) (s : Session H W) :
    ((act.run host).outcome s).2 = ((act.op host).outcome s).2 := by
  cases act with
  | tick mode budget =>
    exact (Effect.outcome_bind_pure ..).trans (Effect.outcome_bind_pure _ (fun _ => ()) s).symm
  | conclude outcome =>
    exact (Effect.outcome_bind_pure ..).trans (Effect.outcome_bind_pure _ (fun _ => ()) s).symm
  | _ => exact Effect.outcome_bind_pure _ (fun _ => []) s

theorem outcome_run_tick (host : Host H W) (mode : Mode) (budget : Budget) (s : Session H W) :
    ((tick mode budget).run host).outcome s =
      match Session.tick host mode budget s with
      | .ok result t => (.ok (Session.tickValues result), t)
      | .error e t => (.error e, t) := by
  unfold run
  cases ticked : Session.tick host mode budget s <;>
    simp [Effect.outcome, bind, EStateM.bind, ticked, pure, EStateM.pure]

theorem outcome_run_conclude (host : Host H W) (outcome : Except Error Outcome)
    (s : Session H W) :
    ((conclude outcome).run host).outcome s =
      (((Session.conclude host outcome).outcome s).1.map Outcome.values,
        ((Session.conclude host outcome).outcome s).2) := by
  unfold run
  cases concluded : Session.conclude host outcome s <;>
    simp [Effect.outcome, bind, EStateM.bind, concluded, pure, EStateM.pure, Except.map]

/-- What is handed in goes into the job or onto the heap, or is let go of; what comes out of the job
is handed out. -/
theorem run_conserves {Q : CodeUnit → Prop} (linear : host.Linear Q keeps)
    (ready : s.Ready others) (act : Act) (enough : ¬ act.Underflows s) :
    ConservesAt (Session.ledger keeps) act.takes (act.run host) (fun values => values) s := by
  cases act with
  | callPath path args =>
    exact ((Session.startPath_conserves linear path args).bind fun _ => .pure (.refl _)) s
  | callValue callee args =>
    exact ((Session.startValue_conserves linear callee args).bind fun _ => .pure (.refl _)) s
  | callUnit unit args =>
    exact ((Session.startUnit_conserves unit args).bind fun _ => .pure (.refl _)) s
  | resume x => exact ((Session.advance_conserves x 0).bind fun _ => .pure (.refl _)) s
  | tick mode budget =>
    intro rest owned
    have ticks := Session.tick_conserves linear ready mode budget fun idle unspent underflows =>
      enough ⟨idle, unspent, underflows⟩
    exact (Effect.ensures_bind ..).mpr (ticks rest owned)
  | conclude outcome =>
    intro rest owned
    exact (Effect.ensures_bind ..).mpr (Session.conclude_conserves linear outcome s rest owned)
  | teardown => exact (Session.teardown_steady.bind fun _ => .pure (.refl _)) s

end Act

theorem Session.settled_iff {keeps : W → List Value} {s : Session H W} {out : List Value} :
    (Session.ledger keeps).Settled out s ↔
      s.machine.Owned keeps (s.job.held ++ out) ∧ ∀ t, s.job.pending = some t → t.Bare := by
  have same : SameOwners (s.held keeps ++ (s.job.frames.flatMap Frame.held ++ out))
      (s.machine.globals.values ++ keeps s.machine.world ++ (s.job.held ++ out)) := fun x => by
    simp only [Session.held, Job.held, tally_append]
    omega
  exact ⟨fun owned => ⟨⟨owned.heap.recount same, owned.globals⟩, owned.task⟩,
    fun owned => ⟨owned.1.heap.recount same.symm, owned.1.globals, owned.2⟩⟩

/-! ## Estates -/

structure Estate (H W : Type) where
  machine : Machine H W
  jobs : List Job := []
  hand : List Value := []

namespace Estate

variable {host : Host H W} {keeps : W → List Value} {s t : Estate H W}

def frames (s : Estate H W) : List Frame := s.jobs.flatMap Job.frames

/-- The values outside of the heap, by the places that they are in: globals, the outer world, jobs,
and the hand of the embedding program. -/
def outside (keeps : W → List Value) (s : Estate H W) : List Value :=
  s.machine.globals.values ++ keeps s.machine.world ++ (s.jobs.flatMap Job.held ++ s.hand)

/-- All values, those in objects on the heap first. -/
def inventory (keeps : W → List Value) (s : Estate H W) : List Value :=
  s.machine.heap.held ++ s.outside keeps

/-- What an embedding program can do that treats values linearly. It takes out of its hand what it
passes on, and takes in what it is answered. -/
inductive Step (host : Host H W) (keeps : W → List Value) : Estate H W → Estate H W → Prop
  | spawn (m : Machine H W) (jobs : List Job) (hand : List Value) :
      Step host keeps ⟨m, jobs, hand⟩ ⟨m, {} :: jobs, hand⟩
  /-- Something is done with a job, and no instruction finds too few operands. -/
  | act (m : Machine H W) (before after : List Job) (job : Job) (hand rest : List Value) (act : Act)
      (code : act.Codes CodeUnit.Compiled) (enough : ¬ act.Underflows ⟨m, job⟩)
      (passed : SameOwners hand (act.takes ++ rest)) (r : Except Error (List Value))
      (t : Session H W) (ran : (act.run host).outcome ⟨m, job⟩ = (r, t)) :
      Step host keeps ⟨m, before ++ job :: after, hand⟩
        ⟨t.machine, before ++ t.job :: after, Effect.handed (fun values => values) r ++ rest⟩
  | drop (m : Machine H W) (before after : List Job) (job : Job) (hand : List Value)
      (empty : job.frames = []) (read : job.channel = []) :
      Step host keeps ⟨m, before ++ job :: after, hand⟩ ⟨m, before ++ after, hand⟩
  | deal (m : Machine H W) (heap : Heap H) (jobs : List Job) (hand hand' : List Value)
      (deals : Heap.Deals CodeUnit.Compiled m.heap hand heap hand') :
      Step host keeps ⟨m, jobs, hand⟩ ⟨{ m with heap }, jobs, hand'⟩
  | define (m : Machine H W) (jobs : List Job) (hand rest : List Value) (path : String) (v : Value)
      (overwritable : Bool) (passed : SameOwners hand (v :: rest)) (r : Except Error Unit)
      (t : Machine H W) (ran : (Machine.define path v overwritable).outcome m = (r, t)) :
      Step host keeps ⟨m, jobs, hand⟩ ⟨t, jobs, Effect.handed (fun _ => []) r ++ rest⟩
  | store (m : Machine H W) (jobs : List Job) (hand rest : List Value) (path : String) (v : Value)
      (passed : SameOwners hand (v :: rest)) (r : Except Error Unit) (t : Machine H W)
      (ran : (Machine.store path v).outcome m = (r, t)) :
      Step host keeps ⟨m, jobs, hand⟩ ⟨t, jobs, Effect.handed (fun _ => []) r ++ rest⟩
  | shutdown (m : Machine H W) (jobs : List Job) (hand : List Value) :
      Step host keeps ⟨m, jobs, hand⟩ ⟨m.shutdown, jobs, hand⟩
  /-- Units, settings and the world change; values may move between the world and the hand. -/
  | manage (m m' : Machine H W) (jobs : List Job) (hand hand' : List Value)
      (heap : m'.heap = m.heap) (globals : m'.globals = m.globals)
      (units : m'.units.Codes CodeUnit.Compiled)
      (moved : SameOwners (keeps m.world ++ hand) (keeps m'.world ++ hand')) :
      Step host keeps ⟨m, jobs, hand⟩ ⟨m', jobs, hand'⟩

def Steps (host : Host H W) (keeps : W → List Value) : Estate H W → Estate H W → Prop :=
  Relation.ReflTransGen (Step host keeps)

def Ample (host : Host H W) (mode : Mode) : (fuel : Nat) → Budget → Session H W → Prop
  | 0, _, _ => True
  | fuel + 1, budget, s =>
    ¬ (Act.tick mode budget).Underflows s ∧
      match Session.tick host mode budget s with
      | .ok (.running budget) t => Ample host mode fuel budget t
      | _ => True

theorem steps_of_drive {mode : Mode} (before after : List Job) (hand : List Value) {fuel : Nat} :
    ∀ {budget : Budget} {s t : Session H W} {r : Except Error Outcome},
      Session.drive host mode fuel budget s = some (r, t) → Ample host mode fuel budget s →
      Steps host keeps ⟨s.machine, before ++ s.job :: after, hand⟩
        ⟨t.machine, before ++ t.job :: after, Effect.handed Outcome.values r ++ hand⟩ := by
  induction fuel with
  | zero =>
    intro budget s t r driven
    cases driven
  | succ fuel ih =>
    intro budget s t r driven ample
    rw [Session.drive_succ] at driven
    obtain ⟨enough, ample⟩ := ample
    have ran := Act.outcome_run_tick host mode budget s
    cases ticked : Session.tick host mode budget s with
    | error e u =>
      rw [ticked] at driven ran
      cases driven
      exact .single (.act _ _ _ _ hand hand (.tick mode budget) trivial enough (.refl _) _ _ ran)
    | ok result u =>
      rw [ticked] at driven ran ample
      have ticks : Step host keeps _ _ :=
        .act _ before after _ hand hand (.tick mode budget) trivial enough (.refl _) _ _ ran
      cases result with
      | ended outcome =>
        cases driven
        exact .single ticks
      | running budget => exact .head ticks (ih driven ample)

/-- Runs of a job are made of such steps, as long as no stack is too short on the way. -/
theorem steps_of_runIn {mode : Mode} {fuel : Nat} {budget : Budget} {m : Machine H W} {job : Job}
    {t : Session H W} {r : Except Error Outcome} (before after : List Job) (hand : List Value)
    (ran : Session.runIn host mode fuel budget ⟨m, job⟩ = some (r, t))
    (ample : Ample host mode fuel budget ⟨m, job⟩) :
    Steps host keeps ⟨m, before ++ job :: after, hand⟩
      ⟨t.machine, before ++ t.job :: after, Effect.handed Outcome.values r ++ hand⟩ := by
  obtain ⟨⟨outcome, u⟩, driven, concluded⟩ := Option.map_eq_some_iff.mp ran
  have concludes : Step host keeps _ _ := .act u.machine before after u.job
    (Effect.handed Outcome.values outcome ++ hand) hand (.conclude outcome) trivial id (.refl _)
    _ _ (Act.outcome_run_conclude host outcome u)
  simp only [concluded] at concludes
  refine (steps_of_drive before after hand driven ample).tail ?_
  cases r <;> exact concludes

/-- What becomes of a machine on which nothing was done yet. -/
def Reachable (host : Host H W) (keeps : W → List Value) (s : Estate H W) : Prop :=
  ∃ m : Machine H W, m.heap = {} ∧ m.globals = {} ∧ m.units.Codes CodeUnit.Compiled ∧
    Bare (keeps m.world) ∧ Steps host keeps ⟨m, [], []⟩ s

/-- The owners in all places account for all objects; code and generators are in order. -/
structure Sound (keeps : W → List Value) (s : Estate H W) : Prop where
  owned : s.machine.Owned keeps (s.jobs.flatMap Job.held ++ s.hand)
  tasks : ∀ job ∈ s.jobs, ∀ t, job.pending = some t → t.Bare
  coded : s.machine.heap.Coded CodeUnit.Compiled s.frames
  protocol : s.machine.heap.Protocol s.frames
  units : s.machine.units.Codes CodeUnit.Compiled

/-- A change of the machine that leaves the jobs alone. -/
theorem Sound.machine {m : Machine H W} {hand : List Value} (sound : s.Sound keeps)
    (owned : m.Owned keeps (s.jobs.flatMap Job.held ++ hand))
    (grows : s.machine.heap.Grows CodeUnit.Compiled m.heap)
    (units : m.units.Codes CodeUnit.Compiled) : Sound keeps ⟨m, s.jobs, hand⟩ :=
  ⟨owned, sound.tasks, sound.coded.grows grows, sound.protocol.grows grows, units⟩

theorem Sound.disposed {m : Machine H W} {hand : List Value} (sound : s.Sound keeps)
    (owned : m.Owned keeps (s.jobs.flatMap Job.held ++ hand))
    (disposes : s.machine.Disposes m) : Sound keeps ⟨m, s.jobs, hand⟩ := by
  obtain ⟨⟨vs, heap⟩, units⟩ := disposes
  exact sound.machine owned (heap ▸ sound.coded.here.disposeAll vs) (units ▸ sound.units)

theorem Sound.passed {vs rest : List Value} (sound : s.Sound keeps)
    (passed : SameOwners s.hand (vs ++ rest)) :
    s.machine.Owned keeps (vs ++ (s.jobs.flatMap Job.held ++ rest)) :=
  sound.owned.recount fun x => by
    have same := passed x
    simp only [tally_append] at same ⊢
    omega

theorem Sound.handedBack {m : Machine H W} {vs rest : List Value} (sound : s.Sound keeps)
    (owned : m.Owned keeps (vs ++ (s.jobs.flatMap Job.held ++ rest)))
    (disposes : s.machine.Disposes m) : Sound keeps ⟨m, s.jobs, vs ++ rest⟩ :=
  sound.disposed (owned.recount fun x => by simp only [tally_append]; omega) disposes

theorem held_focus (before after : List Job) (job : Job) :
    SameOwners ((before ++ job :: after).flatMap Job.held)
      (job.held ++ (before ++ after).flatMap Job.held) := fun x => by
  simp only [List.flatMap_append, List.flatMap_cons, tally_append]
  omega

theorem frames_focus (m : Machine H W) (before after : List Job) (job : Job) (hand : List Value) :
    (frames ⟨m, before ++ job :: after, hand⟩).Perm
      (job.frames ++ (before ++ after).flatMap Job.frames) := by
  simpa [frames] using List.perm_append_comm_assoc ..

/-- Something done with one job leaves the others alone. -/
theorem Sound.act (linear : host.Linear CodeUnit.Compiled keeps) {m : Machine H W}
    {before after : List Job} {job : Job} {hand rest : List Value} {act : Act}
    (sound : Sound keeps ⟨m, before ++ job :: after, hand⟩) (code : act.Codes CodeUnit.Compiled)
    (enough : ¬ act.Underflows ⟨m, job⟩) (passed : SameOwners hand (act.takes ++ rest))
    {r : Except Error (List Value)} {t : Session H W}
    (ran : (act.run host).outcome ⟨m, job⟩ = (r, t)) :
    Sound keeps ⟨t.machine, before ++ t.job :: after,
      Effect.handed (fun values => values) r ++ rest⟩ := by
  have focus := frames_focus m before after job hand
  have coded : m.heap.Coded CodeUnit.Compiled job.frames :=
    ⟨sound.coded.accounted, sound.coded.code, fun f mem =>
      sound.coded.frames f (focus.mem_iff.mpr (List.mem_append_left _ mem))⟩
  have protocol : m.heap.Protocol (job.frames ++ (before ++ after).flatMap Job.frames) :=
    sound.protocol.of_generators (focus.map Frame.generator).symm
  have here : job ∈ before ++ job :: after := List.mem_append_right _ (List.mem_cons_self ..)
  have settled : (Session.ledger keeps).Settled
      (act.takes ++ ((before ++ after).flatMap Job.held ++ rest)) ⟨m, job⟩ := by
    refine Session.settled_iff.mpr ⟨(sound.passed passed).recount fun x => ?_, sound.tasks job here⟩
    have focused := held_focus before after job x
    simp only [tally_append] at focused ⊢
    omega
  have conserved := (Act.run_conserves linear ⟨coded, protocol, sound.units⟩ act enough).outcome
    (fun _ never => never) settled
  have moved := (act.keeps (p := ⟨CodeUnit.Compiled, True, True⟩) trivial trivial linear.plain code
    ⟨m, job⟩ ⟨.refl, coded, sound.units⟩).outcome
  rw [← Act.run_state act ⟨m, job⟩] at moved
  rw [ran] at conserved moved
  obtain ⟨owned, task⟩ := Session.settled_iff.mp conserved
  have focus' := frames_focus t.machine before after t.job (Effect.handed id r ++ rest)
  refine ⟨owned.recount fun x => ?_, ?_, ⟨moved.coded.accounted, moved.coded.code, ?_⟩, ?_,
    moved.units⟩
  · have focused := held_focus before after t.job x
    simp only [tally_append] at focused ⊢
    omega
  · intro other mem
    rcases List.mem_append.mp mem with mem | mem
    · exact sound.tasks other (List.mem_append_left _ mem)
    rcases List.mem_cons.mp mem with rfl | mem
    · exact task
    · exact sound.tasks other (List.mem_append_right _ (List.mem_cons_of_mem _ mem))
  · intro f mem
    rcases List.mem_append.mp (focus'.mem_iff.mp mem) with mem | mem
    · exact moved.coded.frames f mem
    · exact sound.coded.frames f (focus.mem_iff.mpr (List.mem_append_right _ mem))
  · exact (moved.moves.protocol coded protocol).of_generators (focus'.map Frame.generator)

theorem Step.sound (linear : host.Linear CodeUnit.Compiled keeps) (step : Step host keeps s t)
    (sound : s.Sound keeps) : t.Sound keeps := by
  cases step with
  | spawn m jobs hand =>
    refine ⟨sound.owned, fun job mem => ?_, sound.coded, sound.protocol, sound.units⟩
    rcases List.mem_cons.mp mem with rfl | mem
    · exact fun _ waits => by cases waits
    · exact sound.tasks job mem
  | act m before after job hand rest act code enough passed r t ran =>
    exact sound.act linear code enough passed ran
  | drop m before after job hand empty read =>
    have held : job.held = [] := by simp [Job.held, empty, read]
    have fewer : frames ⟨m, before ++ after, hand⟩ = frames ⟨m, before ++ job :: after, hand⟩ := by
      simp [frames, empty]
    refine ⟨sound.owned.recount fun x => ?_, fun other mem => sound.tasks other ?_,
      fewer ▸ sound.coded, fewer ▸ sound.protocol, sound.units⟩
    · simp only [List.flatMap_append, List.flatMap_cons, held, List.nil_append]
    · exact (List.mem_append.mp mem).elim (List.mem_append_left _) fun mem =>
        List.mem_append_right _ (List.mem_cons_of_mem _ mem)
  | deal m heap jobs hand hand' deals =>
    obtain ⟨ops, plain, after⟩ := deals.after
    have counted : m.heap.Owned [] (hand ++ (m.globals.values ++ keeps m.world ++
        jobs.flatMap Job.held)) := sound.owned.heap.recount fun x => by
      simp only [tally_append]
      omega
    refine sound.machine ⟨(deals.owned counted).recount fun x => ?_, sound.owned.globals⟩
      (after ▸ Heap.Grows.after sound.coded.here plain) sound.units
    simp only [tally_append]
    omega
  | define m jobs hand rest path v overwritable passed r t ran =>
    have defined := (Machine.define_conserves path v overwritable m).outcome (fun _ never => never)
      (sound.passed passed)
    have disposes := Machine.define_disposes path v overwritable m
    rw [ran] at defined disposes
    exact sound.handedBack defined disposes
  | store m jobs hand rest path v passed r t ran =>
    have stored := (Machine.store_conserves path v m).outcome (fun _ never => never)
      (sound.passed passed)
    have disposes := Machine.store_disposes path v m
    rw [ran] at stored disposes
    exact sound.handedBack stored disposes
  | shutdown m jobs hand =>
    exact sound.disposed sound.owned.shutdown ⟨⟨_, rfl⟩, rfl⟩
  | manage m m' jobs hand hand' heap globals units moved =>
    refine sound.machine ⟨heap ▸ globals ▸ sound.owned.heap.recount fun x => ?_,
      globals ▸ sound.owned.globals⟩ (heap ▸ sound.coded.here) units
    have same := moved x
    simp only [tally_append] at same ⊢
    omega

theorem Reachable.sound (linear : host.Linear CodeUnit.Compiled keeps)
    (reachable : Reachable host keeps s) : s.Sound keeps := by
  obtain ⟨m, heap, globals, units, bare, steps⟩ := reachable
  induction steps with
  | refl =>
    refine ⟨⟨heap ▸ Heap.owned_empty.recount fun x => ?_, globals ▸ .nil⟩,
      fun _ mem => (List.not_mem_nil mem).elim,
      ⟨heap ▸ Heap.accounted_empty, heap ▸ Heap.later_empty.all,
        fun _ mem => (List.not_mem_nil mem).elim⟩,
      ⟨fun x it found => ?_, fun f mem => (List.not_mem_nil mem).elim⟩, units⟩
    · have none := bare x
      have unbound : tally x m.globals.values = 0 := globals ▸ rfl
      simp only [tally_append, List.flatMap_nil, tally_nil]
      omega
    · rw [show (⟨m, [], []⟩ : Estate H W).machine.heap = {} from heap] at found
      cases found
  | tail _ step ih => exact step.sound linear ih

/-- In every estate that is reached, each live object has exactly one owner among all values, and
what a value owns is live. -/
theorem single_ownership (linear : host.Linear CodeUnit.Compiled keeps)
    (reachable : Reachable host keeps s) :
    (∀ x, (s.machine.heap.object? x).isSome → tally x (s.inventory keeps) = 1) ∧
      ∀ v ∈ s.inventory keeps, ∀ ref, v.owned? = some ref →
        (s.machine.heap.object? ref.handle).isSome := by
  have balance : ∀ x, tally x (s.inventory keeps) = s.machine.heap.due [] x := fun x =>
    (tally_append ..).trans ((reachable.sound linear).owned.heap.balance x)
  refine ⟨fun x live => ?_, fun v mem ref owner => ?_⟩
  · rw [balance x, Heap.due, if_pos (.inl live)]
  · have counted := owners_le_tally (x := ref.handle) mem
    rw [Value.owners_eq_one owner, balance, Heap.due] at counted
    split at counted
    · rename_i live
      exact live.resolve_right (List.not_mem_nil)
    · omega

/-! A job that has made a structure and put another one into it. -/

def nest : Function :=
  { name := "nest", locals := 1
    code :=
      [{ op := .newStruct }, { op := .storeLocal }, { op := .loadLocal }, { op := .newStruct },
       { op := .setField, str := "inner" }] }

def nestUnit : CodeUnit := nest.assemble (List.replicate 5 none) false

theorem compiled_nestUnit : nestUnit.Compiled :=
  ⟨false, Function.compile_eq_ok_iff.mpr ⟨rfl, List.replicate 5 none, rfl, rfl⟩⟩

def nestTicked : Nat → Session Unit Unit
  | 0 => (((Act.callUnit nestUnit []).run Session.idle).outcome ⟨{ world := () }, {}⟩).2
  | n + 1 => (((Act.tick .blocking none).run Session.idle).outcome (nestTicked n)).2

def nested (n : Nat) : Estate Unit Unit := ⟨(nestTicked n).machine, [(nestTicked n).job], []⟩

theorem linear_idle : Session.idle.Linear CodeUnit.Compiled fun _ => [] where
  call _ _ _ := .done fun x => by simp [Session.idle, HostReply.carried]
  task _ _ _ _ leaves := by cases leaves
  report _ _ := .refl _

theorem reachable_nested : ∀ n, n ≤ 5 → Reachable Session.idle (fun _ => []) (nested n)
  | 0, _ => by
    refine ⟨{ world := () }, rfl, rfl, fun _ _ found => (by cases found), fun _ => rfl,
      .tail (.single (.spawn _ _ _)) ?_⟩
    exact .act _ [] [] {} [] [] (.callUnit nestUnit []) compiled_nestUnit id (.refl _) (.ok [])
      (nestTicked 0) rfl
  | n + 1, more => by
    obtain ⟨m, heap, globals, units, bare, steps⟩ := reachable_nested n (by omega)
    have ran : ((Act.tick .blocking none).run Session.idle).outcome (nestTicked n) =
        (.ok [], nestTicked (n + 1)) := by
      match n, more with
      | 0, _ | 1, _ | 2, _ | 3, _ | 4, _ => rfl
    have enough : ¬ (Act.tick .blocking none).Underflows (nestTicked n) := by
      rintro ⟨-, -, underflows⟩
      revert underflows
      match n, more with
      | 0, _ | 1, _ | 2, _ | 3, _ | 4, _ => exact Session.not_underflows rfl rfl rfl rfl
    exact ⟨m, heap, globals, units, bare, steps.tail (.act _ [] [] _ [] [] (.tick .blocking none)
      trivial enough (.refl _) (.ok []) (nestTicked (n + 1)) ran)⟩

theorem single_ownership_nested :
    (tally ⟨0, 0⟩ ((nested 5).inventory fun _ => []) = 1 ∧
      tally ⟨1, 0⟩ ((nested 5).inventory fun _ => []) = 1) ∧
    ∀ v ∈ (nested 5).inventory fun _ => [], ∀ ref, v.owned? = some ref →
      ((nested 5).machine.heap.object? ref.handle).isSome := by
  obtain ⟨one, live⟩ := single_ownership linear_idle (reachable_nested 5 (Nat.le_refl 5))
  exact ⟨⟨one _ rfl, one _ rfl⟩, live⟩

end Estate

end ScriptMachine
