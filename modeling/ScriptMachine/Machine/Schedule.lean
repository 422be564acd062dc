import ScriptMachine.Machine.Run

/-!
# Running several jobs

A scheduler gives one slice after the other to the jobs in its queue, in turns, until all of them
are over. The jobs share the machine. An error ends only the job that raised it.
-/

set_option autoImplicit false

namespace ScriptMachine

structure Queued where
  id : Nat
  job : Job
  slices : Nat := 0
deriving Repr, Inhabited

structure JobReport where
  id : Nat
  outcome : Except Error Outcome
  slices : Nat
deriving Repr

structure Scheduler where
  queue : List Queued := []
  /-- Instructions of one slice. -/
  slice : Nat
  nextId : Nat := 0
deriving Repr, Inhabited

namespace Scheduler

def new (slice : Nat) : Scheduler := { slice := max slice 1 }

/-- Puts a job that has been given its call into the queue; answers the number it goes by. -/
def spawn (s : Scheduler) (job : Job) : Nat × Scheduler :=
  (s.nextId, { s with queue := s.queue ++ [{ id := s.nextId, job }], nextId := s.nextId + 1 })

def pending (s : Scheduler) : Nat := s.queue.length

variable {H W : Type}

/-- Gives slices in turns until the queue is empty. Reports are collected latest first. -/
def turns (host : Host H W) (slice stepFuel : Nat) :
    (fuel : Nat) → List Queued → List JobReport → Machine H W →
      Option (List JobReport × Machine H W)
  | _, [], reports, m => some (reports.reverse, m)
  | 0, _ :: _, _, _ => none
  | fuel + 1, q :: rest, reports, m => do
    let (outcome, s) ← Session.runBounded host stepFuel slice ⟨m, q.job⟩
    let slices := q.slices + 1
    match outcome with
    | .ok .halted =>
      turns host slice stepFuel fuel (rest ++ [{ q with job := s.job, slices }]) reports s.machine
    | outcome =>
      turns host slice stepFuel fuel rest (⟨q.id, outcome, slices⟩ :: reports)
        (s.machine.note .engine .debug)

def run (s : Scheduler) (host : Host H W) (fuel : Nat) (m : Machine H W) :
    Option (List JobReport × Machine H W) :=
  turns host s.slice fuel fuel s.queue [] m

end Scheduler

end ScriptMachine
