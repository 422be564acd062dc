import ScriptMachine.Exec.Action
import ScriptMachine.Machine.Transfer

/-!
# Running jobs

A job moves in ticks: it takes the result of a task it waits for, or ends because no frame is left,
or stops because its budget is spent, or executes a step. The three ways to run a job differ in what
they do when a task is not ready and when the budget is spent.
-/

set_option autoImplicit false

namespace ScriptMachine

inductive Outcome where
  | completed (values : List Value)
  /-- The budget is spent, or a task is not ready; the job can go on. -/
  | halted
  | aborted
deriving DecidableEq, Repr, Inhabited

namespace Outcome

def isCompleted : Outcome → Bool
  | completed _ => true
  | _ => false

def values : Outcome → List Value
  | completed values => values
  | _ => []

end Outcome

inductive Mode where
  | blocking
  /-- One slice; a task is polled once. -/
  | bounded
  /-- To the end, with an occasion for others after every interval. -/
  | cooperative (interval : Nat)
deriving DecidableEq, Repr, Inhabited

abbrev Budget := Option Nat

namespace Mode

def stretch : Mode → Budget
  | cooperative interval => some (max interval 1)
  | _ => none

end Mode

inductive Tick where
  | ended (outcome : Outcome)
  | running (budget : Budget)
deriving Repr, Inhabited

/-- Instructions that the next step of a frame counts for. Running off the end of the code counts
for none. -/
def Frame.cost (f : Frame) : Nat :=
  match f.unit.bind (·.stepAt? f.cursor) with
  | some step => step.length
  | none => 0

namespace Session

variable {H W : Type}

def context (frame : Frame) (s : Session H W) : Context H :=
  ⟨s.machine.heap, s.machine.globals, frame, s.job.channel⟩

def withContext (c : Context H) (s : Session H W) : Session H W :=
  { machine := { s.machine with heap := c.heap, globals := c.globals }
    job := { s.job.changeTop fun _ => c.frame with channel := c.channel } }

/-- Executes the step at the cursor of the running frame. Running off the end is a return. -/
def executeStep (host : Host H W) (frame : Frame) : SessionM H W Unit := do
  match frame.unit with
  | none => throw (frame.malformed "frame has no code unit")
  | some unit =>
    match unit.stepAt? frame.cursor with
    | some step =>
      let units := (← get).machine.units
      let flow ← (Exec.action units step.action).onPart (context frame) withContext
      apply host flow (step.start + step.length)
    | none =>
      if unit.code.length ≤ frame.cursor then apply host .ret frame.cursor
      else throw (.malformed unit.name s!"cursor {frame.cursor} is inside a fused step")

def routing (op : SessionM H W Unit) : SessionM H W Unit := fun s =>
  match op s with
  | .ok _ s => .ok () s
  | .error e s => raise e s

/-- Gives the result of a host task to the frame that waits for it, after the values that the host
function returned itself. -/
def settle (task : HostTask) : SessionM H W Unit := do
  changeJob fun j => { j with pending := none }
  match task.result with
  | .ok values => deliver ((← drainChannel) ++ values)
  | .error e => raise e

def await (mode : Mode) (task : HostTask) (budget : Budget) : SessionM H W Tick := do
  match mode, task.polls with
  | .bounded, polls + 1 =>
    changeJob fun j => { j with pending := some { task with polls } }
    return .ended .halted
  | .bounded, 0 =>
    settle task
    return .running budget
  | mode, _ =>
    settle task
    return .running mode.stretch

def tick (host : Host H W) (mode : Mode) (budget : Budget) : SessionM H W Tick := do
  let job := (← get).job
  match job.pending, job.frames, budget with
  | some task, _, budget => await mode task budget
  | none, [], _ => return .ended (.completed (← drainChannel))
  | none, _ :: _, some 0 =>
    match mode with
    | .cooperative _ => return .running mode.stretch
    | _ => return .ended .halted
  | none, frame :: _, budget =>
    routing (executeStep host frame)
    return .running (budget.map (· - frame.cost))

def drive (host : Host H W) (mode : Mode) : (fuel : Nat) → Budget → Fueled (Session H W) Outcome
  | 0, _, _ => none
  | fuel + 1, budget, s =>
    match tick host mode budget s with
    | .ok (.ended outcome) s => some (.ok outcome, s)
    | .ok (.running budget) s => drive host mode fuel budget s
    | .error e s => some (.error e, s)

/-- Ends a run. An error that no frame took ends the job; it is reported if the machine is told to,
and answered otherwise. A panic is never reported. -/
def conclude (host : Host H W) (outcome : Except Error Outcome) : SessionM H W Outcome := do
  match outcome with
  | .ok (.completed values) =>
    note .engine .debug
    return .completed values
  | .ok other => return other
  | .error e =>
    teardown
    let (e, heap) := (← get).machine.heap.uncaught e
    changeHeap fun _ => heap
    note .engine .warn
    let m := (← get).machine
    if m.hooked && e.panic?.isNone then
      modify fun s => { s with machine := { m with world := host.report e m.world } }
      return .aborted
    else throw e

def runIn (host : Host H W) (mode : Mode) (fuel : Nat) (budget : Budget) :
    Fueled (Session H W) Outcome := fun s =>
  (drive host mode fuel budget s).map fun (outcome, s) => (conclude host outcome).outcome s

def run (host : Host H W) (fuel : Nat) : Fueled (Session H W) Outcome :=
  runIn host .blocking fuel none

/-- Runs at most `budget` instructions; the last step may go past it. -/
def runBounded (host : Host H W) (fuel budget : Nat) : Fueled (Session H W) Outcome :=
  runIn host .bounded fuel (some budget)

def runCooperative (host : Host H W) (fuel : Nat) : Fueled (Session H W) Outcome := do
  let mode := Mode.cooperative (← get).machine.config.yieldInterval
  runIn host mode fuel mode.stretch

/-! ## Starting a job -/

/-- Puts arguments into the channel and carries out a call; a call that fails leaves none there. -/
def start (args : List Value) (call : SessionM H W Unit) : SessionM H W Unit := do
  changeJob fun j => { j with channel := j.channel ++ args }
  call.onFailure fun s => (clearChannel.outcome s).2

def startPath (host : Host H W) (path : String) (args : List Value) : SessionM H W Unit := do
  let m := (← get).machine
  if m.globals.contains path then start args (invoke host (.path path) .null)
  else if m.units.contains path then start args (invoke host (.unit path) .null)
  else
    dispose args
    throw (notCallable path)

def startValue (host : Host H W) (callee : Value) (args : List Value) : SessionM H W Unit :=
  start args (invoke host (.value callee) .null)

def startUnit (unit : CodeUnit) (args : List Value) : SessionM H W Unit :=
  start args (enter unit .null .null)

end Session

namespace Machine

variable {H W : Type}

def inNewJob {α : Type} (op : Fueled (Session H W) α) : Fueled (Machine H W) α :=
  op.onLarger (⟨·, {}⟩) Session.machine

def call (host : Host H W) (fuel : Nat) (path : String) (args : List Value) :
    Fueled (Machine H W) Outcome :=
  inNewJob do
    Session.startPath host path args
    Session.run host fuel

/-- Moves any iterator on; answers a share of the first value of its new entry. The frame of a
generator runs in a job of its own. -/
def nextValue (host : Host H W) (fuel : Nat) (iterator : Value) :
    Fueled (Machine H W) (Option Value) := do
  let handle ← Heap.iteratorHandle iterator
  let it ← (← get).heap.iteratorAt handle
  if it.state = .exhausted then return none
  let advanced ← if it.isGenerator then generator handle else walk handle
  if advanced then
    let it ← (← get).heap.iteratorAt handle
    return if it.state = .active then some ((it.current.head?.map Value.share).getD .null) else none
  else return none
where
  generator (handle : Handle) : Fueled (Machine H W) Bool := do
    let resume : Fueled (Session H W) Outcome := do
      (Session.advance handle 0 : SessionM H W Unit)
      Session.run host fuel
    match ← inNewJob resume with
    | .completed values =>
      modify (dispose values)
      return true
    | _ => return false
  walk (handle : Handle) : Fueled (Machine H W) Bool := do
    (Heap.advanceWalk handle : HeapM H Bool)

end Machine

end ScriptMachine
