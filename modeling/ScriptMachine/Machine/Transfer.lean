import ScriptMachine.Machine.Routing

/-!
# Passing control between frames

Calls, returns, yields and the resumption of generators. Arguments and results pass through the
channel of the job, which is empty again once they have arrived. An exit from a frame with armed
deferred blocks is held back until they have run.
-/

set_option autoImplicit false

namespace ScriptMachine

inductive Exit where
  /-- With the values in the channel. -/
  | values
  | locals (mask : UInt64)
deriving DecidableEq, Repr, Inhabited

def CodeUnit.fixedParams (u : CodeUnit) : Nat := if u.variadic then u.params - 1 else u.params

def CodeUnit.accepts (u : CodeUnit) (args : Nat) : Bool :=
  decide (u.fixedParams ≤ args) && (u.variadic || decide (args ≤ u.fixedParams))

/-- Puts arguments into the first local slots; those that find no slot are answered. -/
def Frame.bindArgs (f : Frame) (args : List Value) : List Value × Frame :=
  let n := f.locals.length
  (args.drop n, { f with locals := args.take n ++ f.locals.drop args.length })

namespace Heap

variable {H : Type}

def setItems (target : Value) : (i : Nat) → List Value → HeapM H Unit
  | _, [] => return ()
  | i, v :: rest => do
    setChildKey target (.int (Int64.ofNat i)) v
    setItems target (i + 1) rest

def pack (values : List Value) : HeapM H Value := do
  let (target, h) := (← get).allocStructure values.length
  set h
  (setItems target 0 values).onFailure (·.dispose target)
  return target

end Heap

namespace Session

variable {H W : Type}

def depthExceeded (limit : Nat) : Error :=
  .fatal s!"call depth limit of {limit} frames exceeded"

def atDepthLimit (s : Session H W) : Bool := decide (s.machine.config.maxFrames ≤ s.job.depth)

/-- The arguments of a call as they go into slots: surplus ones of a variadic unit are collected
in a structure. -/
def gatherArgs (unit : CodeUnit) (args : List Value) : SessionM H W (List Value) := do
  if unit.variadic && decide (0 < unit.params) then
    let rest ← (Heap.pack (args.drop unit.fixedParams) : HeapM H Value)
    return args.take unit.fixedParams ++ [rest]
  else return args

def newFrame (unit : CodeUnit) (args : List Value) (closure this : Value) : SessionM H W Frame := do
  match unit.misfit? with
  | some panic =>
    dispose (args ++ [closure, this])
    throw (.ofPanic panic)
  | none =>
    let h := (← get).machine.heap
    let (frame, frames) := h.pools.frames.checkout unit.frameCapacity
    changeHeap fun h => { h with pools := { h.pools with frames } }
    let (surplus, frame) := (frame.reset unit).bindArgs args
    dispose surplus
    return { frame with closure, this }

def activate (unit : CodeUnit) (frame : Frame) : SessionM H W Unit := do
  note .engine .trace
  if unit.generator then
    let (it, heap) := (← get).machine.heap.alloc (.iterator (.ofFrame frame))
    changeHeap fun _ => heap
    match it.ref? with
    | some ⟨_, handle⟩ =>
      changeHeap fun h => h.setObject handle (.iterator ((Iterator.ofFrame frame).bind handle))
    | none => return ()
    deliver [it]
  else changeJob fun j => { j with frames := frame :: j.frames }

def enter (unit : CodeUnit) (closure this : Value) : SessionM H W Unit := do
  let s ← get
  if s.atDepthLimit then
    dispose [closure, this]
    throw (depthExceeded s.machine.config.maxFrames)
  let args ← drainChannel
  if !unit.accepts args.length then
    dispose (args ++ [closure, this])
    throw (.ofFault (.parameterCount unit.name unit.fixedParams args.length))
  let args ← (gatherArgs unit args).onFailure fun s =>
    { s with machine := s.machine.dispose (args.take unit.fixedParams ++ [closure, this]) }
  let frame ← newFrame unit args closure this
  activate unit frame

def takeReply : HostReply × HostCall H × W → SessionM H W Unit
  | (reply, call, world) => do
    modify fun s =>
      { machine := { s.machine with heap := call.finish, world }
        job := { s.job with channel := call.returned } }
    match reply with
    | .finished => deliver (← drainChannel)
    | .failed e => throw e
    | .task t =>
      changeJob fun j => { j with pending := some t }
      note .engine .trace

def callHost (host : Host H W) (path : String) (function : H) (this : Value) :
    SessionM H W Unit := do
  let args ← drainChannel
  let s ← get
  let call : HostCall H :=
    { path, cursor := (s.job.frames.head?.map Frame.cursor).getD 0, this, args
      heap := s.machine.heap }
  takeReply (host.call function call s.machine.world)

def notCallable (path : String) : Error :=
  .typeMismatch ("'" ++ path ++ "' is not bound to a callable")

def invokeValue (host : Host H W) (callee this : Value) : SessionM H W Unit := do
  match (← get).machine.heap.callableOf callee with
  | .ok (.script unit _) => enter unit callee this
  | .ok (.host path function) =>
    dispose [callee]
    callHost host path function this
  | .error e =>
    dispose [callee, this]
    throw e

def invoke (host : Host H W) (target : CallTarget) (this : Value) : SessionM H W Unit := do
  match target with
  | .unit name =>
    match (← get).machine.units.get? name with
    | some unit => enter unit .null this
    | none =>
      dispose [this]
      throw (.malformed name "call to unknown unit")
  | .path path =>
    let callee := (← get).machine.globals.load path
    if callee.isNull then
      dispose [this]
      throw (notCallable path)
    else invokeValue host callee this
  | .value callee => invokeValue host callee this

def noFrame : Error := .malformed "<job>" "no frame to continue"

/-- Holds an exit back and sends the frame to its deferred blocks. An exit that was held back before
is given up. -/
def holdExit (frame : Frame) (rest : List Frame) (entry : Nat) (exit : Exit) :
    SessionM H W Unit := do
  let pending ← match exit with
    | .values => do pure (PendingReturn.values (← drainChannel))
    | .locals mask => pure (.locals mask)
  changeJob fun j =>
    { j with frames := { frame with pendingReturn := some pending, cursor := entry } :: rest }
  dispose frame.returnedValues

def endGenerator (handle : Handle) (returned : List Value) : SessionM H W Unit := do
  dispose returned
  changeHeap (·.exhaust handle)
  changeJob fun j => j.changeTop fun caller =>
    match caller.onExhaust with
    | some position => { caller with onExhaust := none, cursor := position }
    | none => caller

def handOver (frame : Frame) (returned : List Value) : SessionM H W Unit := do
  match frame.generator with
  | some handle => endGenerator handle returned
  | none => deliver returned

/-- Leaves the running frame, by way of its deferred blocks if any is armed. -/
def leave (exit : Exit) : SessionM H W Unit := do
  match (← get).job.frames with
  | [] => throw noFrame
  | frame :: rest =>
    match frame.diversion with
    | some entry => holdExit frame rest entry exit
    | none =>
      changeJob fun j => { j with frames := rest }
      let returned ← match exit with
        | .values => do
          let values ← drainChannel
          let _ ← retire frame 0
          pure values
        | .locals mask => retire frame mask
      handOver frame returned

/-- Parks the running frame in its iterator and puts the values in the channel up as the current
entry. -/
def suspend : SessionM H W Unit := do
  match (← get).job.frames with
  | [] => return ()
  | frame :: rest =>
    match frame.generator with
    | none => throw (frame.malformed "yield outside a generator")
    | some handle =>
      changeJob fun j => { j with frames := rest }
      let values ← drainChannel
      match (← get).machine.heap.iteratorAt handle with
      | .ok it =>
        let (old, it) := it.park frame values
        changeHeap (·.setObject handle (.iterator it))
        dispose old
      | .error e =>
        dispose values
        let _ ← retire frame 0
        throw e
      changeJob fun j => j.changeTop fun caller => { caller with onExhaust := none }

/-- Runs a parked generator. A generator that has ended sends the running frame to `exhausted`. -/
def advance (handle : Handle) (exhausted : Nat) : SessionM H W Unit := do
  let s ← get
  if s.atDepthLimit then throw (depthExceeded s.machine.config.maxFrames)
  let it ← s.machine.heap.iteratorAt handle
  if it.state = .running then throw (.typeMismatch "generator is already running")
  match it.resume with
  | (some frame, it) =>
    changeHeap (·.setObject handle (.iterator it))
    changeJob fun j => j.changeTop fun caller => { caller with onExhaust := some exhausted }
    changeJob fun j => { j with frames := frame :: j.frames }
  | (none, _) => changeJob fun j => j.changeTop fun caller => { caller with cursor := exhausted }

def follow (host : Host H W) : Flow → SessionM H W Unit
  | .next => return ()
  | .jump target => changeJob fun j => j.changeTop fun f => { f with cursor := target }
  | .call target this => invoke host target this
  | .ret => leave .values
  | .returnLocals mask => leave (.locals mask)
  | .yield => suspend
  | .finalize => do
    clearChannel
    leave .values
  | .advance handle exhausted => advance handle exhausted

/-- Carries out what a step asked for; `next` is the position behind the step. -/
def apply (host : Host H W) (flow : Flow) (next : Nat) : SessionM H W Unit := do
  if (← get).job.frames.isEmpty then throw noFrame
  changeJob fun j => j.changeTop fun f => { f with cursor := next }
  follow host flow

end Session

end ScriptMachine
