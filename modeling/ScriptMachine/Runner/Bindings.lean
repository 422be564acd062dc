import ScriptMachine.Machine.Basic
import ScriptMachine.Value.Convert

/-!
# Host functions of the runner

Programs can print and sleep. What they see of the outer world is a console, which may fail to take
what is written to it.
-/

set_option autoImplicit false

namespace ScriptMachine

/-- How a write fails: some characters were passed on before. -/
structure Refusal where
  passed : Nat := 0
  reason : String
deriving DecidableEq, Repr, Inhabited

structure Console where
  printed : String := ""
  /-- How the writes to come end. Those that are not listed succeed. -/
  refusals : List (Option Refusal) := []
deriving DecidableEq, Repr, Inhabited

namespace Console

def attempt (text : String) : Effect Console Unit := do
  let c ← get
  match c.refusals.head?.join with
  | none => set { printed := c.printed ++ text, refusals := c.refusals.tail : Console }
  | some refusal =>
    let passed := String.ofList (text.toList.take refusal.passed)
    set { printed := c.printed ++ passed, refusals := c.refusals.tail : Console }
    throw (.plain refusal.reason)

def write (text : String) : Effect Console Unit := do
  if text ≠ "" then attempt text

def flush : Effect Console Unit := attempt ""

end Console

/-- The host functions that the runner offers. -/
inductive Binding where
  | print | println | sleep
deriving DecidableEq, Repr, Inhabited

namespace Binding

def all : List Binding := [print, println, sleep]

def path : Binding → String
  | print => "io.print"
  | println => "io.println"
  | sleep => "time.sleep"

def sleepTask (c : HostCall Binding) : HostReply × HostCall Binding :=
  match c.expectArgs 1 with
  | .error e => (.failed e, c)
  | .ok _ =>
    let (v, c) := c.arg
    match v.asInt with
    | .error e => (.failed (e.within "time.sleep expects milliseconds"), c)
    | .ok ms =>
      if ms < 0 then
        (.failed (.plain s!"time.sleep expects a non-negative duration, got {ms.toInt}"), c)
      else (.task { result := .ok [.int ms] }, c)

/-- Prints the arguments on one line, which ends with what `close` does. The arguments are disposed
before anything is written. -/
def printArgs (close : Effect Console Unit) (c : HostCall Binding) (console : Console) :
    HostReply × HostCall Binding × Console :=
  let (line, c) := c.joinArgs
  match (do Console.write line; close : Effect Console Unit) console with
  | .ok _ console => (.finished, c, console)
  | .error e console => (.failed e, c, console)

def call (b : Binding) (c : HostCall Binding) (console : Console) :
    HostReply × HostCall Binding × Console :=
  match b with
  | print => printArgs Console.flush c console
  | println => printArgs (Console.write "\n") c console
  | sleep =>
    let (reply, c) := sleepTask c
    (reply, c, console)

def host : Host Binding Console where
  call := call
  report _ console := console

/-- Binds all host functions; a program may bind something else to their paths. -/
def register : MachineM Binding Console Unit :=
  all.forM fun b => Machine.registerHost b.path b true

end Binding

end ScriptMachine
