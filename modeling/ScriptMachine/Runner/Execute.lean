import ScriptMachine.Machine.Load
import ScriptMachine.Program.File
import ScriptMachine.Runner.Bindings
import ScriptMachine.Runner.Command

/-!
# Executing commands

A command reads files, works on a machine of its own, and leaves what it printed, the error that
ended it, and the notes of the machine. The settings of a run come from a file, if one is given, and
the options of the command override them.
-/

set_option autoImplicit false

namespace ScriptMachine

abbrev RunnerMachine := Machine Binding Console

structure Execution where
  printed : String := ""
  failure : Option Error := none
  notes : Journal := {}
deriving DecidableEq, Repr, Inhabited

namespace Execution

/-- The code that the process ends with. -/
def code (x : Execution) : Nat :=
  match x.failure with
  | none => 0
  | some e => if e.panic?.isSome then 101 else 1

def ofError (e : Error) : Execution := { failure := some e }

def ofResult : Except Error Unit × RunnerMachine → Execution
  | (.ok _, m) => { printed := m.world.printed, notes := m.notes }
  | (.error e, m) => { printed := m.world.printed, failure := some e, notes := m.notes }

end Execution

namespace Runner

/-- Prints a text of the runner itself, which gives up the process if it can not be written. -/
def print (text : String) : MachineM Binding Console Unit := fun m =>
  match Console.write text m.world with
  | .ok _ world => .ok () { m with world }
  | .error e world => .error (.ofPanic (.output e.message)) { m with world }

/-! ## Running a program -/

def settings (files : Files) (o : RunOptions) : Except Error Config := do
  let base ← match o.config with
    | some path => Config.ofFile files path
    | none => pure {}
  if o.budget = some 0 then throw (.plain "--budget must be at least 1")
  return { base with
    defaultBudget := o.budget.getD base.defaultBudget
    fusion := base.fusion && !o.noFuse }

/-- Binds the host functions and loads a program. -/
def load (fuel : Nat) (o : RunOptions) (program : Program) : Fueled RunnerMachine Unit := do
  Binding.register
  (Machine.load Binding.host fuel program.modules).within ("loading " ++ o.file)
  modify (Machine.note .runner .debug)

/-- Gives slices to a job until it is over. -/
def slices (stepFuel budget : Nat) : (fuel : Nat) → Fueled (Session Binding Console) Outcome
  | 0 => .starved
  | fuel + 1 => do
    match ← Session.runBounded Binding.host stepFuel budget with
    | .halted => slices stepFuel budget fuel
    | outcome =>
      (Session.note .runner .debug : SessionM Binding Console Unit)
      return outcome

def drive (fuel : Nat) : RunMode → Fueled (Session Binding Console) Outcome
  | .sync => Session.run Binding.host fuel
  | .bounded => do slices fuel (← get).machine.config.defaultBudget fuel
  | .async => Session.runCooperative Binding.host fuel

def abort (entry : String) (e : Error) : SessionM Binding Console Outcome := do
  Session.teardown
  modify fun s => { s with machine := s.machine.shutdown }
  throw (e.within ("running " ++ entry))

def printValues (values : List Value) : MachineM Binding Console Unit := do
  let heap := (← get).heap
  values.forM fun v => print (heap.render v ++ "\n")
  modify (Machine.dispose values)

/-- Calls the entry function of a program that is loaded, and prints what it returns. -/
def callEntry (fuel : Nat) (o : RunOptions) : Fueled (Session Binding Console) Unit := do
  (Session.startPath Binding.host o.entry [] : SessionM Binding Console Unit)
  let outcome ← tryCatch (drive fuel o.mode) fun e =>
    (abort o.entry e : SessionM Binding Console Outcome)
  (printValues outcome.values : MachineM Binding Console Unit)
  modify fun s => { s with machine := s.machine.shutdown }

def runProgram (fuel : Nat) (o : RunOptions) (program : Program) : Fueled RunnerMachine Unit := do
  load fuel o program
  Machine.inNewJob (callEntry fuel o)

/-! ## Showing steps -/

def functionsOf (m : Module) : List Function :=
  m.functions ++ m.statics.map StaticDef.init ++ m.init.toList

def showSteps (program : Program) : MachineM Binding Console Unit := do
  program.modules.forM fun m => (functionsOf m).forM fun f => discard (Machine.addUnit f)
  (← get).units.values.forM fun unit => print unit.describe

/-! ## Commands -/

def version : String := "ember 0.1.0\n"

def help : String :=
  "Runner for Ember programs\n\n"
  ++ "Usage: ember <COMMAND>\n\n"
  ++ "Commands:\n"
  ++ "  run   Load a program file and call its entry function\n"
  ++ "  fuse  Print the fused step layout of every function in a program file\n"
  ++ "  help  Print this message\n"

def run (files : Files) (world : Console) (fuel : Nat) (o : RunOptions) : Option Execution :=
  match settings files o with
  | .error e => some (.ofError e)
  | .ok config =>
    match Program.ofFile files o.file with
    | .error e => some (.ofError e)
    | .ok program => (runProgram fuel o program { config, world }).map .ofResult

def fuse (files : Files) (world : Console) (file : String) (noFuse : Bool) : Execution :=
  match Program.ofFile files file with
  | .error e => .ofError e
  | .ok program =>
    .ofResult ((showSteps program).outcome { config := { fusion := !noFuse }, world })

/-- Executes a command; the answer is missing only if a program needs more fuel. -/
def execute (files : Files) (world : Console) (fuel : Nat) : Command → Option Execution
  | .run o => run files world fuel o
  | .fuse file noFuse => some (fuse files world file noFuse)
  | .help => some { printed := help }
  | .version => some { printed := version }

end Runner

end ScriptMachine
