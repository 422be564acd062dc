import ScriptMachine.Runner.Execute
import ScriptMachine.Runner.LogFilter
import ScriptMachine.Runner.Report

/-!
# The runner as a program

Reads the command line, the files that the command names and the environment, and prints what the
command leaves.
-/

set_option autoImplicit false

namespace ScriptMachine

def Command.paths : Command → List String
  | .run o => o.config.toList ++ [o.file]
  | .fuse file _ => [file]
  | _ => []

/-- Why a file can not be read, in the words of the system. -/
def fileError : IO.Error → String
  | .noFileOrDirectory _ _ _ => "No such file or directory (os error 2)"
  | .permissionDenied _ code _ => s!"Permission denied (os error {code})"
  | .inappropriateType _ code _ => s!"Is a directory (os error {code})"
  | e => toString e

def readFromDisk (path : String) : IO (Except Error String) := do
  try
    return .ok (← IO.FS.readFile path)
  catch e => return .error (.plain (fileError e))

def commandFuel : Nat := 2 ^ 62

def showNotes (notes : Journal) : IO Unit := do
  let switch ← IO.getEnv "EMBER_TRACE"
  let general ← IO.getEnv "RUST_LOG"
  let setting (name : String) := if name = "EMBER_TRACE" then switch else general
  match LogFilter.ofEnvironment setting with
  | none => return ()
  | some filter =>
    for (topic, severity) in notes.notes.reverse do
      if filter.shows topic severity then IO.eprintln (topic.target ++ ": " ++ severity.name)

/-- Prints what a command left and answers the exit code. -/
def conclude (x : Execution) : IO UInt32 := do
  IO.print x.printed
  showNotes x.notes
  for e in x.failure do
    match e.panic? with
    | some panic => IO.eprintln ("panicked: " ++ panic.message)
    | none =>
      for line in Report.lines e do
        IO.eprintln line
  return x.code.toUInt32

end ScriptMachine

open ScriptMachine in
def main (args : List String) : IO UInt32 := do
  match Command.parse args with
  | .error usage =>
    IO.eprintln ("error: " ++ usage.message)
    return 2
  | .ok command =>
    let texts ← command.paths.mapM fun path => do return (path, ← readFromDisk path)
    let files : Files := fun path =>
      (texts.lookup path).getD (.error (.plain "the file was not read"))
    match Runner.execute files {} commandFuel command with
    | some x => conclude x
    | none =>
      IO.eprintln "error: the program does not end"
      return 1
