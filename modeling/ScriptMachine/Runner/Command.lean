import ScriptMachine.Number.Word
import ScriptMachine.Text.Digits
import ScriptMachine.Text.Path

/-!
# Command lines

The words of a command line say what the runner is to do: run a program, or show how its functions
are folded into steps. Words are read one after the other. The value of an option is checked when
the next option or file begins, or at the end; a word that nothing can be made of is refused at
once, whatever the value before it is.
-/

set_option autoImplicit false

namespace ScriptMachine

/-- How the runner drives a job. -/
inductive RunMode where
  | sync | bounded | async
deriving DecidableEq, Repr, Inhabited

def RunMode.ofName? : String → Option RunMode
  | "sync" => some .sync
  | "bounded" => some .bounded
  | "async" => some .async
  | _ => none

/-- How a program is to be run. -/
structure RunOptions where
  file : String
  mode : RunMode := .sync
  /-- Instructions of one slice in bounded mode. -/
  budget : Option Nat := none
  /-- File of settings. -/
  config : Option String := none
  noFuse : Bool := false
  /-- Path of the function to call. -/
  entry : String := "main"
deriving DecidableEq, Repr, Inhabited

inductive Command where
  | run (options : RunOptions)
  /-- Show the steps of all functions. -/
  | fuse (file : String) (noFuse : Bool)
  | help
  | version
deriving DecidableEq, Repr, Inhabited

inductive Usage where
  /-- An option that is not there, or a word too many. -/
  | unknownArgument
  | invalidValue
  | valueValidation
  | tooManyValues
  | argumentConflict
  | missingRequiredArgument
  | invalidSubcommand
  | missingSubcommand
deriving DecidableEq, Repr, Inhabited

def Usage.kind : Usage → String
  | unknownArgument => "UnknownArgument"
  | invalidValue => "InvalidValue"
  | valueValidation => "ValueValidation"
  | tooManyValues => "TooManyValues"
  | argumentConflict => "ArgumentConflict"
  | missingRequiredArgument => "MissingRequiredArgument"
  | invalidSubcommand => "InvalidSubcommand"
  | missingSubcommand => "MissingSubcommand"

def Usage.message : Usage → String
  | unknownArgument => "unexpected argument found"
  | invalidValue => "invalid value for an option"
  | valueValidation => "a value can not be used"
  | tooManyValues => "unexpected value for an option"
  | argumentConflict => "an option was given more than once"
  | missingRequiredArgument => "no file was given"
  | invalidSubcommand => "unrecognized subcommand"
  | missingSubcommand => "no subcommand was given"

/-! ## Values -/

def checkPath (path : String) : Except String String :=
  if Text.Path.goesUp path then
    .error "Parent directory components ('..') are not allowed in file paths."
  else .ok path

/-- A number of instructions; a plus sign may precede it. -/
def budget? (word : String) : Option Nat :=
  let digits := match word.toList with
    | '+' :: rest => rest
    | cs => cs
  (Text.natural? 10 digits).filter (· < 2 ^ 64)

/-- The things on a command line that have a value. -/
inductive Parameter where
  | file | mode | budget | config | entry
deriving DecidableEq, Repr, Inhabited

structure Given where
  file : Option String := none
  mode : Option RunMode := none
  budget : Option Nat := none
  config : Option String := none
  entry : Option String := none
  noFuse : Bool := false
deriving DecidableEq, Repr, Inhabited

namespace Given

def has (g : Given) : Parameter → Bool
  | .file => g.file.isSome
  | .mode => g.mode.isSome
  | .budget => g.budget.isSome
  | .config => g.config.isSome
  | .entry => g.entry.isSome

def path (word : String) : Except Usage String :=
  (checkPath word).mapError fun _ => .valueValidation

def set (g : Given) (parameter : Parameter) (word : String) : Except Usage Given :=
  match parameter with
  | .file => do return { g with file := some (← path word) }
  | .mode =>
    match RunMode.ofName? word with
    | some mode => .ok { g with mode := some mode }
    | none => .error .invalidValue
  | .budget =>
    match budget? word with
    | some n => .ok { g with budget := some n }
    | none => .error .valueValidation
  | .config => do return { g with config := some (← path word) }
  | .entry => .ok { g with entry := some word }

/-- Takes over an argument, whose value may be missing. -/
def take (g : Given) (parameter : Parameter) : Option String → Except Usage Given
  | none => .error .invalidValue
  | some word => if g.has parameter then .error .argumentConflict else g.set parameter word

end Given

/-! ## Words -/

inductive CommandWord where
  /-- Two dashes alone: all words after them are plain. -/
  | rest
  | long (name : String) (value : Option String)
  | short (letter : Char)
  | plain (text : String)
deriving DecidableEq, Repr, Inhabited

def CommandWord.ofText (word : String) : CommandWord :=
  match word.toList with
  | ['-', '-'] => .rest
  | '-' :: '-' :: body =>
    let name := String.ofList (body.takeWhile (· ≠ '='))
    match body.dropWhile (· ≠ '=') with
    | _ :: value => .long name (some (String.ofList value))
    | [] => .long name none
  | '-' :: letter :: _ => .short letter
  | _ => .plain word

inductive Task where
  | run | fuse
deriving DecidableEq, Repr, Inhabited

def Task.option? : Task → String → Option Parameter
  | .run, "mode" => some .mode
  | .run, "budget" => some .budget
  | .run, "config" => some .config
  | .run, "entry" => some .entry
  | _, _ => none

structure Reader where
  task : Task
  given : Given := {}
  waiting : Option (Parameter × Option String) := none
  filed : Bool := false
  plainOnly : Bool := false
deriving Repr, Inhabited

/-- The answer to a word: reading goes on, or help is asked for. -/
abbrev Reader.Step := Except Usage (Option Reader)

namespace Reader

def settle (r : Reader) : Except Usage Reader :=
  match r.waiting with
  | none => .ok r
  | some (parameter, value) => do
    return { r with given := ← r.given.take parameter value, waiting := none }

/-- A word without dashes is the value of the option before it, or the file. -/
def plainWord (r : Reader) (word : String) : Step :=
  match r.waiting, r.plainOnly with
  | some (parameter, none), false => .ok (some { r with waiting := some (parameter, some word) })
  | _, _ =>
    if r.filed then .error .unknownArgument
    else do return some { ← r.settle with waiting := some (.file, some word), filed := true }

def longWord (r : Reader) (name : String) (value : Option String) : Step :=
  match r.task.option? name, name, value with
  | some parameter, _, none => do
    return some { ← r.settle with waiting := some (parameter, none) }
  | some parameter, _, some value => do
    let r ← r.settle
    return some { r with given := ← r.given.take parameter (some value) }
  | none, "no-fuse", none => do
    let r ← r.settle
    if r.given.noFuse then throw .argumentConflict
    return some { r with given := { r.given with noFuse := true } }
  | none, "help", none => do
    let _ ← r.settle
    return none
  | none, "no-fuse", some _ => .error .tooManyValues
  | none, "help", some _ => .error .tooManyValues
  | none, _, _ => .error .unknownArgument

def word (r : Reader) (text : String) : Step :=
  if r.plainOnly then r.plainWord text
  else
    match CommandWord.ofText text with
    | .rest => .ok (some { r with plainOnly := true })
    | .long name value => r.longWord name value
    | .short 'h' => do
      let _ ← r.settle
      return none
    | .short _ => .error .unknownArgument
    | .plain text => r.plainWord text

def command (r : Reader) : Except Usage Command := do
  let g := (← r.settle).given
  match g.file, r.task with
  | none, _ => .error .missingRequiredArgument
  | some file, .run =>
    return .run
      { file, mode := g.mode.getD .sync, budget := g.budget, config := g.config, noFuse := g.noFuse,
        entry := g.entry.getD "main" }
  | some file, .fuse => return .fuse file g.noFuse

def words : Reader → List String → Except Usage Command
  | r, [] => r.command
  | r, text :: rest => do
    match ← r.word text with
    | some r => words r rest
    | none => return .help

end Reader

def isSubcommand (word : String) : Bool := word ∈ ["run", "fuse", "help"]

namespace Command

/-- The words after two dashes alone. No subcommand can stand there. -/
def afterDashes : List String → Except Usage Command
  | [] => .error .missingSubcommand
  | word :: _ => .error (if isSubcommand word then .unknownArgument else .invalidSubcommand)

def parse : List String → Except Usage Command
  | [] => .error .missingSubcommand
  | "run" :: rest => Reader.words { task := .run } rest
  | "fuse" :: rest => Reader.words { task := .fuse } rest
  | "help" :: rest =>
    if rest.head?.all isSubcommand then .ok .help else .error .invalidSubcommand
  | text :: rest =>
    match CommandWord.ofText text with
    | .rest => afterDashes rest
    | .long "help" none => .ok .help
    | .long "version" none => .ok .version
    | .long "help" (some _) => .error .tooManyValues
    | .long "version" (some _) => .error .tooManyValues
    | .short 'h' => .ok .help
    | .short 'V' => .ok .version
    | .long _ _ => .error .unknownArgument
    | .short _ => .error .unknownArgument
    | .plain _ => .error .invalidSubcommand

end Command

end ScriptMachine
