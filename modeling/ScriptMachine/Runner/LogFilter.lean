import ScriptMachine.Machine.Journal
import ScriptMachine.Text.Blank
import ScriptMachine.Text.Split

/-!
# Log filters

A filter says which notes of the machine are shown. It is a row of directives; each sets the most
talkative severity for the topics whose name begins with its target, and the directive with the
longest target decides. Logging is switched on by a variable of the environment, which may also
carry the filter.
-/

set_option autoImplicit false

namespace ScriptMachine

def Topic.target : Topic → String
  | pools => "ember::vm::pool"
  | structures => "ember::vm::struct"
  | fusion => "ember::vm::fuse"
  | globals => "ember::vm::globals"
  | engine => "ember::vm::engine"
  | runner => "ember_cli"

def verbosity? (name : String) : Option Nat :=
  match name.map Char.toLower with
  | "off" | "0" => some 0
  | "error" | "1" => some Severity.error.verbosity
  | "warn" | "2" => some Severity.warn.verbosity
  | "info" | "3" => some Severity.info.verbosity
  | "debug" | "4" => some Severity.debug.verbosity
  | "trace" | "5" => some Severity.trace.verbosity
  | _ => none

structure Directive where
  /-- What the names of topics have to begin with. -/
  target : String := ""
  verbosity : Nat
deriving DecidableEq, Repr, Inhabited

namespace Directive

def isTargetChar (c : Char) : Bool := c.isAlphanum || c = '_' || c = ':' || c = '-'

/-- A severity, a target, or both with an equality sign in between. A target alone shows all. -/
def parse? (text : String) : Option Directive :=
  match verbosity? text, Text.splitAt '=' text.toList with
  | some verbosity, _ => some { verbosity }
  | none, [target] => ofTarget target Severity.trace.verbosity
  | none, [target, []] => ofTarget target Severity.trace.verbosity
  | none, [target, level] => (verbosity? (String.ofList level)).bind (ofTarget target)
  | none, _ => none
where
  ofTarget (target : List Char) (verbosity : Nat) : Option Directive :=
    if !target.isEmpty && target.all isTargetChar then some ⟨String.ofList target, verbosity⟩
    else none

def concerns (d : Directive) (topic : Topic) : Bool :=
  d.target.toList.isPrefixOf topic.target.toList

end Directive

structure LogFilter where
  directives : List Directive
deriving DecidableEq, Repr, Inhabited

namespace LogFilter

/-- Reads a filter. One without directives shows errors only. -/
def parse? (text : String) : Option LogFilter := do
  let parts := ((Text.splitAt ',' text.toList).map String.ofList).filter (· ≠ "")
  let directives ← parts.mapM Directive.parse?
  if directives.isEmpty then return ⟨[{ verbosity := Severity.error.verbosity }]⟩
  else return ⟨directives⟩

/-- The severity up to which notes about a topic are shown. Of directives with one target the last
one counts. -/
def verbosity (f : LogFilter) (topic : Topic) : Nat :=
  let best := (f.directives.filter (·.concerns topic)).foldl (fun best d =>
    match best with
    | none => some d
    | some b => some (if b.target.length ≤ d.target.length then d else b)) (none : Option Directive)
  (best.map Directive.verbosity).getD 0

def shows (f : LogFilter) (topic : Topic) (severity : Severity) : Bool :=
  severity.verbosity ≤ f.verbosity topic

def standard : LogFilter :=
  (parse? ("ember::vm::engine=debug,ember::vm::globals=debug,ember::vm::fuse=info,"
    ++ "ember_cli=info")).getD ⟨[]⟩

def isOn (switch : String) : Bool :=
  let word := Text.trim switch
  !(word = "" || ["0", "false", "off"].any (Text.sameIgnoringCase word))

def carried? (switch : String) : Option String :=
  let word := Text.trim switch
  if word = "" ∨ ["1", "true", "on"].any (Text.sameIgnoringCase word) then none else some word

/-- The filter that the environment asks for: that of the switch, or else the general one, or else
the standard one, which also stands in for one that can not be read. -/
def ofEnvironment (setting : String → Option String) : Option LogFilter := do
  let switch ← setting "EMBER_TRACE"
  if isOn switch then
    let text := (carried? switch).or (setting "RUST_LOG")
    return (text.bind parse?).getD standard
  else none

end LogFilter

def Journal.isShownBy (j : Journal) (f : LogFilter) : Bool :=
  j.notes.any fun (topic, severity) => f.shows topic severity

end ScriptMachine
