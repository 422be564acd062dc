import ScriptMachine.Number.Decimal
import ScriptMachine.Text.Quoted

/-!
# Documents

A document is the tree that a data file denotes, whichever of the formats the file is written in.
`Document.render` writes a document compactly in the JSON format.
-/

set_option autoImplicit false

namespace ScriptMachine

/-- A tree of data. -/
inductive Document where
  | null
  | bool (b : Bool)
  | int (i : Int)
  | float (x : Double)
  | text (s : String)
  | unquoted (s : String)
  /-- A well-formed scalar that no value can hold: a number out of range, or a text with half of a
  surrogate pair. It may only stand where nothing is asked for. -/
  | unreadable
  | list (items : List Document)
  /-- Entries in the order of the file. The names of a YAML file may be any documents. -/
  | map (entries : List (Document × Document))
deriving Repr, Inhabited

namespace Document

/-- A map with quoted names. -/
def record (fields : List (String × Document)) : Document :=
  .map (fields.map fun (name, value) => (.text name, value))

def text? : Document → Option String
  | .text s => some s
  | .unquoted s => some s
  | _ => none

def field? (name : String) : Document → Option Document
  | .map entries => (entries.find? fun (key, _) => key.text? == some name).map Prod.snd
  | _ => none

def texts (items : List String) : Document := .list (items.map .text)

def nat (n : Nat) : Document := .int n

def optional {α : Type} (f : α → Document) : Option α → Document
  | none => .null
  | some a => f a

mutual

/-- How many levels of lists and maps a document has. -/
def nesting : Document → Nat
  | .list items => 1 + nestingItems items
  | .map entries => 1 + nestingEntries entries
  | _ => 0

def nestingItems : List Document → Nat
  | [] => 0
  | d :: rest => max d.nesting (nestingItems rest)

def nestingEntries : List (Document × Document) → Nat
  | [] => 0
  | (_, d) :: rest => max d.nesting (nestingEntries rest)

end

mutual

/-- Compact JSON text. A double that is not finite can not be written and becomes `null`. -/
def render : Document → String
  | .null => "null"
  | .bool b => if b then "true" else "false"
  | .int i => toString i
  | .float x => if x.isFinite then Double.written.text x else "null"
  | .text s => Text.interchange s
  | .unquoted s => Text.interchange s
  | .unreadable => "null"
  | .list items => "[" ++ renderItems items ++ "]"
  | .map entries => "\x7b" ++ renderEntries entries ++ "\x7d"

def renderItems : List Document → String
  | [] => ""
  | [d] => d.render
  | d :: rest => d.render ++ "," ++ renderItems rest

def renderEntries : List (Document × Document) → String
  | [] => ""
  | [(key, d)] => key.render ++ ":" ++ d.render
  | (key, d) :: rest => key.render ++ ":" ++ d.render ++ "," ++ renderEntries rest

end

end Document

end ScriptMachine
