import ScriptMachine.Document.Unquoted
import ScriptMachine.Program.Basic

/-!
# Programs out of documents

Reading a program, or a part of one, out of a document. A document either is of the wanted shape or
it is refused; there is no partial answer. Unknown fields are skipped, a field given twice is
refused, and missing fields have defaults where the definition says so.

An unquoted scalar is read as what is asked for: a text as it stands, a number or a truth value by
the rules of `Unquoted`.
-/

set_option autoImplicit false

namespace ScriptMachine

/-! ## Shapes -/

/-- Freedoms that a format gives to writers of records and variants, and its limits. -/
structure Dialect where
  /-- A record may be a list of its fields in order. -/
  positional : Bool := false
  surplus : Bool := false
  variantContent : Document → Bool := fun _ => false
  /-- How many levels of lists and maps constant data may have; `none` for any. -/
  nesting : Option Nat := none

namespace Dialect

def isNull : Document → Bool
  | .null => true
  | _ => false

/-- A variant has no content; it may be said to be an empty collection. -/
def isEmpty : Document → Bool
  | .list [] => true
  | .map [] => true
  | _ => false

/-- Whether constant data is within the limits. -/
def admits (dialect : Dialect) (d : Document) : Bool :=
  dialect.nesting.all fun limit => decide (d.nesting ≤ limit)

end Dialect

/-- A file is nested at most 127 or 128 levels deep, and five of them surround constant data. -/
def Format.dialect : Format → Dialect
  | .json => { positional := true, variantContent := Dialect.isNull, nesting := some 122 }
  | .yaml => { nesting := some 123 }
  | .toml => { positional := true, surplus := true, variantContent := Dialect.isEmpty }

namespace Decode

def bool? : Document → Option Bool
  | .bool b => some b
  | .unquoted s => Unquoted.bool? s
  | _ => none

def integer? : Document → Option Int
  | .int i => some i
  | .unquoted s => Unquoted.integer? s
  | _ => none

def natural? : Document → Option Nat
  | .int i => if 0 ≤ i then some i.toNat else none
  | .unquoted s => Unquoted.natural? s
  | _ => none

def nat? (bound : Nat) (d : Document) : Option Nat := (natural? d).filter (· < bound)

def count? : Document → Option Nat := nat? (2 ^ 64)

def small? : Document → Option Nat := nat? (2 ^ 32)

def word? (d : Document) : Option Int64 := (integer? d).bind Word.ofInt?

def float? : Document → Option Double
  | .float x => some x
  | .int i => some (Double.ofInt i)
  | .unquoted s => Unquoted.float? s
  | _ => none

def list? {α : Type} (item : Document → Option α) : Document → Option (List α)
  | .list items => items.mapM item
  | .unquoted "" => some []
  | _ => none

/-- Something that may be left out by writing nothing. -/
def optional? {α : Type} (item : Document → Option α) : Document → Option (Option α)
  | .null => some none
  | .unquoted s => if Unquoted.isNull s then some none else (item (.unquoted s)).map some
  | d => (item d).map some

/-- The fields of a record in order; a field that is not there is `none`. Every name has to be a
text, also that of an unknown field. -/
def fields? (dialect : Dialect) (names : List String) (d : Document) :
    Option (List (Option Document)) :=
  match d with
  | .map entries =>
    let given (name : String) := entries.filter fun (key, _) => key.text? == some name
    if entries.any fun (key, _) => key.text?.isNone then none
    else if names.any fun name => decide (1 < (given name).length) then none
    else some (names.map fun name => (given name).head?.map Prod.snd)
  | .list items =>
    if dialect.positional && (dialect.surplus || items.length ≤ names.length) then
      let given := items.take names.length
      some (given.map some ++ List.replicate (names.length - given.length) none)
    else none
  | .unquoted "" => some (names.map fun _ => none)
  | _ => none

def required {α : Type} (item : Document → Option α) (field : Option Document) : Option α :=
  field.bind item

def defaulted {α : Type} (default : α) (item : Document → Option α) : Option Document → Option α
  | none => some default
  | some d => item d

/-! ## Program parts -/

def opcode? (dialect : Dialect) : Document → Option Opcode
  | .text s => Opcode.ofName? s
  | .unquoted s => Opcode.ofName? s
  | .map [(.text s, d)] => if dialect.variantContent d then Opcode.ofName? s else none
  | _ => none

def instruction? (dialect : Dialect) (d : Document) : Option Instruction := do
  match ← fields? dialect ["op", "int", "str", "float", "depth", "line"] d with
  | [op, int, str, float, depth, line] =>
    return {
      op := ← required (opcode? dialect) op
      int := ← defaulted 0 word? int
      str := ← defaulted none (optional? Document.text?) str
      float := ← defaulted (Double.zero false) float? float
      depth := ← defaulted 0 small? depth
      line := ← defaulted 0 small? line }
  | _ => none

def code? (dialect : Dialect) : Document → Option (List Instruction) :=
  list? (instruction? dialect)

def function? (dialect : Dialect) (d : Document) : Option Function := do
  match ← fields? dialect ["name", "params", "locals", "variadic", "generator", "code"] d with
  | [name, params, locals, variadic, generator, code] =>
    return {
      name := ← required Document.text? name
      params := ← defaulted 0 count? params
      locals := ← defaulted 0 count? locals
      variadic := ← defaulted false bool? variadic
      generator := ← defaulted false bool? generator
      code := ← defaulted [] (code? dialect) code }
  | _ => none

def static? (dialect : Dialect) (d : Document) : Option StaticDef := do
  match ← fields? dialect ["path", "init"] d with
  | [path, init] =>
    return { path := ← required Document.text? path, init := ← required (function? dialect) init }
  | _ => none

/-- A name in constant data has to be a text when nothing is asked for. -/
def name? : Document → Option String
  | .text s => some s
  | .unquoted s =>
    match Unquoted.resolve s with
    | .text s => some s
    | _ => none
  | _ => none

mutual

/-- Constant data. An integer that is no signed word is a double. -/
def literal? : Document → Option Literal
  | .null => some .null
  | .bool b => some (.bool b)
  | .int i => some (scalarInt i)
  | .float x => some (.float x)
  | .text s => some (.str s)
  | .unquoted s =>
    match Unquoted.resolve s with
    | .null => some .null
    | .bool b => some (.bool b)
    | .int i => some (scalarInt i)
    | .float x => some (.float x)
    | .text s => some (.str s)
    | _ => none
  | .unreadable => none
  | .list items => (literals? items).map .list
  | .map entries => (literalEntries? entries).map fun m => .map m.entries

def literals? : List Document → Option (List Literal)
  | [] => some []
  | d :: rest => do return (← literal? d) :: (← literals? rest)

/-- Entries by name; of two entries with one name the later one stays. -/
def literalEntries? : List (Document × Document) → Option (SortedMap String Literal)
  | [] => some {}
  | (key, d) :: rest => do
    let name ← name? key
    let value ← literal? d
    let others ← literalEntries? rest
    return if others.contains name then others else others.insert name value

def scalarInt (i : Int) : Literal :=
  match Word.ofInt? i with
  | some w => .int w
  | none => .float (Double.ofInt i)

end

def data? (dialect : Dialect) (d : Document) : Option DataDef := do
  match ← fields? dialect ["path", "value", "readonly"] d with
  | [path, value, readonly] =>
    return {
      path := ← required Document.text? path
      value := ← required (fun d => if dialect.admits d then literal? d else none) value
      readonly := ← defaulted false bool? readonly }
  | _ => none

def enum? (dialect : Dialect) (d : Document) : Option EnumDef := do
  match ← fields? dialect ["path", "variants"] d with
  | [path, variants] =>
    return {
      path := ← required Document.text? path
      variants := ← required (list? Document.text?) variants }
  | _ => none

def module? (dialect : Dialect) (d : Document) : Option Module := do
  match ← fields? dialect ["name", "functions", "statics", "data", "enums", "init"] d with
  | [name, functions, statics, data, enums, init] =>
    return {
      name := ← required Document.text? name
      functions := ← defaulted [] (list? (function? dialect)) functions
      statics := ← defaulted [] (list? (static? dialect)) statics
      data := ← defaulted [] (list? (data? dialect)) data
      enums := ← defaulted [] (list? (enum? dialect)) enums
      init := ← defaulted none (optional? (function? dialect)) init }
  | _ => none

def modules? (dialect : Dialect) : Document → Option (List Module) := list? (module? dialect)

def program? (dialect : Dialect) (d : Document) : Option Program := do
  match ← fields? dialect ["modules"] d with
  | [modules] => return { modules := ← defaulted [] (modules? dialect) modules }
  | _ => none

def config? (dialect : Dialect) (d : Document) : Option Config := do
  let standard : Config := {}
  match ← fields? dialect ["yield_interval", "max_frames", "default_budget", "fusion"] d with
  | [interval, frames, budget, fusion] =>
    return {
      yieldInterval := ← defaulted standard.yieldInterval count? interval
      maxFrames := ← defaulted standard.maxFrames count? frames
      defaultBudget := ← defaulted standard.defaultBudget count? budget
      fusion := ← defaulted standard.fusion bool? fusion }
  | _ => none

end Decode

end ScriptMachine
