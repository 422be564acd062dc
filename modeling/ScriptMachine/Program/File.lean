import ScriptMachine.Document.Json
import ScriptMachine.Document.Toml
import ScriptMachine.Document.Yaml
import ScriptMachine.Program.Decode
import ScriptMachine.Text.Path
import ScriptMachine.Value.Error

/-!
# Files of programs and settings

Programs are read from files in one of three formats, told apart by their extensions. Settings are
read from TOML files.
-/

set_option autoImplicit false

namespace ScriptMachine

/-- The texts of files by path, or why a file can not be read. -/
abbrev Files := String → Except Error String

/-- The text of a file; `purpose` tells what the file was wanted for. -/
def Files.read (files : Files) (purpose path : String) : Except Error String :=
  (files path).mapError (·.within (purpose ++ " " ++ path))

/-- An absent result as an error; the context tells what it should have been. -/
def wellFormed {α : Type} (context : String) : Option α → Except Error α
  | some a => .ok a
  | none => .error ((Error.plain "the text is malformed").within context)

namespace Format

def name : Format → String
  | json => "JSON"
  | yaml => "YAML"
  | toml => "TOML"

def ofExtension? : String → Option Format
  | "json" => some json
  | "yaml" => some yaml
  | "yml" => some yaml
  | "toml" => some toml
  | _ => none

def ofPath (path : String) : Except Error Format :=
  match (Text.Path.extension? path).bind ofExtension? with
  | some format => .ok format
  | none =>
    .error (.plain ("unsupported program file '" ++ path
      ++ "': expected .json, .yaml, .yml or .toml"))

def document? : Format → String → Option Document
  | json => Json.parse?
  | yaml => Yaml.parse?
  | toml => Toml.parse?

end Format

def Program.parse (format : Format) (text : String) : Except Error Program :=
  wellFormed ("invalid " ++ format.name ++ " program")
    ((format.document? text).bind (Decode.program? format.dialect))

def Program.ofFile (files : Files) (path : String) : Except Error Program := do
  let format ← Format.ofPath path
  let text ← files.read "reading" path
  (Program.parse format text).mapError (·.within ("in " ++ path))

def Config.parse (text : String) : Except Error Config :=
  wellFormed "invalid engine config"
    ((Format.toml.document? text).bind (Decode.config? Format.toml.dialect))

def Config.ofFile (files : Files) (path : String) : Except Error Config := do
  let text ← files.read "reading config" path
  (Config.parse text).mapError (·.within ("in " ++ path))

end ScriptMachine
