import ScriptMachine.Document.Toml.Table
import ScriptMachine.Document.Toml.Word

/-!
# TOML

Reading TOML files of tables, arrays of tables, arrays, inline tables, single-line texts, integers,
floats and truth values. A file is a row of statements: a header opens a table, an assignment puts a
value into the open one.
-/

set_option autoImplicit false

namespace ScriptMachine.Toml

/-! ## Values -/

mutual

def value? : (fuel depth : Nat) → List Char → Option (Document × List Char)
  | 0, _, _ => none
  | fuel + 1, depth, cs =>
    match cs, depth with
    | '[' :: _, 0 => none
    | '\x7b' :: _, 0 => none
    | '[' :: rest, depth + 1 => items? fuel depth [] rest
    | '\x7b' :: rest, depth + 1 => inlineEntries? fuel depth [] rest
    | cs, _ =>
      match text? cs with
      | some (s, rest) => some (.text s, rest)
      | none => (scalar? (cs.takeWhile isScalarChar)).map (·, cs.dropWhile isScalarChar)

/-- The items of an array, up to its closing bracket. They may stand on several lines, and a comma
may follow the last one. -/
def items? : (fuel depth : Nat) → List Document → List Char → Option (Document × List Char)
  | 0, _, _, _ => none
  | fuel + 1, depth, read, cs =>
    match skipBlanks cs with
    | ']' :: rest => some (.list read.reverse, rest)
    | cs => do
      let (item, rest) ← value? fuel depth cs
      match skipBlanks rest with
      | ',' :: rest => items? fuel depth (item :: read) rest
      | ']' :: rest => return (.list (item :: read).reverse, rest)
      | _ => none

/-- The entries of an inline table, up to its closing brace. Like the items of an array they may
stand on several lines, and a comma may follow the last one. -/
def inlineEntries? : (fuel depth : Nat) → Entries → List Char → Option (Document × List Char)
  | 0, _, _, _ => none
  | fuel + 1, depth, read, cs =>
    match skipBlanks cs with
    | '\x7d' :: rest => some (.map (toEntries read), rest)
    | cs => do
      let (name, rest) ← name? cs
      match skipBlanks rest with
      | '=' :: rest => do
        let (d, rest) ← value? fuel depth (skipBlanks rest)
        let read ← assign d name read
        match skipBlanks rest with
        | ',' :: rest => inlineEntries? fuel depth read rest
        | '\x7d' :: rest => return (.map (toEntries read), rest)
        | _ => none
      | _ => none

end

/-! ## Statements -/

structure State where
  root : Entries := []
  path : List String := []
deriving Repr, Inhabited

def statement? (s : State) (cs : List Char) : Option (State × List Char) :=
  match cs with
  | '[' :: '[' :: rest => do
    let (path, rest) ← name? rest
    match rest with
    | ']' :: ']' :: rest =>
      return (⟨← alterAt openInArray path s.root, path⟩, ← lineEnd? rest)
    | _ => none
  | '[' :: rest => do
    let (path, rest) ← name? rest
    match rest with
    | ']' :: rest => return (⟨← alterAt openTable path s.root, path⟩, ← lineEnd? rest)
    | _ => none
  | cs => do
    let (name, rest) ← name? cs
    match rest with
    | '=' :: rest =>
      let (d, rest) ← value? (2 * rest.length + 2) nestingLimit (dropSpaces rest)
      return ({ s with root := ← assignAt d name s.path s.root }, ← lineEnd? rest)
    | _ => none

def statements? (s : State) : (fuel : Nat) → List Char → Option State
  | 0, _ => none
  | fuel + 1, cs =>
    match skipBlanks cs with
    | [] => some s
    | cs => do
      let (s, rest) ← statement? s cs
      statements? s fuel rest

def parse? (text : String) : Option Document := do
  let cs := match text.toList with
    | '\uFEFF' :: rest => rest
    | cs => cs
  let s ← statements? {} (cs.length + 1) cs
  return .map (toEntries s.root)

end ScriptMachine.Toml
