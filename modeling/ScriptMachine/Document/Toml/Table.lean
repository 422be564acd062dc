import ScriptMachine.Document.Basic

/-!
# Tables of TOML

The tree that the statements of a file build up. It remembers how each table came about, because
that decides whether the table may be opened or extended again.
-/

set_option autoImplicit false

namespace ScriptMachine.Toml

/-- How a table came about. -/
inductive Origin where
  /-- On the way to the table of a header. -/
  | implied
  /-- By a header of its own. -/
  | opened
  | dotted
deriving DecidableEq, Repr, Inhabited

inductive Node where
  | value (d : Document)
  | table (origin : Origin) (entries : List (String × Node))
  | array (tables : List (List (String × Node)))
deriving Repr, Inhabited

abbrev Entries := List (String × Node)

def alter (name : String) (change : Option Node → Option Node) : Entries → Option Entries
  | [] => do return [(name, ← change none)]
  | (n, node) :: rest =>
    if n = name then do return (n, ← change (some node)) :: rest
    else do return (n, node) :: (← alter name change rest)

/-- Changes what stands at the end of a path. Tables on the way are made if they are missing, and of
an array the table opened last is meant. -/
def alterAt (change : Option Node → Option Node) : (path : List String) → Entries → Option Entries
  | [], _ => none
  | [name], entries => alter name change entries
  | name :: path, entries =>
    alter name (fun node =>
      match node with
      | none => do return .table .implied (← alterAt change path [])
      | some (.table origin inner) => do return .table origin (← alterAt change path inner)
      | some (.array (table :: earlier)) =>
        do return .array ((← alterAt change path table) :: earlier)
      | _ => none) entries

def openTable : Option Node → Option Node
  | none => some (.table .opened [])
  | some (.table .implied entries) => some (.table .opened entries)
  | _ => none

def openInArray : Option Node → Option Node
  | none => some (.array [[]])
  | some (.array tables) => some (.array ([] :: tables))
  | _ => none

/-- Puts a value under a dotted name. A name is given once, and the table that the value goes to
has to be one that dotted names made. The tables before it may also be implied by headers, or be
the last table of an array. -/
def assign (d : Document) : (name : List String) → Entries → Option Entries
  | [], _ => none
  | [name], entries =>
    alter name (fun node => if node.isNone then some (.value d) else none) entries
  | name :: path, entries =>
    let target := path.length = 1
    alter name (fun node =>
      match node with
      | none => do return .table .dotted (← assign d path [])
      | some (.table .dotted inner) => do return .table .dotted (← assign d path inner)
      | some (.table .implied inner) =>
        if target then none else do return .table .implied (← assign d path inner)
      | some (.array (table :: earlier)) =>
        if target then none else do return .array ((← assign d path table) :: earlier)
      | _ => none) entries

def assignAt (d : Document) (name : List String) : (path : List String) → Entries → Option Entries
  | [], entries => assign d name entries
  | step :: path, entries =>
    alter step (fun node =>
      match node with
      | some (.table origin inner) => do return .table origin (← assignAt d name path inner)
      | some (.array (table :: earlier)) =>
        do return .array ((← assignAt d name path table) :: earlier)
      | _ => none) entries

mutual

def Node.toDocument : Node → Document
  | .value d => d
  | .table _ entries => .map (toEntries entries)
  | .array tables => .list (toTables tables).reverse

def toEntries : List (String × Node) → List (Document × Document)
  | [] => []
  | (name, node) :: rest => (.text name, node.toDocument) :: toEntries rest

def toTables : List (List (String × Node)) → List Document
  | [] => []
  | entries :: rest => .map (toEntries entries) :: toTables rest

end

end ScriptMachine.Toml
