import ScriptMachine.Document.Basic
import ScriptMachine.Document.Yaml.Layout

/-!
# YAML

Reading YAML files of one document. The tokens of a file are read by descent: a block collection
goes from its beginning to the end of its indentation, a flow collection from bracket to bracket.
What is missing before or after a mark is an absent scalar.
-/

set_option autoImplicit false

namespace ScriptMachine.Yaml

def absent : Document := .unquoted ""

def Token.document? : Token → Option Document
  | .scalar text true => some (.text text)
  | .scalar text false => some (.unquoted text)
  | _ => none

/-- Where a node stands. -/
inductive Place where
  /-- Between brackets, where no block collection can be. -/
  | flow
  | block
  /-- In a block map, where the items of a list need no indentation of their own. -/
  | entry
deriving DecidableEq, Repr, Inhabited

def unlessNext (stops : List Token) (node? : List Token → Option (Document × List Token))
    (tokens : List Token) : Option (Document × List Token) :=
  if tokens.head?.any fun t => stops.contains t then some (absent, tokens) else node? tokens

def afterSeparator? (first : Bool) : List Token → Option (List Token)
  | .separator :: rest => if first then some (.separator :: rest) else some rest
  | tokens => if first then some tokens else none

mutual

def node? : (fuel : Nat) → Place → List Token → Option (Document × List Token)
  | 0, _, _ => none
  | fuel + 1, place, tokens =>
    match place, tokens with
    | .entry, .item :: rest => bareItems? fuel [] (.item :: rest)
    | _, .openList :: rest => flowItems? fuel true [] rest
    | _, .openMap :: rest => flowEntries? fuel true [] rest
    | .flow, .blockList :: _ => none
    | .flow, .blockMap :: _ => none
    | _, .blockList :: rest => items? fuel [] rest
    | _, .blockMap :: rest => entries? fuel [] rest
    | _, t :: rest => t.document?.map (·, rest)
    | _, [] => none

def items? : (fuel : Nat) → List Document → List Token → Option (Document × List Token)
  | 0, _, _ => none
  | fuel + 1, read, tokens =>
    match tokens with
    | .item :: rest => do
      let (d, rest) ← unlessNext [.item, .blockEnd] (node? fuel .block) rest
      items? fuel (d :: read) rest
    | .blockEnd :: rest => some (.list read.reverse, rest)
    | _ => none

def bareItems? : (fuel : Nat) → List Document → List Token → Option (Document × List Token)
  | 0, _, _ => none
  | fuel + 1, read, tokens =>
    match tokens with
    | .item :: rest => do
      let (d, rest) ← unlessNext [.item, .name, .value, .blockEnd] (node? fuel .block) rest
      bareItems? fuel (d :: read) rest
    | tokens => some (.list read.reverse, tokens)

def entries? : (fuel : Nat) → List (Document × Document) → List Token →
    Option (Document × List Token)
  | 0, _, _ => none
  | fuel + 1, read, tokens =>
    match tokens with
    | .name :: rest => do
      let stops := [Token.name, .value, .blockEnd]
      let (name, rest) ← unlessNext stops (node? fuel .entry) rest
      match rest with
      | .value :: rest => do
        let (d, rest) ← unlessNext stops (node? fuel .entry) rest
        entries? fuel ((name, d) :: read) rest
      | rest => entries? fuel ((name, absent) :: read) rest
    | .blockEnd :: rest => some (.map read.reverse, rest)
    | _ => none

/-- The items of a list in brackets. A name with a value is a map of one entry; if nothing stands
after the mark of such a name, the mark that follows is passed over. -/
def flowItems? : (fuel : Nat) → (first : Bool) → List Document → List Token →
    Option (Document × List Token)
  | 0, _, _, _ => none
  | fuel + 1, first, read, tokens =>
    match tokens with
    | .closeList :: rest => some (.list read.reverse, rest)
    | tokens => do
      match ← afterSeparator? first tokens with
      | .closeList :: rest => return (.list read.reverse, rest)
      | .name :: rest => do
        let stops := [Token.value, .separator, .closeList]
        let (name, rest) ←
          if rest.head?.any fun t => stops.contains t then some (absent, rest.tail)
          else node? fuel .flow rest
        let (d, rest) ← match rest with
          | .value :: rest => unlessNext [.separator, .closeList] (node? fuel .flow) rest
          | rest => some (absent, rest)
        flowItems? fuel false (.map [(name, d)] :: read) rest
      | tokens => do
        let (d, rest) ← node? fuel .flow tokens
        flowItems? fuel false (d :: read) rest

/-- The entries of a map in braces. A node without a mark is a name without a value. -/
def flowEntries? : (fuel : Nat) → (first : Bool) → List (Document × Document) → List Token →
    Option (Document × List Token)
  | 0, _, _, _ => none
  | fuel + 1, first, read, tokens =>
    match tokens with
    | .closeMap :: rest => some (.map read.reverse, rest)
    | tokens => do
      match ← afterSeparator? first tokens with
      | .closeMap :: rest => return (.map read.reverse, rest)
      | .name :: rest => do
        let stops := [Token.value, .separator, .closeMap]
        let (name, rest) ← unlessNext stops (node? fuel .flow) rest
        let (d, rest) ← match rest with
          | .value :: rest => unlessNext [.separator, .closeMap] (node? fuel .flow) rest
          | rest => some (absent, rest)
        flowEntries? fuel false ((name, d) :: read) rest
      | tokens => do
        let (name, rest) ← node? fuel .flow tokens
        flowEntries? fuel false ((name, absent) :: read) rest

end

/-- The only document of a file. Three dashes may stand before it and any number of lines of three
points after it. A file without a document is an empty map. -/
def ofTokens? (tokens : List Token) : Option Document := do
  let node? := node? (2 * tokens.length + 2) .block
  let (document, rest) ← match tokens with
    | [] => some (.map [], [])
    | [.documentStart] => some (absent, [])
    | .documentStart :: rest => unlessNext [.documentStart, .documentEnd] node? rest
    | tokens => node? tokens
  if rest.all (· = .documentEnd) then return document else none

def parse? (text : String) : Option Document := (Layout.tokens? text).bind ofTokens?

end ScriptMachine.Yaml
