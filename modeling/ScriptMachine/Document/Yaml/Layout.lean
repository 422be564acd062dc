import ScriptMachine.Document.Yaml.Scalar
import ScriptMachine.Document.Yaml.Token

/-!
# Layout of YAML files

`Layout.tokens?` turns the characters of a file into tokens. A scalar or a collection is known to
be a name only from the colon behind it; until then its beginning is kept as a candidate, and the
token of the name is put in afterwards. A candidate has to be on one line with its colon.

Anchors, tags, block scalars and directives are refused.
-/

set_option autoImplicit false

namespace ScriptMachine.Yaml

structure Candidate where
  /-- How many tokens stand before it. -/
  position : Nat
  line : Nat
  column : Nat
  required : Bool
deriving Repr, Inhabited

def nameLimit : Nat := 1024

def Candidate.isStale (c : Candidate) (here : Cursor) : Bool :=
  c.line ≠ here.line ∨ c.column + nameLimit < here.column

def Candidate.renew? (here : Cursor) : Option Candidate → Option (Option Candidate)
  | none => some none
  | some c =>
    if c.isStale here then if c.required then none else some none
    else some (some c)

structure Layout where
  here : Cursor
  /-- Columns of the open block collections, the innermost first. -/
  indents : List Nat := []
  nameAllowed : Bool := true
  candidate : Option Candidate := none
  /-- The candidates outside of the open brackets, the innermost first. -/
  outer : List (Option Candidate) := []
  tokens : Array Token := #[]
deriving Repr, Inhabited

namespace Layout

def inFlow (l : Layout) : Bool := !l.outer.isEmpty

def margin (l : Layout) : Nat :=
  match l.indents with
  | [] => 0
  | column :: _ => column + 1

def push (l : Layout) (t : Token) : Layout := { l with tokens := l.tokens.push t }

def take (l : Layout) (count : Nat) (t : Token) : Layout :=
  { l with here := l.here.forward count, tokens := l.tokens.push t }

/-! ## Block collections -/

def closeBlocks (l : Layout) (column : Nat) : Layout :=
  if l.inFlow then l
  else
    let closed := (l.indents.takeWhile fun indent => decide (column < indent)).length
    { l with
      indents := l.indents.drop closed
      tokens := l.tokens ++ Array.replicate closed .blockEnd }

def closeAllBlocks (l : Layout) : Layout :=
  if l.inFlow then l
  else
    { l with
      indents := []
      tokens := l.tokens ++ Array.replicate l.indents.length .blockEnd }

/-- Begins a block collection at a column, unless one is open there. Its token goes to a position.
-/
def openBlock (l : Layout) (column position : Nat) (start : Token) : Layout :=
  if l.inFlow || decide (column < l.margin) then l
  else
    { l with
      indents := column :: l.indents
      tokens := l.tokens.insertIdxIfInBounds position start }

/-! ## Candidates -/

def dropCandidate? (l : Layout) : Option Layout :=
  if l.candidate.any (·.required) then none else some { l with candidate := none }

def saveCandidate? (l : Layout) : Option Layout :=
  if l.nameAllowed then do
    let required := !l.inFlow && l.margin == l.here.column + 1
    let candidate : Candidate := ⟨l.tokens.size, l.here.line, l.here.column, required⟩
    return { (← l.dropCandidate?) with candidate := some candidate }
  else some l

/-! ## Between tokens -/

/-- Skips blanks, comments and line ends. In a block a name may begin on a new line, and before a
name no tab is skipped. -/
def skip (flow nameAllowed comment : Bool) (line column : Nat) : List Char → Bool × Cursor
  | [] => (nameAllowed, ⟨[], line, column⟩)
  | c :: rest =>
    if isBreak c then skip flow (nameAllowed || !flow) false (line + 1) 0 rest
    else if comment || c = '#' then skip flow nameAllowed true line (column + 1) rest
    else if c = ' ' || (c = '\t' && (flow || !nameAllowed)) then
      skip flow nameAllowed false line (column + 1) rest
    else (nameAllowed, ⟨c :: rest, line, column⟩)

/-- Goes on to the next token: candidates that became stale are given up, and block collections that
stand right of the token end. -/
def advance? (l : Layout) : Option Layout := do
  let (nameAllowed, here) :=
    skip l.inFlow l.nameAllowed false l.here.line l.here.column l.here.rest
  let candidate ← Candidate.renew? here l.candidate
  let outer ← l.outer.mapM (Candidate.renew? here)
  return { l with here, nameAllowed, candidate, outer }.closeBlocks here.column

/-! ## Tokens -/

def documentMark? (l : Layout) (t : Token) : Option Layout := do
  return { (← l.closeAllBlocks.dropCandidate?) with nameAllowed := false }.take 3 t

def openFlow? (l : Layout) (t : Token) : Option Layout := do
  let l ← l.saveCandidate?
  return { l with candidate := none, outer := l.candidate :: l.outer, nameAllowed := true }.take 1 t

def closeFlow? (l : Layout) (t : Token) : Option Layout := do
  let l := { (← l.dropCandidate?) with nameAllowed := false }
  match l.outer with
  | [] => return l.take 1 t
  | candidate :: outer => return { l with candidate, outer }.take 1 t

def separator? (l : Layout) : Option Layout := do
  return { (← l.dropCandidate?) with nameAllowed := true }.take 1 .separator

/-- The beginning of an item, a name or a value by its own mark. In a block the mark has to stand
where a name could. -/
def openMarked? (l : Layout) (start : Token) : Option Layout :=
  if l.inFlow then some l
  else if l.nameAllowed then some (l.openBlock l.here.column l.tokens.size start)
  else none

def item? (l : Layout) : Option Layout := do
  let l ← (← l.openMarked? .blockList).dropCandidate?
  return { l with nameAllowed := true }.take 1 .item

def name? (l : Layout) : Option Layout := do
  let l ← (← l.openMarked? .blockMap).dropCandidate?
  return { l with nameAllowed := !l.inFlow }.take 1 .name

/-- A colon. If there is a candidate it is the name, and otherwise the name was marked or is
absent. -/
def value? (l : Layout) : Option Layout :=
  match l.candidate with
  | some c =>
    let tokens := l.tokens.insertIdxIfInBounds c.position .name
    let l := { l with tokens, candidate := none, nameAllowed := false }
    some ((l.openBlock c.column c.position .blockMap).take 1 .value)
  | none => do
    let l ← l.openMarked? .blockMap
    return { l with nameAllowed := !l.inFlow }.take 1 .value

def quotedScalar? (fuel : Nat) (l : Layout) (quote : Char) : Option Layout := do
  let l ← l.saveCandidate?
  let (text, here) ← quoted? quote [] fuel (l.here.forward 1)
  return { l with here, nameAllowed := false }.push (.scalar text true)

def plainScalar? (fuel : Nat) (l : Layout) : Option Layout := do
  let l ← l.saveCandidate?
  let (text, broken, here) ← plain? l.inFlow l.margin [] {} fuel l.here
  return { l with here, nameAllowed := broken }.push (.scalar text false)

/-- Reads the token at the present place. A dash, a question mark and a colon are marks if the word
ends behind them; the latter two are always marks between brackets. A scalar needs fuel of one more
than the number of characters that are left. -/
def token? (fuel : Nat) (l : Layout) : Option Layout :=
  match l.here.rest with
  | [] => none
  | c :: rest =>
    if l.here.atMark "---" then l.documentMark? .documentStart
    else if l.here.atMark "..." then l.documentMark? .documentEnd
    else
      match c with
      | '[' => l.openFlow? .openList
      | '\x7b' => l.openFlow? .openMap
      | ']' => l.closeFlow? .closeList
      | '\x7d' => l.closeFlow? .closeMap
      | ',' => l.separator?
      | '-' => if wordEnds rest then l.item? else l.plainScalar? fuel
      | '?' => if l.inFlow || wordEnds rest then l.name? else l.plainScalar? fuel
      | ':' => if l.inFlow || wordEnds rest then l.value? else l.plainScalar? fuel
      | '"' => l.quotedScalar? fuel '"'
      | '\'' => l.quotedScalar? fuel '\''
      | c => if "\t&*!|>%@\x60".toList.contains c then none else l.plainScalar? fuel

/-- Reads all tokens. Each one consumes a character, so fuel of one more than the length is enough.
-/
def readTokens? : (fuel : Nat) → Layout → Option (List Token)
  | 0, _ => none
  | fuel + 1, l => do
    let l ← l.advance?
    if l.here.rest.isEmpty then return (← l.closeAllBlocks.dropCandidate?).tokens.toList
    else readTokens? fuel (← l.token? (fuel + 1))

/-- The tokens of a file. A byte order mark at its head takes up one column. -/
def tokens? (text : String) : Option (List Token) :=
  if text.toList.all isAdmitted then
    let here : Cursor := match unifyBreaks [] text.toList with
      | '\uFEFF' :: rest => ⟨rest, 0, 1⟩
      | rest => ⟨rest, 0, 0⟩
    readTokens? (here.rest.length + 1) { here }
  else none

end Layout

end ScriptMachine.Yaml
