import ScriptMachine.Document.Yaml.Cursor
import ScriptMachine.Text.Digits

/-!
# Scalars of YAML

Plain, single-quoted and double-quoted scalars. A scalar is a row of words with gaps in between; a
gap without a line end is kept, and one with line ends is folded.
-/

set_option autoImplicit false

namespace ScriptMachine.Yaml

/-! ## Gaps -/

structure Gap where
  /-- Blanks before the first line end, last one first. -/
  blanks : List Char := []
  breaks : List Char := []
  /-- Whether the gap begins with an escaped line end, which stands for nothing. -/
  escaped : Bool := false
deriving Repr, Inhabited

namespace Gap

def isBroken (g : Gap) : Bool := g.escaped || !g.breaks.isEmpty

def text (g : Gap) : List Char :=
  if g.isBroken then
    match g.escaped, g.breaks.reverse with
    | false, ['\n'] => [' ']
    | false, '\n' :: more => more
    | _, breaks => breaks
  else g.blanks.reverse

def read? (margin : Nat) (g : Gap) (line column : Nat) : List Char → Option (Gap × Cursor)
  | [] => some (g, ⟨[], line, column⟩)
  | c :: rest =>
    if isBreak c then read? margin { g with breaks := c :: g.breaks } (line + 1) 0 rest
    else if isBlank c then
      if g.isBroken then
        if c = '\t' ∧ column < margin then none else read? margin g line (column + 1) rest
      else read? margin { g with blanks := c :: g.blanks } line (column + 1) rest
    else some (g, ⟨c :: rest, line, column⟩)

def at? (margin : Nat) (here : Cursor) : Option (Gap × Cursor) :=
  read? margin {} here.line here.column here.rest

end Gap

/-! ## Plain scalars -/

def isFlowMark (c : Char) : Bool := ",[]\x7b\x7d".toList.contains c

/-- A word of a plain scalar, last character first, and the place after it. A colon belongs to the
word unless the word ends there; between brackets it may not stand before another mark. -/
def plainWord? (flow : Bool) (word : List Char) (line column : Nat) :
    List Char → Option (List Char × Cursor)
  | [] => some (word, ⟨[], line, column⟩)
  | c :: rest =>
    if flow && c = ':' && rest.head?.any (fun d => isFlowMark d || d = '?') then none
    else if wordEnds [c] || (c = ':' && wordEnds rest) || (flow && isFlowMark c) then
      some (word, ⟨c :: rest, line, column⟩)
    else plainWord? flow (c :: word) line (column + 1) rest

/-- A plain scalar: the text, whether a line end follows it, and the place after it and its gap.
Outside of brackets a line left of the margin does not continue it. `read` is what was read so far,
last character first, and `gap` what follows it. -/
def plain? (flow : Bool) (margin : Nat) (read : List Char) (gap : Gap) :
    (fuel : Nat) → Cursor → Option (String × Bool × Cursor)
  | 0, _ => none
  | fuel + 1, here =>
    let complete (here : Cursor) := some (String.ofList read.reverse, gap.isBroken, here)
    if here.atDocumentMark || here.rest.head? = some '#'
        || (!flow && gap.isBroken && decide (here.column < margin)) then complete here
    else do
      let (word, here) ← plainWord? flow [] here.line here.column here.rest
      if word.isEmpty then complete here
      else
        let read := word ++ gap.text.reverse ++ read
        let (gap, here) ← Gap.at? margin here
        plain? flow margin read gap fuel here

/-! ## Quoted scalars -/

def simpleEscape? : Char → Option Char
  | '0' => some (Char.ofNat 0)
  | 'a' => some (Char.ofNat 7)
  | 'b' => some (Char.ofNat 8)
  | 't' => some '\t'
  | '\t' => some '\t'
  | 'n' => some '\n'
  | 'v' => some (Char.ofNat 11)
  | 'f' => some (Char.ofNat 12)
  | 'r' => some '\r'
  | 'e' => some (Char.ofNat 27)
  | ' ' => some ' '
  | '"' => some '"'
  | '/' => some '/'
  | '\\' => some '\\'
  | 'N' => some (Char.ofNat 0x85)
  | '_' => some (Char.ofNat 0xA0)
  | 'L' => some (Char.ofNat 0x2028)
  | 'P' => some (Char.ofNat 0x2029)
  | _ => none

def numberedEscape? : Char → Option Nat
  | 'x' => some 2
  | 'u' => some 4
  | 'U' => some 8
  | _ => none

def escape? : List Char → Option (Char × Nat)
  | [] => none
  | e :: rest =>
    match numberedEscape? e with
    | some count => (Text.codePoint? count rest).map fun (c, _) => (c, count + 1)
    | none => (simpleEscape? e).map (·, 1)

/-- A quoted scalar after its opening quote, and the place after the closing one. A single quote is
doubled between single quotes, and a backslash escapes between double ones. -/
def quoted? (quote : Char) (read : List Char) : (fuel : Nat) → Cursor → Option (String × Cursor)
  | 0, _ => none
  | fuel + 1, here =>
    if here.atDocumentMark then none
    else
      match here.rest with
      | [] => none
      | c :: rest =>
        if wordEnds [c] then do
          let (gap, here) ← Gap.at? 0 here
          quoted? quote (gap.text.reverse ++ read) fuel here
        else if c = quote then
          if quote = '\'' ∧ rest.head? = some '\'' then
            quoted? quote ('\'' :: read) fuel (here.forward 2)
          else some (String.ofList read.reverse, here.forward 1)
        else if quote = '"' ∧ c = '\\' then
          match rest with
          | [] => none
          | e :: after =>
            if isBreak e then do
              let (gap, here) ← Gap.read? 0 { escaped := true } (here.line + 1) 0 after
              quoted? quote (gap.text.reverse ++ read) fuel here
            else do
              let (c, length) ← escape? rest
              quoted? quote (c :: read) fuel (here.forward (length + 1))
        else quoted? quote (c :: read) fuel (here.forward 1)

end ScriptMachine.Yaml
