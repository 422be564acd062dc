import ScriptMachine.Document.Basic
import ScriptMachine.Number.Reading
import ScriptMachine.Text.Digits

/-!
# Words of TOML

Blanks, comments, texts, names, numbers and truth values. Every reader takes the characters from
where the word begins and answers what it read and the characters after it.
-/

set_option autoImplicit false

namespace ScriptMachine.Toml

/-! ## Blanks and line ends -/

def isSpace (c : Char) : Bool := c = ' ' ∨ c = '\t'

def dropSpaces (cs : List Char) : List Char := cs.dropWhile isSpace

/-- Whether a character may stand in a comment or a text as it is. A tab is the only control
character that may. -/
def isVisible (c : Char) : Bool := c = '\t' ∨ (32 ≤ c.toNat ∧ c.toNat ≠ 127)

def dropComment : List Char → List Char
  | '#' :: rest => rest.dropWhile isVisible
  | cs => cs

/-- The text after a line feed, which a carriage return may precede. -/
def newline? : List Char → Option (List Char)
  | '\n' :: rest => some rest
  | '\r' :: '\n' :: rest => some rest
  | _ => none

/-- The text after the end of a line, which blanks and a comment may precede. -/
def lineEnd? (cs : List Char) : Option (List Char) :=
  match dropComment (dropSpaces cs) with
  | [] => some []
  | rest => newline? rest

def dropBlanks : (fuel : Nat) → List Char → List Char
  | 0, cs => cs
  | fuel + 1, cs =>
    let rest := dropComment (dropSpaces cs)
    match newline? rest with
    | some rest => dropBlanks fuel rest
    | none => rest

def skipBlanks (cs : List Char) : List Char := dropBlanks (cs.length + 1) cs

/-! ## Texts -/

def simpleEscape? : Char → Option Char
  | '"' => some '"'
  | '\\' => some '\\'
  | 'b' => some (Char.ofNat 8)
  | 'e' => some (Char.ofNat 27)
  | 'f' => some (Char.ofNat 12)
  | 'n' => some '\n'
  | 'r' => some '\r'
  | 't' => some '\t'
  | _ => none

def escape? : List Char → Option (Char × List Char)
  | 'x' :: rest => Text.codePoint? 2 rest
  | 'u' :: rest => Text.codePoint? 4 rest
  | 'U' :: rest => Text.codePoint? 8 rest
  | e :: rest => (simpleEscape? e).map (·, rest)
  | [] => none

def basicText? (read : List Char) : (fuel : Nat) → List Char → Option (String × List Char)
  | 0, _ => none
  | fuel + 1, cs =>
    match cs with
    | '"' :: rest => some (String.ofList read.reverse, rest)
    | '\\' :: rest => do
      let (c, rest) ← escape? rest
      basicText? (c :: read) fuel rest
    | c :: rest => if isVisible c then basicText? (c :: read) fuel rest else none
    | [] => none

/-- A text between single quotes after the opening one, and what follows it. Nothing is escaped. -/
def literalText? (read : List Char) : List Char → Option (String × List Char)
  | '\'' :: rest => some (String.ofList read.reverse, rest)
  | c :: rest => if isVisible c then literalText? (c :: read) rest else none
  | [] => none

def text? : List Char → Option (String × List Char)
  | '"' :: rest => basicText? [] (rest.length + 1) rest
  | '\'' :: rest => literalText? [] rest
  | _ => none

/-! ## Names -/

def isNameChar (c : Char) : Bool := c.isAlphanum || c = '_' || c = '-'

def namePart? (cs : List Char) : Option (String × List Char) :=
  match text? cs with
  | some found => some found
  | none =>
    let part := cs.takeWhile isNameChar
    if part.isEmpty then none else some (String.ofList part, cs.dropWhile isNameChar)

def dottedName? : (fuel : Nat) → List Char → Option (List String × List Char)
  | 0, _ => none
  | fuel + 1, cs => do
    let (part, rest) ← namePart? (dropSpaces cs)
    match dropSpaces rest with
    | '.' :: rest =>
      let (parts, rest) ← dottedName? fuel rest
      return (part :: parts, rest)
    | rest => return ([part], rest)

/-- How many parts a name may have, and how deep values may be nested. -/
def nestingLimit : Nat := 80

def name? (cs : List Char) : Option (List String × List Char) :=
  (dottedName? (cs.length + 1) cs).filter fun (parts, _) => parts.length ≤ nestingLimit

/-! ## Numbers -/

def ungrouped? (isDigit : Char → Bool) : (afterDigit : Bool) → List Char → Option (List Char)
  | true, [] => some []
  | false, [] => none
  | afterDigit, c :: rest =>
    if isDigit c then (ungrouped? isDigit true rest).map (c :: ·)
    else if c = '_' ∧ afterDigit then ungrouped? isDigit false rest
    else none

def decimalDigits? (cs : List Char) : Option (List Char) := do
  match ← ungrouped? Char.isDigit false cs with
  | '0' :: _ :: _ => none
  | ds => return ds

def integer? (cs : List Char) : Option Int :=
  match cs with
  | '0' :: 'x' :: rest => based 16 rest
  | '0' :: 'o' :: rest => based 8 rest
  | '0' :: 'b' :: rest => based 2 rest
  | cs => do
    let (negative, body) := Reading.sign cs
    let n : Int := Reading.natural (← decimalDigits? body)
    return if negative then -n else n
where
  based (base : Nat) (cs : List Char) : Option Int := do
    let ds ← ungrouped? (fun c => (Text.digitValue? base c).isSome) false cs
    (Text.natural? base ds).map Int.ofNat

def decimal? (cs : List Char) : Option Double := do
  let (negative, body) := Reading.sign cs
  let whole := body.takeWhile fun c => c.isDigit || c = '_'
  let rest := body.drop whole.length
  let ds ← decimalDigits? whole
  let (fraction, rest) ← match rest with
    | '.' :: rest => do
      let part := rest.takeWhile fun c => c.isDigit || c = '_'
      pure (← ungrouped? Char.isDigit false part, rest.drop part.length)
    | rest => pure ([], rest)
  let exponent ← match rest with
    | [] => if fraction.isEmpty then none else pure 0
    | c :: rest =>
      if c = 'e' ∨ c = 'E' then do
        let (negative, body) := Reading.sign rest
        let n : Int := Reading.natural (← ungrouped? Char.isDigit false body)
        pure (if negative then -n else n)
      else none
  let digits := Reading.natural (ds ++ fraction)
  return Reading.nearestDecimal negative digits (exponent - fraction.length)

/-- An integer is a signed or an unsigned word. One of two words is unreadable, and a longer one
makes the file malformed. -/
def integerDocument? (i : Int) : Option Document :=
  if -(2 ^ 63) ≤ i ∧ i < 2 ^ 64 then some (.int i)
  else if -(2 ^ 127) ≤ i ∧ i < 2 ^ 128 then some .unreadable
  else none

def scalar? (cs : List Char) : Option Document :=
  match String.ofList cs with
  | "true" => some (.bool true)
  | "false" => some (.bool false)
  | "inf" | "+inf" => some (.float (Double.infinity false))
  | "-inf" => some (.float (Double.infinity true))
  | "nan" | "+nan" => some (.float Double.undefined.negate)
  | "-nan" => some (.float Double.undefined)
  | _ =>
    match integer? cs with
    | some i => integerDocument? i
    | none => (decimal? cs).bind fun x => if x.isFinite then some (.float x) else none

/-- Whether a character can be part of a number or a truth value. -/
def isScalarChar (c : Char) : Bool := c.isAlphanum || "+-_.".toList.contains c

end ScriptMachine.Toml
