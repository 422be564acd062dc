import ScriptMachine.Document.Basic
import ScriptMachine.Number.Arithmetic
import ScriptMachine.Number.Reading
import ScriptMachine.Text.Digits

/-!
# Reading JSON

`Json.parse?` reads one JSON text. What is well-formed but has no value, such as a number out of
range or half of a surrogate pair, is read as unreadable: it only matters if it is asked for.

Decimals are read in two steps: the leading digits that fit an unsigned word make a double, which
is then scaled by one power of ten. Both steps round, so a long decimal may be one unit off the
nearest double.
-/

set_option autoImplicit false

namespace ScriptMachine.Json

def isSpace (c : Char) : Bool := c = ' ' ∨ c = '\n' ∨ c = '\t' ∨ c = '\r'

def skipSpaces (cs : List Char) : List Char := cs.dropWhile isSpace

/-! ## Texts -/

def simpleEscape? : Char → Option Char
  | '"' => some '"'
  | '\\' => some '\\'
  | '/' => some '/'
  | 'b' => some (Char.ofNat 8)
  | 'f' => some (Char.ofNat 12)
  | 'n' => some '\n'
  | 'r' => some '\r'
  | 't' => some '\t'
  | _ => none

/-- The codes of a text after its opening quote, and what follows the text. An escaped code may be
half of a surrogate pair. `read` holds the codes so far, last one first. -/
def codes? (read : List Nat) : List Char → Option (List Nat × List Char)
  | '"' :: rest => some (read.reverse, rest)
  | '\\' :: 'u' :: a :: b :: c :: d :: rest =>
    match Text.natural? 16 [a, b, c, d] with
    | some unit => codes? (unit :: read) rest
    | none => none
  | '\\' :: e :: rest =>
    match simpleEscape? e with
    | some c => codes? (c.toNat :: read) rest
    | none => none
  | c :: rest => if c.toNat < 32 then none else codes? (c.toNat :: read) rest
  | [] => none

def isHighSurrogate (code : Nat) : Bool := 0xD800 ≤ code ∧ code ≤ 0xDBFF

def isLowSurrogate (code : Nat) : Bool := 0xDC00 ≤ code ∧ code ≤ 0xDFFF

/-- The characters of codes, if every surrogate has its other half. `read` holds the characters so
far, last one first. -/
def characters? (read : List Char) : List Nat → Option (List Char)
  | [] => some read.reverse
  | [code] =>
    if isHighSurrogate code || isLowSurrogate code then none
    else some (Char.ofNat code :: read).reverse
  | code :: next :: rest =>
    if isHighSurrogate code && isLowSurrogate next then
      let joined := 0x10000 + (code - 0xD800) * 0x400 + (next - 0xDC00)
      characters? (Char.ofNat joined :: read) rest
    else if isHighSurrogate code || isLowSurrogate code then none
    else characters? (Char.ofNat code :: read) (next :: rest)

def text? (cs : List Char) : Option (Document × List Char) :=
  (codes? [] cs).map fun (codes, rest) =>
    match characters? [] codes with
    | some characters => (.text (String.ofList characters), rest)
    | none => (.unreadable, rest)

/-! ## Numbers -/

def significandLimit : Nat := 2 ^ 64 - 1

/-- Takes digits into a significand while they fit; answers the significand, how many digits were
taken, and the digits left out. -/
def takeDigits (significand taken : Nat) : List Char → Nat × Nat × List Char
  | [] => (significand, taken, [])
  | c :: rest =>
    let next := significand * 10 + Reading.digitValue c
    if next ≤ significandLimit then takeDigits next (taken + 1) rest
    else (significand, taken, c :: rest)

def powerOfTen (n : Nat) : Double := Double.ofRatio false (10 ^ n) 1

def scale (x : Double) (exponent : Int) : Nat → Double
  | 0 => x
  | steps + 1 =>
    if exponent.natAbs ≤ 308 then
      if 0 ≤ exponent then x.mul (powerOfTen exponent.toNat)
      else x.div (powerOfTen (-exponent).toNat)
    else if x.isZero then x
    else if 0 ≤ exponent then Double.infinity false
    else scale (x.div (powerOfTen 308)) (exponent + 308) steps

/-- The double that a decimal is read as. Three downward steps make any significand zero. -/
def decimal (negative : Bool) (significand : Nat) (exponent : Int) : Double :=
  let x := scale (Double.ofInt significand) exponent 4
  if negative then x.negate else x

/-- A number without fraction and exponent: an integer if it fits a signed or an unsigned word. -/
def integerDocument (negative : Bool) (digits : List Char) : Document :=
  let n := Reading.natural digits
  if negative then
    if n ≠ 0 ∧ n ≤ 2 ^ 63 then .int (-n)
    else finite (decimalOf digits)
  else if n ≤ significandLimit then .int n
  else finite (decimalOf digits)
where
  decimalOf (digits : List Char) : Double :=
    let (significand, _, left) := takeDigits 0 0 digits
    decimal negative significand left.length
  finite (x : Double) : Document := if x.isFinite then .float x else .unreadable

def decimalDocument (negative : Bool) (whole fraction : List Char) (exponent : Int) : Document :=
  let (significand, _, left) := takeDigits 0 0 whole
  let (significand, taken, _) := takeDigits significand 0 fraction
  let x := decimal negative significand (exponent + left.length - taken)
  if x.isFinite then .float x else .unreadable

def wholePart? (cs : List Char) : Option (List Char × List Char) :=
  match Reading.digits cs with
  | ([], _) => none
  | (['0'], rest) => some (['0'], rest)
  | ('0' :: _, _) => none
  | (ds, rest) => some (ds, rest)

def fractionPart? : List Char → Option (List Char × List Char)
  | '.' :: rest =>
    match Reading.digits rest with
    | ([], _) => none
    | (ds, rest) => some (ds, rest)
  | rest => some ([], rest)

def exponentPart? : List Char → Option (Option Int × List Char)
  | c :: rest =>
    if c = 'e' ∨ c = 'E' then
      let (negative, body) := Reading.sign rest
      match Reading.digits body with
      | ([], _) => none
      | (ds, rest) =>
        let n : Int := Reading.natural ds
        some (some (if negative then -n else n), rest)
    else some (none, c :: rest)
  | [] => some (none, [])

def number? (cs : List Char) : Option (Document × List Char) := do
  let (negative, body) := match cs with
    | '-' :: rest => (true, rest)
    | rest => (false, rest)
  let (whole, rest) ← wholePart? body
  let (fraction, rest) ← fractionPart? rest
  let (exponent, rest) ← exponentPart? rest
  if fraction.isEmpty && exponent.isNone then
    return (integerDocument negative whole, rest)
  else
    return (decimalDocument negative whole fraction (exponent.getD 0), rest)

/-! ## Values -/

def word? (w : List Char) (cs : List Char) : Option (List Char) :=
  if w.isPrefixOf cs then some (cs.drop w.length) else none

mutual

/-- One value. Every call consumes a character or hands the text on once, so fuel of twice the
length of the text is enough. -/
def value? : (fuel : Nat) → List Char → Option (Document × List Char)
  | 0, _ => none
  | fuel + 1, cs =>
    match skipSpaces cs with
    | 'n' :: rest => (word? "ull".toList rest).map (Document.null, ·)
    | 't' :: rest => (word? "rue".toList rest).map (Document.bool true, ·)
    | 'f' :: rest => (word? "alse".toList rest).map (Document.bool false, ·)
    | '"' :: rest => text? rest
    | '[' :: rest =>
      match skipSpaces rest with
      | ']' :: rest => some (.list [], rest)
      | rest => items? fuel [] rest
    | '\x7b' :: rest =>
      match skipSpaces rest with
      | '\x7d' :: rest => some (.map [], rest)
      | rest => entries? fuel [] rest
    | rest => number? rest

def items? : (fuel : Nat) → List Document → List Char → Option (Document × List Char)
  | 0, _, _ => none
  | fuel + 1, read, cs => do
    let (item, rest) ← value? fuel cs
    match skipSpaces rest with
    | ',' :: rest => items? fuel (item :: read) rest
    | ']' :: rest => return (.list (item :: read).reverse, rest)
    | _ => none

def entries? : (fuel : Nat) → List (Document × Document) → List Char →
    Option (Document × List Char)
  | 0, _, _ => none
  | fuel + 1, read, cs =>
    match skipSpaces cs with
    | '"' :: rest => do
      let (name, rest) ← text? rest
      match skipSpaces rest with
      | ':' :: rest => do
        let (item, rest) ← value? fuel rest
        let read := (name, item) :: read
        match skipSpaces rest with
        | ',' :: rest => entries? fuel read rest
        | '\x7d' :: rest => return (.map read.reverse, rest)
        | _ => none
      | _ => none
    | _ => none

end

def parse? (text : String) : Option Document := do
  let cs := text.toList
  let (document, rest) ← value? (2 * cs.length + 2) cs
  if (skipSpaces rest).isEmpty then return document else none

end ScriptMachine.Json
