import ScriptMachine.Number.Rounding
import ScriptMachine.Number.Word
import ScriptMachine.Text.Blank

/-!
# Reading numbers

`Number.read?` reads a number out of free text: blanks at both ends are skipped, an integer that
fits a word is an integer, and any other decimal is read as the nearest finite double.
-/

set_option autoImplicit false

namespace ScriptMachine

inductive Number where
  | int (v : Int64)
  | float (x : Double)
deriving DecidableEq, Repr, Inhabited

def Number.toDouble : Number → Double
  | .int v => Double.ofInt v.toInt
  | .float x => x

namespace Reading

def sign : List Char → Bool × List Char
  | '-' :: rest => (true, rest)
  | '+' :: rest => (false, rest)
  | rest => (false, rest)

def digitValue (c : Char) : Nat := c.toNat - '0'.toNat

def natural (digits : List Char) : Nat := digits.foldl (fun n c => n * 10 + digitValue c) 0

def digits (cs : List Char) : List Char × List Char :=
  (cs.takeWhile Char.isDigit, cs.dropWhile Char.isDigit)

def integer? (cs : List Char) : Option Int :=
  let (negative, body) := sign cs
  if body.isEmpty || !body.all Char.isDigit then none
  else
    let n : Int := natural body
    some (if negative then -n else n)

def exponent? : List Char → Option Int
  | [] => some 0
  | c :: rest => if c = 'e' ∨ c = 'E' then integer? rest else none

/-- The double nearest to `digits * 10 ^ exponent`. Exponents far outside the range of doubles are
settled without forming the power. -/
def nearestDecimal (negative : Bool) (digits : Nat) (exponent : Int) : Double :=
  let leading : Int := (Nat.toDigits 10 digits).length + exponent
  if digits = 0 ∨ leading < -400 then Double.zero negative
  else if 400 < leading then Double.infinity negative
  else if 0 ≤ exponent then Double.ofRatio negative (digits * 10 ^ exponent.toNat) 1
  else Double.ofRatio negative digits (10 ^ (-exponent).toNat)

/-- A decimal with optional sign, point and exponent, and at least one digit beside the point. -/
def decimal? (cs : List Char) : Option Double :=
  let (negative, body) := sign cs
  let (whole, afterWhole) := digits body
  let (fraction, afterFraction) :=
    match afterWhole with
    | '.' :: rest => digits rest
    | rest => ([], rest)
  if whole.isEmpty && fraction.isEmpty then none
  else do
    let exponent ← exponent? afterFraction
    return nearestDecimal negative (natural (whole ++ fraction)) (exponent - fraction.length)

end Reading

/-- Reads a number out of free text: an integer first, then a finite double. -/
def Number.read? (s : String) : Option Number :=
  let cs := Text.trimBlanks s.toList
  match (Reading.integer? cs).bind Word.ofInt? with
  | some v => some (.int v)
  | none =>
    match Reading.decimal? cs with
    | some x => if x.isFinite then some (.float x) else none
    | none => none

def Double.word? (x : Double) : Option Int64 := x.integer?.bind Word.ofInt?

end ScriptMachine
