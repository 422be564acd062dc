import ScriptMachine.Document.Basic
import ScriptMachine.Number.Reading
import ScriptMachine.Text.Digits

/-!
# Unquoted scalars

What a scalar without quotes can be read as. Where a number or a truth value is asked for, the
scalar has to be one; where nothing is asked for, `Unquoted.resolve` tells what it is.
-/

set_option autoImplicit false

namespace ScriptMachine.Unquoted

def isNull (s : String) : Bool := s ∈ ["", "~", "null", "Null", "NULL"]

def bool? (s : String) : Option Bool :=
  if s ∈ ["true", "True", "TRUE"] then some true
  else if s ∈ ["false", "False", "FALSE"] then some false
  else none

/-- Whether only digits follow an idle zero, which makes a text and no number. -/
def idleZeros (s : String) : Bool :=
  match (Reading.sign s.toList).2 with
  | '0' :: c :: rest => (c :: rest).all Char.isDigit
  | _ => false

def magnitude? : List Char → Option Nat
  | '0' :: 'x' :: rest => Text.natural? 16 rest
  | '0' :: 'o' :: rest => Text.natural? 8 rest
  | '0' :: 'b' :: rest => Text.natural? 2 rest
  | cs => Text.natural? 10 cs

def integer? (s : String) : Option Int :=
  if idleZeros s then none
  else
    let (negative, body) := Reading.sign s.toList
    (magnitude? body).map fun n => if negative then -(n : Int) else n

def natural? (s : String) : Option Nat :=
  match s.toList with
  | '-' :: _ => none
  | _ => (integer? s).map Int.toNat

def float? (s : String) : Option Double :=
  if s ∈ [".inf", ".Inf", ".INF", "+.inf", "+.Inf", "+.INF"] then some (Double.infinity false)
  else if s ∈ ["-.inf", "-.Inf", "-.INF"] then some (Double.infinity true)
  else if s ∈ [".nan", ".NaN", ".NAN"] then some Double.undefined.negate
  else (Reading.decimal? s.toList).filter Double.isFinite

/-- A scalar that is no integer word: a double if it can be read as one, else a text. -/
def resolveWide (s : String) : Document :=
  if idleZeros s then .text s
  else
    match float? s with
    | some x => .float x
    | none => .text s

/-- What the scalar is when nothing is asked for. Integers of more than one word and at most two are
neither integers nor doubles. -/
def resolve (s : String) : Document :=
  if isNull s then .null
  else
    match bool? s, integer? s with
    | some b, _ => .bool b
    | none, some i =>
      if -(2 ^ 63) ≤ i ∧ i < 2 ^ 64 then .int i
      else if -(2 ^ 127) ≤ i ∧ i < 2 ^ 128 then .unreadable
      else resolveWide s
    | none, none => resolveWide s

end ScriptMachine.Unquoted
