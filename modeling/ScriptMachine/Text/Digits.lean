/-!
# Digits in a base

Numbers and characters written as digits of some base up to sixteen.
-/

set_option autoImplicit false

namespace ScriptMachine.Text

def digitValue? (base : Nat) (c : Char) : Option Nat :=
  let value :=
    if c.isDigit then some (c.toNat - '0'.toNat)
    else if 'a' ≤ c ∧ c ≤ 'f' then some (c.toNat - 'a'.toNat + 10)
    else if 'A' ≤ c ∧ c ≤ 'F' then some (c.toNat - 'A'.toNat + 10)
    else none
  value.filter (· < base)

def natural? (base : Nat) (digits : List Char) : Option Nat :=
  if digits.isEmpty then none
  else digits.foldl (fun acc c => do return (← acc) * base + (← digitValue? base c)) (some 0)

/-- The character whose number is a fixed count of hexadecimal digits at the head of the text, and
what follows them. Surrogates are no characters. -/
def codePoint? (count : Nat) (cs : List Char) : Option (Char × List Char) := do
  if cs.length < count then none
  let n ← natural? 16 (cs.take count)
  if n < 0xD800 ∨ (0xE000 ≤ n ∧ n < 0x110000) then return (Char.ofNat n, cs.drop count) else none

end ScriptMachine.Text
