/-!
# Signed words

Integers of the machine are 64-bit words. Results are computed as exact integers and become a word
only when they fit.
-/

set_option autoImplicit false

-- `2 ^ 63` is a power of the core library, also where algebra brings powers of its own
attribute [default_instance 20000, instance (2000)] instPowNat

namespace ScriptMachine.Word

/-- Whether an exact integer is a 64-bit signed word. -/
def fits (i : Int) : Bool := decide (-(2 ^ 63) ≤ i ∧ i < 2 ^ 63)

def ofInt? (i : Int) : Option Int64 := if fits i then some (Int64.ofInt i) else none

def toCount (w : Int64) : Nat := w.toInt.toNat

end ScriptMachine.Word
