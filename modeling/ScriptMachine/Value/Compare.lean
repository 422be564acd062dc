import ScriptMachine.Value.Convert

/-!
# Comparing values

`Value.order` ranks all values: by kind first, and within a kind by content, with integers and
doubles on one scale. `Value.same` is equality of content, which converts only if one side is
marked as convertible. `Comparison.holds` is what the comparison instructions compute.
-/

set_option autoImplicit false

namespace ScriptMachine

namespace Value

def rank (v : Value) : Nat :=
  match v.content with
  | .disposed => 0
  | .null => 1
  | .bool _ => 2
  | .enum _ => 3
  | .int _ | .float _ => 4
  | .str _ => 5
  | .owned _ | .pointer _ => 6

/-- Total order on values; flags do not count. -/
def order (a b : Value) : Ordering :=
  match a.content, b.content with
  | .int x, .int y => compare x.toInt y.toInt
  | .float x, .float y => x.order y
  | .int x, .float y => (Double.ofInt x.toInt).order y
  | .float x, .int y => x.order (Double.ofInt y.toInt)
  | .str x, .str y => compare x y
  | .bool x, .bool y => compare x.toNat y.toNat
  | .enum x, .enum y => compare x.toInt y.toInt
  | .owned x, .owned y | .owned x, .pointer y | .pointer x, .owned y | .pointer x, .pointer y =>
    x.order y
  | _, _ => compare a.rank b.rank

/-- Equality after converting: conditions if one side is a boolean, numbers if a text meets a
number. -/
def convertedSame (a b : Value) : Bool :=
  let asConditions : Bool :=
    match a.share.withAuto.asBool, b.share.withAuto.asBool with
    | .ok x, .ok y => x == y
    | _, _ => false
  let asNumbers : Bool :=
    match a.share.withAuto.asNumber, b.share.withAuto.asNumber with
    | .ok x, .ok y => x.toDouble.numericEq y.toDouble
    | _, _ => false
  match a.content, b.content with
  | .bool _, _ | _, .bool _ => asConditions
  | .str _, .int _ | .str _, .float _ | .int _, .str _ | .float _, .str _ => asNumbers
  | _, _ => false

def same (a b : Value) : Bool :=
  match a.content, b.content with
  | .null, .null => true
  | .int x, .int y => x == y
  | .float x, .float y => x.numericEq y
  | .int x, .float y => (Double.ofInt x.toInt).numericEq y
  | .float x, .int y => (Double.ofInt y.toInt).numericEq x
  | .str x, .str y => x == y
  | .bool x, .bool y => x == y
  | .enum x, .enum y => x == y
  | .owned x, .owned y | .owned x, .pointer y | .pointer x, .owned y | .pointer x, .pointer y =>
    x == y
  | _, _ => if a.auto || b.auto then a.convertedSame b else false

end Value

inductive Comparison where
  | eq | ne | lt | le | gt | ge
deriving DecidableEq, Repr, Inhabited

namespace Comparison

def accepts : Comparison → Ordering → Bool
  | eq, o => o == .eq
  | ne, o => o != .eq
  | lt, o => o == .lt
  | le, o => o != .gt
  | gt, o => o == .gt
  | ge, o => o != .lt

def mixed (a b : Value) : Bool :=
  match a.content, b.content with
  | .str _, .int _ | .str _, .float _ | .int _, .str _ | .float _, .str _ => true
  | _, _ => false

/-- Order that a comparison looks at: a text and a number are compared as numbers if one of them is
marked as convertible and both can be read as numbers. -/
def orderOf (a b : Value) : Ordering :=
  if (a.auto || b.auto) && mixed a b then
    match a.share.withAuto.asNumber, b.share.withAuto.asNumber with
    | .ok x, .ok y => x.toDouble.order y.toDouble
    | _, _ => a.order b
  else a.order b

def holds (op : Comparison) (a b : Value) : Bool :=
  match op with
  | eq => a.same b
  | ne => !a.same b
  | op => op.accepts (orderOf a b)

end Comparison

end ScriptMachine
