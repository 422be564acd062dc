import ScriptMachine.Value.Error

/-!
# Structure keys

A key is the normal form of a value that addresses an entry. Doubles equal to a word become that
integer, so `1` and `1.0` address the same entry. Keys are linearly ordered: booleans, numbers,
texts, references.
-/

set_option autoImplicit false

namespace ScriptMachine

/-- A normalised structure key. -/
inductive Key where
  | bool (b : Bool)
  | int (v : Int64)
  /-- A finite double that is equal to no word. -/
  | float (x : Double)
  | str (s : String)
  | ref (ref : HeapRef)
deriving DecidableEq, Repr, Inhabited

namespace Key

/-- The key a value stands for. `null`, disposed values, the empty text and doubles that are not
finite can never be keys. -/
def ofValue (v : Value) : Except Error Key :=
  match v.content with
  | .int i | .enum i => .ok (.int i)
  | .float x =>
    match x.word? with
    | some i => .ok (.int i)
    | none =>
      if x.isFinite then .ok (.float x) else .error (.ofFault (.incompatibleKey v.text))
  | .str s => if s = "" then .error (.ofFault (.incompatibleKey "\"\"")) else .ok (.str s)
  | .bool b => .ok (.bool b)
  | .owned r | .pointer r => .ok (.ref r)
  | .null | .disposed => .error (.ofFault (.incompatibleKey v.text))

def toValue : Key → Value
  | .bool b => .bool b
  | .int v => .int v
  | .float x => .float x
  | .str s => .str s
  | .ref r => .pointer r

def int? : Key → Option Int64
  | .int v => some v
  | _ => none

def str? : Key → Option String
  | .str s => some s
  | _ => none

def rank : Key → Nat
  | .bool _ => 0
  | .int _ | .float _ => 1
  | .str _ => 2
  | .ref _ => 3

/-- Linear order on keys. An integer and a double are never equal: the double is no word. -/
def order : Key → Key → Ordering
  | .bool a, .bool b => compare a.toNat b.toNat
  | .int a, .int b => compare a.toInt b.toInt
  | .float a, .float b => a.order b
  | .int a, .float b => ((Double.ofInt a.toInt).order b).then .lt
  | .float a, .int b => (a.order (Double.ofInt b.toInt)).then .gt
  | .str a, .str b => compare a b
  | .ref a, .ref b => a.order b
  | a, b => compare a.rank b.rank

instance : Ord Key := ⟨order⟩

def text : Key → String
  | .bool b => if b then "true" else "false"
  | .int v => toString v.toInt
  | .float x => x.text
  | .str s => s
  | .ref r => "<" ++ r.kind.name ++ " @" ++ toString r.handle.index ++ ">"

end Key

end ScriptMachine
