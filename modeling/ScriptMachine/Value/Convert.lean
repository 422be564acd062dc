import ScriptMachine.Value.Error

/-!
# Reading values as numbers, texts and conditions

An accessor answers the content of its own kind. Content of another kind is converted only if the
value is marked as convertible, and only without loss.
-/

set_option autoImplicit false

namespace ScriptMachine.Value

def auto (v : Value) : Bool := v.flags.auto

private def cannotConvert {α : Type} (shown target : String) : Except Error α :=
  .error (.typeMismatch ("cannot convert " ++ shown ++ " to " ++ target))

private def inQuotes (s : String) : String := "'" ++ s ++ "'"

def asInt (v : Value) : Except Error Int64 :=
  match v.content, v.auto with
  | .int i, _ => .ok i
  | .float x, true =>
    match x.word? with
    | some i => .ok i
    | none => cannotConvert (Double.spelledOut.text x) "int without loss"
  | .bool b, true => .ok (if b then 1 else 0)
  | .str s, true =>
    match Number.read? s with
    | some (.int i) => .ok i
    | some (.float x) =>
      match x.word? with
      | some i => .ok i
      | none => cannotConvert (inQuotes s) "int"
    | none => cannotConvert (inQuotes s) "int"
  | _, _ => .error (.expected "int" v)

def asFloat (v : Value) : Except Error Double :=
  match v.content, v.auto with
  | .float x, _ => .ok x
  | .int i, true => .ok (Double.ofInt i.toInt)
  | .bool b, true => .ok (if b then Double.one else Double.zero false)
  | .str s, true =>
    match Number.read? s with
    | some n => .ok n.toDouble
    | none => cannotConvert (inQuotes s) "float"
  | _, _ => .error (.expected "float" v)

/-- Integers and doubles are numbers without being marked as convertible. -/
def asNumber (v : Value) : Except Error Number :=
  match v.content, v.auto with
  | .int i, _ => .ok (.int i)
  | .float x, _ => .ok (.float x)
  | .bool b, true => .ok (.int (if b then 1 else 0))
  | .str s, true =>
    match Number.read? s with
    | some n => .ok n
    | none => cannotConvert (inQuotes s) "a number"
  | _, _ => .error (.expected "number" v)

def asString (v : Value) : Except Error String :=
  match v.content, v.auto with
  | .str s, _ => .ok s
  | .int _, true | .float _, true | .bool _, true => .ok v.text
  | _, _ => .error (.expected "string" v)

def asBool (v : Value) : Except Error Bool :=
  match v.content, v.auto with
  | .bool b, _ => .ok b
  | .int i, true => .ok (i != 0)
  | .float x, true => .ok (!x.isZero)
  | .null, true => .ok false
  | .str s, true =>
    let trimmed := Text.trim s
    if trimmed = "true" then .ok true
    else if trimmed = "false" ∨ trimmed = "" then .ok false
    else cannotConvert (inQuotes trimmed) "bool"
  | _, _ => .error (.expected "bool" v)

def asEnum (v : Value) : Except Error Int64 :=
  match v.content with
  | .enum ordinal => .ok ordinal
  | _ => .error (.expected "enum" v)

/-- Condition of branches and logic instructions: `null` reads as false. -/
def truthy (v : Value) : Except Error Bool :=
  match v.content with
  | .bool b => .ok b
  | .null => .ok false
  | _ => v.asBool

end ScriptMachine.Value
