import ScriptMachine.Value.Convert
import ScriptMachine.Number.Arithmetic

/-!
# Arithmetic on values

Integer results stay exact: a result that does not fit a word is computed again in doubles. Adding
a text joins the texts of both operands.
-/

set_option autoImplicit false

namespace ScriptMachine

/-- The arithmetic operations that have an instruction. -/
inductive ArithOp where
  | add | sub | mul | div | mod
deriving DecidableEq, Repr, Inhabited

namespace ArithOp

def symbol : ArithOp → String
  | add => "+"
  | sub => "-"
  | mul => "*"
  | div => "/"
  | mod => "%"

def onDoubles : ArithOp → Double → Double → Double
  | add => Double.add
  | sub => Double.sub
  | mul => Double.mul
  | div => Double.div
  | mod => Double.rem

/-- An exact integer result, or the operation repeated on doubles if it does not fit. -/
def exactOr (op : ArithOp) (a b : Int64) (exact : Int) : Value :=
  match Word.ofInt? exact with
  | some v => .int v
  | none => .float (op.onDoubles (Double.ofInt a.toInt) (Double.ofInt b.toInt))

/-- The operation on words. A quotient is an integer only if the division leaves no rest. -/
def onWords (op : ArithOp) (a b : Int64) : Except Error Value :=
  let x := a.toInt
  let y := b.toInt
  match op with
  | add => .ok (op.exactOr a b (x + y))
  | sub => .ok (op.exactOr a b (x - y))
  | mul => .ok (op.exactOr a b (x * y))
  | div =>
    if y = 0 then .error (.typeMismatch "division by zero")
    else if x.tmod y = 0 then .ok (op.exactOr a b (x.tdiv y))
    else .ok (.float (op.onDoubles (Double.ofInt x) (Double.ofInt y)))
  | mod =>
    if y = 0 then .error (.typeMismatch "division by zero")
    else .ok (op.exactOr a b (x.tmod y))

def operand (op : ArithOp) (v other : Value) : Except Error Number :=
  match v.asNumber with
  | .ok n => .ok n
  | .error _ =>
    .error (.typeMismatch
      ("cannot apply '" ++ op.symbol ++ "' to " ++ v.kind.name ++ " and " ++ other.kind.name))

def onNumbers (op : ArithOp) (a b : Value) : Except Error Value := do
  let x ← operand op a b
  let y ← operand op b a
  match x, y with
  | .int x, .int y => op.onWords x y
  | x, y => return .float (op.onDoubles x.toDouble y.toDouble)

def join (a b : Value) : Except Error Value :=
  if a.isDisposed || b.isDisposed then .error (.typeMismatch "cannot concatenate a disposed value")
  else .ok (.str (a.text ++ b.text))

def apply (op : ArithOp) (a b : Value) : Except Error Value :=
  if op = .add ∧ (a.str?.isSome ∨ b.str?.isSome) then join a b else op.onNumbers a b

end ArithOp

def Value.negate (v : Value) : Except Error Value := do
  match ← v.asNumber with
  | .int i =>
    match Word.ofInt? (-i.toInt) with
    | some w => return .int w
    | none => return .float (Double.ofInt i.toInt).negate
  | .float x => return .float x.negate

end ScriptMachine
