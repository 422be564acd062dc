import ScriptMachine.Exec.Instruction

/-!
# Executing a step

What a step of compiled code does, folded or not. A folded run has the effect that its instructions
have one after the other.
-/

set_option autoImplicit false

namespace ScriptMachine.Exec

variable {H : Type}

/-- Executes instructions in order, until one sends control elsewhere. -/
def sequence (units : UnitTable) : List Resolved → Exec H Flow
  | [] => return .next
  | r :: rest => do
    match ← single units r with
    | .next => sequence units rest
    | flow => return flow

/-- The integer that an increment puts into a slot, if the slot holds an integer and the result is a
word. -/
def incremented (v : Value) (delta : Int64) (add : Bool) : Option Int64 :=
  match v.content with
  | .int i => Word.ofInt? (if add then i.toInt + delta.toInt else i.toInt - delta.toInt)
  | _ => none

def incrementLocal (units : UnitTable) (slot : Nat) (delta : Int64) (add : Bool)
    (span : List Resolved) : Exec H Flow := do
  match incremented (← readFrame fun f => f.readLocal slot) delta add with
  | some i =>
    modify fun c => { c with frame := { c.frame with locals := c.frame.locals.set slot (.int i) } }
    return .next
  | none => sequence units span

def sharedLocal (slot : Nat) : Exec H Value := do
  return (← readFrame fun f => f.readLocal slot).share

def action (units : UnitTable) : Action → Exec H Flow
  | .single r => single units r
  | .sequence span => sequence units span
  | .incrementLocal slot delta add span => incrementLocal units slot delta add span
  | .branchOnLocal slot rhs op target => do
    return if op.holds (← sharedLocal slot) (.int rhs) then .next else .jump target
  | .compareLocals a b op => thenNext do
    let lhs ← sharedLocal a
    let rhs ← sharedLocal b
    push (.bool (op.holds lhs rhs))
  | .localLiteralArith slot rhs op => thenNext do push (← op.apply (← sharedLocal slot) rhs)
  | .storeReload slot => thenNext do
    storeLocal slot (← pop)
    push (← sharedLocal slot)
  | .discard => return .next
  | .pushLiterals values => thenNext (modify fun c => { c with frame := c.frame.pushAll values })
  | .skipNops r => single units r

end ScriptMachine.Exec
