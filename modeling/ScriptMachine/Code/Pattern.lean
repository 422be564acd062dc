import ScriptMachine.Code.Instruction

/-!
# Instruction patterns

A pattern describes a run of instructions that can be carried out as one step. `Pattern.matchAt`
refuses runs that a jump could enter in the middle and runs that hand control away before their
end. `Pattern.select` takes the longest match; ties go to the more specific pattern and then to the
earlier one.
-/

set_option autoImplicit false

namespace ScriptMachine

inductive Matcher where
  | single (op : Opcode)
  | anyOf (ops : List Opcode)
  | where (test : Instruction → Bool)
  /-- As many instructions as the inner matcher accepts, but at least `min`. -/
  | repeated (inner : Matcher) (min : Nat)
  | wildcard
deriving Inhabited

namespace Matcher

def accepts : Matcher → Instruction → Bool
  | single op, ins => ins.op == op
  | anyOf ops, ins => ops.contains ins.op
  | .where test, ins => test ins
  | repeated inner _, ins => inner.accepts ins
  | wildcard, _ => true

def consume (m : Matcher) (code : List Instruction) : Option Nat :=
  match m with
  | repeated inner min =>
    let n := (code.takeWhile inner.accepts).length
    if min ≤ n then some n else none
  | m =>
    match code with
    | ins :: _ => if m.accepts ins then some 1 else none
    | [] => none

end Matcher

/-- Elements in a row, a rank among equally long matches, and a condition on the whole run. -/
structure Pattern (β : Type) where
  name : String
  parts : List Matcher
  specificity : Nat
  guard : Option (List Instruction → Bool) := none
  build : β

namespace Pattern

variable {β : Type}

/-- Instructions that elements in a row consume at the head of the code. -/
def consumeAll : List Matcher → List Instruction → Option Nat
  | [], _ => some 0
  | part :: rest, code => do
    let n ← part.consume code
    return n + (← consumeAll rest (code.drop n))

def legal (code : List Instruction) (position length : Nat) (landings : List Nat) : Bool :=
  2 ≤ length
    && !(List.range' (position + 1) (length - 1)).any landings.contains
    && !((code.drop position).take (length - 1)).any (·.op.transfersControl)

def matchAt (p : Pattern β) (code : List Instruction) (position : Nat) (landings : List Nat) :
    Option Nat := do
  let length ← consumeAll p.parts (code.drop position)
  if legal code position length landings then
    match p.guard with
    | none => some length
    | some guard => if guard ((code.drop position).take length) then some length else none
  else none

def better (p : Pattern β) (length : Nat) (best : Option (Pattern β × Nat)) : Bool :=
  match best with
  | none => true
  | some (b, longest) =>
    decide (longest < length ∨ (length = longest ∧ b.specificity < p.specificity))

/-- The better one of the best match so far and the match of one more pattern. -/
def contend (code : List Instruction) (position : Nat) (landings : List Nat)
    (best : Option (Pattern β × Nat)) (p : Pattern β) : Option (Pattern β × Nat) :=
  match p.matchAt code position landings with
  | none => best
  | some length => if p.better length best then some (p, length) else best

def select (patterns : List (Pattern β)) (code : List Instruction) (position : Nat)
    (landings : List Nat) : Option (Pattern β × Nat) :=
  patterns.foldl (contend code position landings) none

end Pattern

end ScriptMachine
