import ScriptMachine.Code.Pattern
import ScriptMachine.Value.Arith
import ScriptMachine.Value.Compare

/-!
# Fused steps

What a step of compiled code does: one instruction, or a run of instructions folded into one action.
`Fusion.registry` holds the runs that are folded, with the action that each one becomes.
-/

set_option autoImplicit false

namespace ScriptMachine

/-- An instruction with its jump target; instructions without one have zero here. -/
structure Resolved where
  ins : Instruction
  jump : Nat := 0
deriving DecidableEq, Repr, Inhabited

def Instruction.literal (ins : Instruction) : Value :=
  match ins.op with
  | .pushInt => .int ins.int
  | .pushFloat => .float ins.float
  | .pushString => .str ins.name
  | .pushBool => .bool (ins.int != 0)
  | .pushEnum => .enum ins.int
  | _ => .null

def Opcode.comparison : Opcode → Comparison
  | .eq => .eq
  | .ne => .ne
  | .lt => .lt
  | .le => .le
  | .gt => .gt
  | _ => .ge

/-- The operation of an arithmetic instruction. -/
def Opcode.arithOp : Opcode → ArithOp
  | .add => .add
  | .sub => .sub
  | .mul => .mul
  | .div => .div
  | _ => .mod

inductive Action where
  | single (r : Resolved)
  | sequence (span : List Resolved)
  /-- Adds to or subtracts from an integer slot in place; `span` serves any other content. -/
  | incrementLocal (slot : Nat) (delta : Int64) (add : Bool) (span : List Resolved)
  | branchOnLocal (slot : Nat) (rhs : Int64) (op : Comparison) (jump : Nat)
  | compareLocals (a b : Nat) (op : Comparison)
  /-- Pushes the result of an operation on a slot and a constant. -/
  | localLiteralArith (slot : Nat) (rhs : Value) (op : ArithOp)
  /-- Stores the top of the stack into a slot and pushes a share of it. -/
  | storeReload (slot : Nat)
  /-- A value that is pushed and dropped at once. -/
  | discard
  | pushLiterals (values : List Value)
  | skipNops (r : Resolved)
deriving Repr, Inhabited

namespace Fusion

def literals : List Opcode := [.pushNull, .pushInt, .pushFloat, .pushString, .pushBool, .pushEnum]

def comparisons : List Opcode := [.eq, .ne, .lt, .le, .gt, .ge]

def ariths : List Opcode := [.add, .sub, .mul, .div, .mod]

/-- Instructions that push a value and do nothing else. -/
def purePushes : List Opcode := .loadLocal :: literals

/-- Turns a matched run into its action. -/
abbrev Fold := List Resolved → Action

/-- Whether the first and the last instruction of a run use the same slot. -/
def sameEnds (span : List Instruction) : Bool :=
  match span.head?, span.getLast? with
  | some a, some b => a.int == b.int
  | _, _ => false

def incrementLocal : Fold := fun span =>
  match span with
  | [load, push, arith, _] =>
    .incrementLocal load.ins.count push.ins.int (arith.ins.op == .add) span
  | _ => .sequence span

def branchOnLocal : Fold
  | [load, push, compare, branch] =>
    .branchOnLocal load.ins.count push.ins.int compare.ins.op.comparison branch.jump
  | span => .sequence span

def compareLocals : Fold
  | [a, b, compare] => .compareLocals a.ins.count b.ins.count compare.ins.op.comparison
  | span => .sequence span

def localLiteralArith : Fold
  | [load, push, arith] =>
    .localLiteralArith load.ins.count push.ins.literal arith.ins.op.arithOp
  | span => .sequence span

def storeReload : Fold
  | [store, _] => .storeReload store.ins.count
  | span => .sequence span

def discard : Fold := fun _ => .discard

def pushLiterals : Fold := fun span => .pushLiterals (span.map (·.ins.literal))

def skipNops : Fold
  | head :: _ => .skipNops head
  | [] => .sequence []

def registry : List (Pattern Fold) :=
  [{ name := "increment-local"
     parts := [.single .loadLocal, .single .pushInt, .anyOf [.add, .sub], .single .storeLocal]
     specificity := 4
     guard := some sameEnds
     build := incrementLocal },
   { name := "local-compare-branch"
     parts := [.single .loadLocal, .single .pushInt, .anyOf comparisons, .single .jumpIfFalse]
     specificity := 4
     build := branchOnLocal },
   { name := "compare-locals"
     parts := [.single .loadLocal, .single .loadLocal, .anyOf comparisons]
     specificity := 3
     build := compareLocals },
   { name := "local-literal-arith"
     parts := [.single .loadLocal, .anyOf literals, .anyOf ariths]
     specificity := 3
     build := localLiteralArith },
   { name := "store-reload"
     parts := [.single .storeLocal, .single .loadLocal]
     specificity := 2
     guard := some sameEnds
     build := storeReload },
   { name := "discard-pure"
     parts := [.anyOf purePushes, .single .pop]
     specificity := 2
     build := discard },
   { name := "literal-run"
     parts := [.repeated (.anyOf literals) 2]
     specificity := 1
     build := pushLiterals },
   { name := "skip-nops"
     parts := [.wildcard, .repeated (.single .nop) 1]
     specificity := 0
     build := skipNops }]

/-- The runs that a compilation folds. -/
def patterns (fusion : Bool) : List (Pattern Fold) := if fusion then registry else []

end Fusion

end ScriptMachine
