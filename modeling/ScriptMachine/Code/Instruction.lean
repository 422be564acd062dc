import ScriptMachine.Code.Opcode
import ScriptMachine.Number.Decimal
import ScriptMachine.Number.Word
import ScriptMachine.Text.Quoted

/-!
# Instructions

An instruction is an operation code with its operands, its lexical depth and the source line it came
from. `Instruction.effect` says how many values it takes from the operand stack and puts back.
-/

set_option autoImplicit false

namespace ScriptMachine

structure Instruction where
  op : Opcode
  int : Int64 := 0
  str : Option String := none
  float : Double := Double.zero false
  depth : Nat := 0
  line : Nat := 0
deriving DecidableEq, Repr, Inhabited

namespace Instruction

def name (ins : Instruction) : String := ins.str.getD ""

def count (ins : Instruction) : Nat := Word.toCount ins.int

/-- Values taken from the operand stack, and values put there. A call counts as putting one. -/
def effect (ins : Instruction) : Nat × Nat :=
  match ins.op with
  | .nop | .shadowSave | .shadowRestore | .jump | .jumpBack | .trapSet | .trapClear | .fatal
  | .deferArm | .deferCheck | .deferEnd | .finalize | .returnLocals => (0, 0)
  | .pushNull | .pushInt | .pushFloat | .pushString | .pushBool | .pushEnum | .loadLocal
  | .moveLocal | .loadGlobal | .loadCapture | .loadThis | .newStruct | .newQueue => (0, 1)
  | .pop | .storeLocal | .storeGlobal | .jumpIfFalse | .jumpIfTrue | .throw | .release
  | .iterNext => (1, 0)
  | .dup => (1, 2)
  | .swap => (2, 2)
  | .autoConvert | .neg | .not | .getField | .length | .popFront | .popBack | .firstKey | .lastKey
  | .deepCopy | .shallowCopy | .iterNew | .iterKey | .iterValue => (1, 1)
  | .eq | .ne | .lt | .le | .gt | .ge | .add | .sub | .mul | .div | .mod | .and | .or | .getKey
  | .deleteKey | .hasKey => (2, 1)
  | .setField | .append | .prepend => (2, 0)
  | .setKey => (3, 0)
  | .makeClosure => (ins.count, 1)
  | .call | .callMethod => (ins.count + 1, 1)
  | .callDirect | .callName => (ins.count, 1)
  | .ret | .yield => (ins.count, 0)

def operandText (ins : Instruction) : String :=
  match ins.op, ins.str with
  | .pushFloat, _ => " " ++ ins.float.text
  | _, some s =>
    " " ++ Text.inspected s ++ if ins.int = 0 then "" else " " ++ toString ins.int.toInt
  | op, none =>
    if ins.int ≠ 0 ∨ op.scan?.isSome then " " ++ toString ins.int.toInt else ""

/-- A line of a listing, indented by depth. -/
def text (ins : Instruction) : String :=
  String.ofList (List.replicate (2 * ins.depth) ' ') ++ ins.op.name ++ ins.operandText

end Instruction

def stackHeights (code : List Instruction) : Nat × Nat :=
  code.foldl
    (fun (height, high) ins =>
      let (pop, push) := ins.effect
      let height := height - pop + push
      (height, max high height))
    (0, 0)

def maxStack (code : List Instruction) : Nat := (stackHeights code).2

structure Function where
  name : String
  params : Nat := 0
  locals : Nat := 0
  /-- The last parameter collects surplus arguments in a structure. -/
  variadic : Bool := false
  /-- A call answers an iterator over the values that the code yields. -/
  generator : Bool := false
  code : List Instruction := []
deriving DecidableEq, Repr, Inhabited

/-- Number of local slots; parameters come first. -/
def Function.slots (f : Function) : Nat := max f.locals f.params

end ScriptMachine
