/-!
# Operation codes

The instruction set. Control flow addresses its targets by lexical depth: a jump with parameter `p`
resumes right after the nearest instruction, in its scan direction, whose depth is at most `p`.
-/

set_option autoImplicit false

namespace ScriptMachine

inductive Opcode where
  | nop | pushNull | pushInt | pushFloat | pushString | pushBool | pushEnum | pop | dup | swap
  | autoConvert | loadLocal | moveLocal | storeLocal | shadowSave | shadowRestore | loadGlobal
  | storeGlobal | eq | ne | lt | le | gt | ge | add | sub | mul | div | mod | neg | not | and
  | or | jump | jumpIfFalse | jumpIfTrue | jumpBack | makeClosure | loadCapture | loadThis
  | call | callDirect | callName | callMethod | ret | returnLocals | newStruct | newQueue
  | getKey | getField | setKey | setField | deleteKey | hasKey | length | append | prepend
  | popFront | popBack | firstKey | lastKey | deepCopy | shallowCopy | release | trapSet
  | trapClear | throw | fatal | deferArm | deferCheck | deferEnd | iterNew | iterNext | iterKey
  | iterValue | yield | finalize
deriving DecidableEq, Repr, Inhabited

/-- Direction in which a jump looks for its target. -/
inductive Scan where
  | forward | backward
deriving DecidableEq, Repr, Inhabited

namespace Opcode

def all : List Opcode :=
  [.nop, .pushNull, .pushInt, .pushFloat, .pushString, .pushBool, .pushEnum, .pop, .dup, .swap,
   .autoConvert, .loadLocal, .moveLocal, .storeLocal, .shadowSave, .shadowRestore, .loadGlobal,
   .storeGlobal, .eq, .ne, .lt, .le, .gt, .ge, .add, .sub, .mul, .div, .mod, .neg, .not, .and,
   .or, .jump, .jumpIfFalse, .jumpIfTrue, .jumpBack, .makeClosure, .loadCapture, .loadThis,
   .call, .callDirect, .callName, .callMethod, .ret, .returnLocals, .newStruct, .newQueue,
   .getKey, .getField, .setKey, .setField, .deleteKey, .hasKey, .length, .append, .prepend,
   .popFront, .popBack, .firstKey, .lastKey, .deepCopy, .shallowCopy, .release, .trapSet,
   .trapClear, .throw, .fatal, .deferArm, .deferCheck, .deferEnd, .iterNew, .iterNext,
   .iterKey, .iterValue, .yield, .finalize]

def name : Opcode → String
  | .nop => "Nop"
  | .pushNull => "PushNull"
  | .pushInt => "PushInt"
  | .pushFloat => "PushFloat"
  | .pushString => "PushString"
  | .pushBool => "PushBool"
  | .pushEnum => "PushEnum"
  | .pop => "Pop"
  | .dup => "Dup"
  | .swap => "Swap"
  | .autoConvert => "AutoConvert"
  | .loadLocal => "LoadLocal"
  | .moveLocal => "MoveLocal"
  | .storeLocal => "StoreLocal"
  | .shadowSave => "ShadowSave"
  | .shadowRestore => "ShadowRestore"
  | .loadGlobal => "LoadGlobal"
  | .storeGlobal => "StoreGlobal"
  | .eq => "Eq"
  | .ne => "Ne"
  | .lt => "Lt"
  | .le => "Le"
  | .gt => "Gt"
  | .ge => "Ge"
  | .add => "Add"
  | .sub => "Sub"
  | .mul => "Mul"
  | .div => "Div"
  | .mod => "Mod"
  | .neg => "Neg"
  | .not => "Not"
  | .and => "And"
  | .or => "Or"
  | .jump => "Jump"
  | .jumpIfFalse => "JumpIfFalse"
  | .jumpIfTrue => "JumpIfTrue"
  | .jumpBack => "JumpBack"
  | .makeClosure => "MakeClosure"
  | .loadCapture => "LoadCapture"
  | .loadThis => "LoadThis"
  | .call => "Call"
  | .callDirect => "CallDirect"
  | .callName => "CallName"
  | .callMethod => "CallMethod"
  | .ret => "Return"
  | .returnLocals => "ReturnLocals"
  | .newStruct => "NewStruct"
  | .newQueue => "NewQueue"
  | .getKey => "GetKey"
  | .getField => "GetField"
  | .setKey => "SetKey"
  | .setField => "SetField"
  | .deleteKey => "DeleteKey"
  | .hasKey => "HasKey"
  | .length => "Length"
  | .append => "Append"
  | .prepend => "Prepend"
  | .popFront => "PopFront"
  | .popBack => "PopBack"
  | .firstKey => "FirstKey"
  | .lastKey => "LastKey"
  | .deepCopy => "DeepCopy"
  | .shallowCopy => "ShallowCopy"
  | .release => "Release"
  | .trapSet => "TrapSet"
  | .trapClear => "TrapClear"
  | .throw => "Throw"
  | .fatal => "Fatal"
  | .deferArm => "DeferArm"
  | .deferCheck => "DeferCheck"
  | .deferEnd => "DeferEnd"
  | .iterNew => "IterNew"
  | .iterNext => "IterNext"
  | .iterKey => "IterKey"
  | .iterValue => "IterValue"
  | .yield => "Yield"
  | .finalize => "Finalize"

def ofName? (s : String) : Option Opcode := all.find? fun op => op.name == s

def isLiteral : Opcode → Bool
  | .pushNull | .pushInt | .pushFloat | .pushString | .pushBool | .pushEnum => true
  | _ => false

def isCompare : Opcode → Bool
  | .eq | .ne | .lt | .le | .gt | .ge => true
  | _ => false

def isArith : Opcode → Bool
  | .add | .sub | .mul | .div | .mod => true
  | _ => false

/-- Scan direction of depth-addressed control flow. -/
def scan? : Opcode → Option Scan
  | .jump | .jumpIfFalse | .jumpIfTrue | .trapSet | .iterNext => some .forward
  | .jumpBack => some .backward
  | _ => none

/-- Hands control to another frame or to the host. In a fused step only the last instruction may. -/
def transfersControl : Opcode → Bool
  | .call | .callDirect | .callName | .callMethod | .ret | .returnLocals | .yield | .finalize
  | .iterNext | .deferEnd => true
  | _ => false

end Opcode

end ScriptMachine
