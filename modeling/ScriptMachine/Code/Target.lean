import ScriptMachine.Code.Instruction
import ScriptMachine.Value.Error

/-!
# Jump targets

Depth-addressed control flow is resolved once, when a function is compiled. A forward jump without a
boundary resumes at the end of the code; a backward jump without one is an error.
-/

set_option autoImplicit false

namespace ScriptMachine

/-- Scan direction and depth of an instruction that has a target. A deferred block is left at its
own depth. -/
def Instruction.scan? (ins : Instruction) : Option (Scan × Int) :=
  match ins.op with
  | .deferCheck => some (.forward, ins.depth)
  | op => op.scan?.map (·, ins.int.toInt)

def Instruction.bounds (p : Int) (ins : Instruction) : Bool := decide ((ins.depth : Int) ≤ p)

namespace Target

/-- Position after the nearest boundary behind `at`. -/
def forward (code : List Instruction) (position : Nat) (p : Int) : Nat :=
  match (code.drop (position + 1)).findIdx? (Instruction.bounds p) with
  | some offset => position + 1 + offset + 1
  | none => code.length

def backward? (code : List Instruction) (position : Nat) (p : Int) : Option Nat :=
  ((code.take position).reverse.findIdx? (Instruction.bounds p)).map (position - ·)

def resolve (name : String) (code : List Instruction) (position : Nat) (ins : Instruction) :
    Except Error (Option Nat) :=
  match ins.scan? with
  | none => .ok none
  | some (.forward, p) => .ok (some (forward code position p))
  | some (.backward, p) =>
    match backward? code position p with
    | some target => .ok (some target)
    | none =>
      .error (.malformed name
        (ins.op.name ++ s!" at {position} has no boundary at depth {p}"))

def resolveAll (name : String) (code : List Instruction) : Except Error (List (Option Nat)) :=
  code.zipIdx.mapM fun (ins, position) => resolve name code position ins

end Target

end ScriptMachine
