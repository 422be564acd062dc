import ScriptMachine.Machine.Run

/-!
# Loading programs

Modules are loaded in stages, each for all modules before the next one begins: functions are
compiled and bound, references between them are checked, computed globals are run, constant data and
enumerations are bound, and at last the code of each module runs. What a program binds can not be
overwritten by another definition.
-/

set_option autoImplicit false

namespace ScriptMachine

/-! ## Constant data -/

namespace Heap

variable {H : Type}

mutual

/-- The value of constant data; lists and maps become structures. -/
def ofLiteral : Literal → HeapM H Value
  | .null => return .null
  | .bool b => return .bool b
  | .int v => return .int v
  | .float x => return .float x
  | .str s => return .str s
  | .list items => do
    let (target, h) := (← get).allocStructure items.length
    set h
    (fillItems target 0 items).onFailure (·.dispose target)
    return target
  | .map entries => do
    let (target, h) := (← get).allocStructure entries.length
    set h
    (fillEntries target entries).onFailure (·.dispose target)
    return target

def fillItems (target : Value) : (i : Nat) → List Literal → HeapM H Unit
  | _, [] => return ()
  | i, item :: rest => do
    setChildKey target (.int (Int64.ofNat i)) (← ofLiteral item)
    fillItems target (i + 1) rest

def fillEntries (target : Value) : List (String × Literal) → HeapM H Unit
  | [] => return ()
  | (name, item) :: rest => do
    setChildKey target (.str name) (← ofLiteral item)
    fillEntries target rest

end

end Heap

namespace Machine

variable {H W : Type}

/-! ## Functions -/

def loadFunctions (m : Module) : MachineM H W Unit := do
  m.functions.forM fun f => do
    let unit ← (addUnit f).within ("compiling " ++ f.name ++ " in module " ++ m.name)
    define f.name (← alloc (.callable (.ofUnit unit))) false
  modify (note .globals .debug)

def referenced (ins : Instruction) : Option String :=
  match ins.op with
  | .callDirect | .makeClosure => some ins.name
  | _ => none

def checkInstruction (units : UnitTable) (unit : CodeUnit) (position : Nat) (ins : Instruction) :
    Except Error Unit :=
  match referenced ins with
  | some name =>
    if units.contains name then .ok ()
    else .error (.malformed unit.name
      (ins.op.name ++ s!" at {position} names unknown unit '" ++ name ++ "'"))
  | none => .ok ()

def checkReferences (units : UnitTable) : Except Error Unit :=
  units.values.forM fun unit =>
    unit.code.zipIdx.forM fun (ins, position) => checkInstruction units unit position ins

/-! ## Globals -/

/-- Compiles and runs a function that is bound nowhere; answers the first value it returns. -/
def runUnbound (host : Host H W) (fuel : Nat) (f : Function) : Fueled (Machine H W) Value := do
  let unit ← (compile f : MachineM H W CodeUnit)
  let started : Fueled (Session H W) Outcome := do
    (Session.startUnit unit [] : SessionM H W Unit)
    Session.run host fuel
  match ← inNewJob started with
  | .completed values =>
    modify (dispose values.tail)
    return values.headD .null
  | _ => throw (.plain (f.name ++ " did not complete"))

/-- Runs the computed globals of a module and binds them. -/
def loadStatics (host : Host H W) (fuel : Nat) (m : Module) : Fueled (Machine H W) Unit :=
  m.statics.forM fun d => do
    let v ← (runUnbound host fuel d.init).within ("initializing static " ++ d.path)
    (define d.path v false : MachineM H W Unit)

def loadData (m : Module) : MachineM H W Unit :=
  m.data.forM fun d => do
    let v ← (Heap.ofLiteral d.value : HeapM H Value)
    define d.path (if d.readonly then v.withFlags { readonly := true } else v) false

/-- Binds the variants of the enumerations of a module to their positions. -/
def loadEnums (m : Module) : MachineM H W Unit := do
  m.enums.forM fun d =>
    d.variants.zipIdx.forM fun (variant, position) =>
      define (d.path ++ "." ++ variant)
        ((Value.enum (Int64.ofNat position)).withFlags { readonly := true }) false
  modify (note .globals .debug)

def loadInit (host : Host H W) (fuel : Nat) (m : Module) : Fueled (Machine H W) Unit :=
  match m.init with
  | none => return ()
  | some f => do
    let v ← (runUnbound host fuel f).within ("running init of module " ++ m.name)
    modify fun m => note .globals .debug (m.dispose [v])

def load (host : Host H W) (fuel : Nat) (modules : List Module) : Fueled (Machine H W) Unit := do
  modules.forM fun m => (loadFunctions m : MachineM H W Unit)
  checkReferences (← get).units
  modules.forM (loadStatics host fuel)
  modules.forM fun m => (loadData m : MachineM H W Unit)
  modules.forM fun m => (loadEnums m : MachineM H W Unit)
  modules.forM (loadInit host fuel)

end Machine

end ScriptMachine
