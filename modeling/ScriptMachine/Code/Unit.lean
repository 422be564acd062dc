import ScriptMachine.Code.Fusion
import ScriptMachine.Code.Target

/-!
# Code units

A code unit is a compiled function: its instructions cut into steps. Every instruction is a step of
its own, or with fusion part of a folded run; positions that a jump can land on always start a step.
-/

set_option autoImplicit false

namespace ScriptMachine

structure Step where
  start : Nat
  length : Nat
  pattern : String
  action : Action
deriving Repr, Inhabited

/-- A compiled function. -/
structure CodeUnit where
  name : String
  params : Nat
  locals : Nat
  variadic : Bool
  generator : Bool
  code : List Instruction
  steps : List Step
  entry : Array (Option Step)
  maxStack : Nat
  /-- First deferred block, where exits go while deferred blocks are armed. -/
  deferEntry : Option Nat
  deferSlots : Nat
deriving Repr, Inhabited

namespace CodeUnit

def stepAt? (u : CodeUnit) (cursor : Nat) : Option Step := (u.entry[cursor]?).join

def fusedCount (u : CodeUnit) : Nat := u.steps.countP fun step => decide (1 < step.length)

def slots (u : CodeUnit) : Nat := max u.locals u.params

def frameCapacity (u : CodeUnit) : Nat := u.slots + u.maxStack

/-- Why no frame of this unit can be made: the number of its slots is no machine word, or they take
more bytes than one vector may have. A value has 32 bytes. -/
def misfit? (u : CodeUnit) : Option Panic :=
  if 2 ^ 64 ≤ u.frameCapacity then some .overflow
  else if 2 ^ 63 ≤ 32 * u.frameCapacity ∨ 2 ^ 63 ≤ u.deferSlots then some .capacity
  else none

def column (n : Nat) : String :=
  let digits := toString n
  String.ofList (List.replicate (4 - digits.length) ' ') ++ digits

def describe (u : CodeUnit) : String :=
  let head := s!"unit {u.name} (params {u.params}, locals {u.locals}, max stack {u.maxStack}, "
    ++ s!"{u.steps.length} steps / {u.code.length} instructions)\n"
  let lines := u.steps.map fun step =>
    let body := (u.code.drop step.start).take step.length
    "  " ++ column step.start ++ " " ++ step.pattern ++ "\n"
      ++ String.join (body.map fun ins => "         " ++ ins.text ++ "\n")
  head ++ String.join lines

end CodeUnit

namespace Function

/-- Refuses an instruction whose operands can never be right. -/
def check (f : Function) (position : Nat) (ins : Instruction) : Except Error Unit :=
  match ins.op with
  | .loadLocal | .moveLocal | .storeLocal | .shadowSave | .shadowRestore =>
    if ins.int.toInt < 0 ∨ (f.slots : Int) ≤ ins.int.toInt then
      .error (.malformed f.name
        (ins.op.name ++ s!" at {position} uses slot {ins.int.toInt} of {f.slots}"))
    else .ok ()
  | .loadGlobal | .storeGlobal | .getField | .setField | .callDirect | .callName | .callMethod
  | .makeClosure =>
    if ins.str.isNone then
      .error (.malformed f.name (ins.op.name ++ s!" at {position} needs a name"))
    else .ok ()
  | .deferArm | .deferCheck =>
    if ins.int.toInt < 0 then .error (.malformed f.name s!"negative defer slot at {position}")
    else .ok ()
  | _ => .ok ()

def verify (f : Function) : Except Error Unit :=
  f.code.zipIdx.forM fun (ins, position) => f.check position ins

def firstDeferred? (code : List Instruction) : Option Nat := code.findIdx? (·.op == .deferCheck)

def deferSlots (code : List Instruction) : Nat :=
  code.foldl
    (fun n ins => if ins.op = .deferArm ∨ ins.op = .deferCheck then max n (ins.count + 1) else n) 0

def landings (code : List Instruction) (targets : List (Option Nat)) : List Nat :=
  targets.filterMap id ++ (firstDeferred? code).toList

def stepFrom (patterns : List (Pattern Fusion.Fold)) (code : List Instruction)
    (resolved : List Resolved) (landings : List Nat) (position : Nat) : Step :=
  match Pattern.select patterns code position landings with
  | some (pattern, length) =>
    { start := position, length, pattern := pattern.name
      action := pattern.build ((resolved.drop position).take length) }
  | none =>
    { start := position, length := 1, pattern := "single"
      action := .single (resolved.getD position default) }

/-- Cuts the code into steps from a position on. Each step has at least one instruction, so as many
steps as instructions are enough. -/
def cut (patterns : List (Pattern Fusion.Fold)) (code : List Instruction)
    (resolved : List Resolved) (landings : List Nat) (position : Nat) : (fuel : Nat) → List Step
  | 0 => []
  | fuel + 1 =>
    if position < code.length then
      let step := stepFrom patterns code resolved landings position
      step :: cut patterns code resolved landings (position + step.length) fuel
    else []

def stepTable (size : Nat) (steps : List Step) : Array (Option Step) :=
  steps.foldl (fun entry step => entry.setIfInBounds step.start (some step))
    (Array.replicate size none)

def resolved (code : List Instruction) (targets : List (Option Nat)) : List Resolved :=
  List.zipWith (fun ins target => Resolved.mk ins (target.getD 0)) code targets

/-- The unit of a function whose jump targets are known. Without fusion every instruction is a step
of its own. -/
def assemble (f : Function) (targets : List (Option Nat)) (fusion : Bool) : CodeUnit :=
  let steps := cut (Fusion.patterns fusion) f.code (resolved f.code targets)
    (landings f.code targets) 0 f.code.length
  { name := f.name
    params := f.params
    locals := f.locals
    variadic := f.variadic
    generator := f.generator
    code := f.code
    steps
    entry := stepTable f.code.length steps
    maxStack := maxStack f.code
    deferEntry := firstDeferred? f.code
    deferSlots := deferSlots f.code }

def compile (f : Function) (fusion : Bool) : Except Error CodeUnit := do
  f.verify
  let targets ← Target.resolveAll f.name f.code
  return f.assemble targets fusion

end Function

end ScriptMachine
