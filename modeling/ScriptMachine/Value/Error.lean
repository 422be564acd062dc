import ScriptMachine.Value.Basic

/-!
# Errors

An error has one cause and the contexts that were added on its way out. Causes that the machine
itself raises are `Fault`s; anything else that can go wrong is told in plain words. The wording of
every fault is fixed in `Fault.message`. A `Panic` is no error that a program can deal with: nothing
catches it, and the process ends.
-/

set_option autoImplicit false

namespace ScriptMachine

/-- Failures raised by the machine. -/
inductive Fault where
  | typeMismatch (detail : String)
  | stalePointer (index observed current : Nat)
  | unownedRelease
  | incompatibleKey (key : String)
  | uncaught (thrown : String)
  | parameterCount (callee : String) (expected got : Nat)
  | fatal (detail : String)
  /-- A value thrown by a script; it travels with the error. -/
  | thrown (value : Value)
  | duplicateBinding (path : String)
  | readonly (path : String)
  | malformed (unit reason : String)
deriving DecidableEq, Repr, Inhabited

def Fault.message : Fault → String
  | .typeMismatch detail => s!"type mismatch: {detail}"
  | .stalePointer index observed current =>
    s!"access to freed object (slot {index}, generation {observed}, now {current})"
  | .unownedRelease => "cannot release a non-owning reference"
  | .incompatibleKey key => s!"key {key} can never be stored in a structure"
  | .uncaught text => s!"uncaught throw: {text}"
  | .parameterCount callee expected got => s!"{callee} expects {expected} argument(s), got {got}"
  | .fatal detail => s!"fatal: {detail}"
  | .thrown value => "thrown value " ++ value.text
  | .duplicateBinding path => s!"'{path}' is already bound and not overwritable"
  | .readonly path => s!"'{path}' is readonly"
  | .malformed unit reason => s!"malformed code unit '{unit}': {reason}"

/-- The kind of a fault, for programs that tell faults apart. -/
def Fault.kind : Fault → String
  | .typeMismatch _ => "TypeMismatch"
  | .stalePointer _ _ _ => "StalePointer"
  | .unownedRelease => "UnownedRelease"
  | .incompatibleKey _ => "IncompatibleKey"
  | .uncaught _ => "Uncaught"
  | .parameterCount _ _ _ => "ParameterCount"
  | .fatal _ => "Fatal"
  | .thrown _ => "Thrown"
  | .duplicateBinding _ => "DuplicateBinding"
  | .readonly _ => "Readonly"
  | .malformed _ _ => "Malformed"

/-- Ways in which the process is given up. -/
inductive Panic where
  | overflow
  /-- More slots are asked for than memory can ever have. -/
  | capacity
  | output (reason : String)
deriving DecidableEq, Repr, Inhabited

def Panic.message : Panic → String
  | .overflow => "arithmetic overflow"
  | .capacity => "capacity overflow"
  | .output reason => "failed printing to stdout: " ++ reason

/-- Why an operation failed. -/
inductive Cause where
  | fault (fault : Fault)
  | plain (text : String)
  | panic (panic : Panic)
deriving DecidableEq, Repr, Inhabited

def Cause.message : Cause → String
  | .fault f => f.message
  | .plain t => t
  | .panic p => p.message

/-- A cause and the contexts around it, outermost first. -/
structure Error where
  contexts : List String := []
  cause : Cause
deriving DecidableEq, Repr, Inhabited

namespace Error

def ofFault (fault : Fault) : Error := { cause := .fault fault }

def plain (text : String) : Error := { cause := .plain text }

def typeMismatch (detail : String) : Error := ofFault (.typeMismatch detail)

def expected (expected : String) (found : Value) : Error :=
  typeMismatch ("expected " ++ expected ++ ", found " ++ found.kind.name)

def ofPanic (panic : Panic) : Error := { cause := .panic panic }

def malformed (unit reason : String) : Error := ofFault (.malformed unit reason)

def fatal (detail : String) : Error := ofFault (.fatal detail)

def within (context : String) (e : Error) : Error := { e with contexts := context :: e.contexts }

def fault? (e : Error) : Option Fault :=
  match e.cause with
  | .fault f => some f
  | _ => none

def panic? (e : Error) : Option Panic :=
  match e.cause with
  | .panic p => some p
  | _ => none

/-- Fatal errors skip traps and deferred blocks. -/
def isFatal (e : Error) : Bool :=
  match e.cause with
  | .fault (.fatal _) | .panic _ => true
  | _ => false

def thrown? (e : Error) : Option Value :=
  match e.cause with
  | .fault (.thrown value) => some value
  | _ => none

def chain (e : Error) : List String := e.contexts ++ [e.cause.message]

def message (e : Error) : String := ": ".intercalate e.chain

end Error

end ScriptMachine
