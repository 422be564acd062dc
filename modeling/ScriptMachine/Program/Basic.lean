import ScriptMachine.Code.Instruction
import ScriptMachine.Order.SortedMap

/-!
# Programs

A program is a list of modules. A module defines functions, globals that a function computes,
constant data, enumerations, and code that runs once everything is in place.
-/

set_option autoImplicit false

namespace ScriptMachine

/-- Constant data as a program file writes it. -/
inductive Literal where
  | null
  | bool (b : Bool)
  | int (v : Int64)
  | float (x : Double)
  | str (s : String)
  | list (items : List Literal)
  | map (entries : List (String × Literal))
deriving Repr, Inhabited

/-- A global that holds the first value its function returns. -/
structure StaticDef where
  path : String
  init : Function
deriving Repr, Inhabited

structure DataDef where
  path : String
  value : Literal
  readonly : Bool := false
deriving Repr, Inhabited

structure EnumDef where
  path : String
  variants : List String
deriving Repr, Inhabited

structure Module where
  name : String
  functions : List Function := []
  statics : List StaticDef := []
  data : List DataDef := []
  enums : List EnumDef := []
  init : Option Function := none
deriving Repr, Inhabited

structure Program where
  modules : List Module := []
deriving Repr, Inhabited

inductive Format where
  | json | yaml | toml
deriving DecidableEq, Repr, Inhabited

structure Config where
  yieldInterval : Nat := 1024
  /-- Deepest call stack; going past it is fatal. -/
  maxFrames : Nat := 4096
  defaultBudget : Nat := 10000
  /-- Whether runs of instructions are folded when code is compiled. -/
  fusion : Bool := true
deriving DecidableEq, Repr, Inhabited

end ScriptMachine
