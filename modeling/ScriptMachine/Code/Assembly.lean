import ScriptMachine.Code.Builder

/-!
# Assembly scripts

A script of builder calls as data, with nested scripts for the bodies of combinators.
-/

set_option autoImplicit false

namespace ScriptMachine

/-- One call of a builder. -/
inductive Assembly where
  | line (n : Nat)
  | op (op : Opcode)
  | int (op : Opcode) (n : Int64)
  | float (op : Opcode) (x : Double)
  | str (op : Opcode) (s : String)
  | strInt (op : Opcode) (s : String) (n : Int64)
  | pushInt (n : Int64)
  | pushStr (s : String)
  | load (slot : Int64)
  | store (slot : Int64)
  | nest (body : List Assembly)
  | whileLoop (cond body : List Assembly)
  | ifElse (yes no : List Assembly)
  | trap (body handler : List Assembly)
  | deferred (k : Int64) (body : List Assembly)
  | forEach (slot : Int64) (body : List Assembly)
deriving Repr, Inhabited

namespace Assembly

mutual

def run : Assembly → Builder → Builder
  | .line n, b => b.atLine n
  | .op o, b => b.op o
  | .int o n, b => b.int o n
  | .float o x, b => b.float o x
  | .str o s, b => b.str o s
  | .strInt o s n, b => b.strInt o s n
  | .pushInt n, b => b.pushInt n
  | .pushStr s, b => b.pushStr s
  | .load slot, b => b.load slot
  | .store slot, b => b.store slot
  | .nest body, b => b.nest (runAll body)
  | .whileLoop cond body, b => b.whileLoop (runAll cond) (runAll body)
  | .ifElse yes no, b => b.ifElse (runAll yes) (runAll no)
  | .trap body handler, b => b.trap (runAll body) (runAll handler)
  | .deferred k body, b => b.deferred k (runAll body)
  | .forEach slot body, b => b.forEach slot (runAll body)

def runAll : List Assembly → Builder → Builder
  | [], b => b
  | call :: rest, b => runAll rest (call.run b)

end

end Assembly

end ScriptMachine
