import ScriptMachine.Order.SortedMap
import ScriptMachine.Value.Error

/-!
# Globals

Values bound to dotted paths. A binding made by `define` stands unless it was marked as
overwritable. `store` is what scripts do: it changes a binding unless its value is read-only, and
makes one if there is none. Both answer the value that was displaced; a value that is refused stays
with the caller.
-/

set_option autoImplicit false

namespace ScriptMachine

structure Global where
  value : Value
  overwritable : Bool
deriving DecidableEq, Repr, Inhabited

/-- Bindings by path. -/
structure Globals where
  entries : SortedMap String Global := {}
deriving DecidableEq, Repr, Inhabited

namespace Globals

def bound (v : Value) : Value := v.withFlags { global := true }

def get? (g : Globals) (path : String) : Option Value := (g.entries.get? path).map Global.value

def load (g : Globals) (path : String) : Value := ((g.get? path).map Value.share).getD .null

def contains (g : Globals) (path : String) : Bool := g.entries.contains path

def size (g : Globals) : Nat := g.entries.size

def isEmpty (g : Globals) : Bool := g.entries.isEmpty

def paths (g : Globals) : List String := g.entries.keys

/-- Values of all bindings. -/
def values (g : Globals) : List Value := g.entries.values.map Global.value

def define (g : Globals) (path : String) (v : Value) (overwritable : Bool) :
    Except Error (Option Value × Globals) :=
  let binding : Global := ⟨bound v, overwritable⟩
  match g.entries.get? path with
  | none => .ok (none, ⟨g.entries.insert path binding⟩)
  | some old =>
    if old.overwritable then .ok (some old.value, ⟨g.entries.insert path binding⟩)
    else .error (.ofFault (.duplicateBinding path))

/-- Assigns to a path. -/
def store (g : Globals) (path : String) (v : Value) : Except Error (Option Value × Globals) :=
  match g.entries.get? path with
  | none => .ok (none, ⟨g.entries.insert path ⟨bound v, true⟩⟩)
  | some old =>
    if old.value.flags.readonly then .error (.ofFault (.readonly path))
    else .ok (some old.value, ⟨g.entries.insert path { old with value := bound v }⟩)

end Globals

end ScriptMachine
