import ScriptMachine.Heap.Basic

/-!
# Text of values on the heap

Like `Value.text`, but structures are shown with their entries: positional layouts as lists, tables
with their keys. Nesting is cut off at a fixed depth, so cyclic structures have a text too.
-/

set_option autoImplicit false

namespace ScriptMachine.Heap

variable {H : Type}

/-- Structures inside structures that a text shows. -/
def renderDepth : Nat := 16

def renderLeaf (h : Heap H) (nested : Bool) (v : Value) : String :=
  match v.content with
  | .str s => if nested then Text.inspected s else s
  | .owned _ | .pointer _ => if h.isLive v then v.text else "<freed>"
  | _ => v.text

def renderEntries (layout : Layout) (entries : List (Key × String)) : String :=
  match layout with
  | .dense | .ring => "[" ++ ", ".intercalate (entries.map Prod.snd) ++ "]"
  | .keyed | .mixed =>
    "\x7b" ++ ", ".intercalate (entries.map fun (key, text) => key.text ++ ": " ++ text) ++ "\x7d"

/-- The text of a value, with structures shown up to some depth. -/
def renderAt (h : Heap H) : (levels : Nat) → (nested : Bool) → Value → String
  | levels, nested, v =>
    match v.ref? with
    | some ⟨.struct, _⟩ =>
      match h.structureOf v, levels with
      | .error _, _ => "<freed>"
      | .ok _, 0 => "..."
      | .ok s, levels + 1 =>
        renderEntries s.layout
          (s.entries.map fun (key, child) => (key, renderAt h levels true child))
    | _ => h.renderLeaf nested v

def render (h : Heap H) (v : Value) : String := h.renderAt renderDepth false v

end ScriptMachine.Heap
