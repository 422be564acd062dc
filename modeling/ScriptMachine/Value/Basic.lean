import ScriptMachine.Number.Decimal
import ScriptMachine.Number.Reading

/-!
# Values

A value is its content and four flags. Content that lives on the heap is named by a handle: an
owning value is the only holder of its object, and a pointer is an alias that goes stale when the
object is freed. `Value.share` is the only way to use a value twice: it copies what is not on the
heap and turns an owner into a pointer.
-/

set_option autoImplicit false

namespace ScriptMachine

/-- A heap slot, and the generation of that slot when the reference was taken. -/
structure Handle where
  index : Nat
  generation : Nat
deriving DecidableEq, Repr, Inhabited

inductive HeapKind where
  | struct | callable | iterator | external
deriving DecidableEq, Repr, Inhabited

namespace HeapKind

def name : HeapKind → String
  | struct => "struct"
  | callable => "callable"
  | iterator => "iterator"
  | external => "external"

def rank : HeapKind → Nat
  | struct => 0
  | callable => 1
  | iterator => 2
  | external => 3

end HeapKind

/-- A kind of heap object and a handle to one. -/
structure HeapRef where
  kind : HeapKind
  handle : Handle
deriving DecidableEq, Repr, Inhabited

/-- References are ordered by kind, then slot, then generation. -/
def HeapRef.order (a b : HeapRef) : Ordering :=
  (compare a.kind.rank b.kind.rank).then
    ((compare a.handle.index b.handle.index).then (compare a.handle.generation b.handle.generation))

/-- Marks that a value carries beside its content. -/
structure Flags where
  /-- Stored inside a structure. -/
  child : Bool := false
  global : Bool := false
  /-- Assignment to the binding is refused. -/
  readonly : Bool := false
  auto : Bool := false
deriving DecidableEq, Repr, Inhabited

namespace Flags

def union (a b : Flags) : Flags :=
  ⟨a.child || b.child, a.global || b.global, a.readonly || b.readonly, a.auto || b.auto⟩

def shared (f : Flags) : Flags := { readonly := f.readonly, auto := f.auto }

def bits (f : Flags) : Nat :=
  (if f.child then 1 else 0) + (if f.global then 2 else 0)
    + (if f.readonly then 4 else 0) + (if f.auto then 8 else 0)

end Flags

inductive Content where
  | disposed
  | null
  | int (v : Int64)
  | float (x : Double)
  | str (s : String)
  | bool (b : Bool)
  | enum (ordinal : Int64)
  | owned (ref : HeapRef)
  /-- Alias of a heap object, valid while the generation still matches. -/
  | pointer (ref : HeapRef)
deriving DecidableEq, Repr, Inhabited

/-- A value of the machine. -/
structure Value where
  content : Content
  flags : Flags := {}
deriving DecidableEq, Repr

inductive ValueKind where
  | disposed | null | int | float | string | struct | callable | iterator | pointer | bool | enum
  | external
deriving DecidableEq, Repr

def ValueKind.name : ValueKind → String
  | disposed => "disposed"
  | null => "null"
  | int => "int"
  | float => "float"
  | string => "string"
  | struct => "struct"
  | callable => "callable"
  | iterator => "iterator"
  | pointer => "pointer"
  | bool => "bool"
  | enum => "enum"
  | external => "external"

namespace Value

def null : Value := ⟨.null, {}⟩

instance : Inhabited Value := ⟨null⟩

def disposed : Value := ⟨.disposed, {}⟩

def int (v : Int64) : Value := ⟨.int v, {}⟩

def float (x : Double) : Value := ⟨.float x, {}⟩

def str (s : String) : Value := ⟨.str s, {}⟩

def bool (b : Bool) : Value := ⟨.bool b, {}⟩

def enum (ordinal : Int64) : Value := ⟨.enum ordinal, {}⟩

def owned (ref : HeapRef) : Value := ⟨.owned ref, {}⟩

def pointer (ref : HeapRef) : Value := ⟨.pointer ref, {}⟩

def ofNumber : Number → Value
  | .int v => int v
  | .float x => float x

def kind (v : Value) : ValueKind :=
  match v.content with
  | .disposed => .disposed
  | .null => .null
  | .int _ => .int
  | .float _ => .float
  | .str _ => .string
  | .bool _ => .bool
  | .enum _ => .enum
  | .owned ref =>
    match ref.kind with
    | .struct => .struct
    | .callable => .callable
    | .iterator => .iterator
    | .external => .external
  | .pointer _ => .pointer

def isNull (v : Value) : Bool :=
  match v.content with
  | .null => true
  | _ => false

def isDisposed (v : Value) : Bool :=
  match v.content with
  | .disposed => true
  | _ => false

/-- Whether this value is the single owner of a heap object. -/
def owns (v : Value) : Bool :=
  match v.content with
  | .owned _ => true
  | _ => false

/-- Heap target of an owner or a pointer. -/
def ref? (v : Value) : Option HeapRef :=
  match v.content with
  | .owned ref | .pointer ref => some ref
  | _ => none

def owned? (v : Value) : Option HeapRef :=
  match v.content with
  | .owned ref => some ref
  | _ => none

def withFlags (v : Value) (flags : Flags) : Value := { v with flags := v.flags.union flags }

def withAuto (v : Value) : Value := v.withFlags { auto := true }

/-- A copy of what is not on the heap, or a pointer to what is. -/
def share (v : Value) : Value :=
  let content :=
    match v.content with
    | .owned ref => .pointer ref
    | other => other
  ⟨content, v.flags.shared⟩

def copy? (v : Value) : Option Value := if v.owns then none else some v.share

/-- The text of a value on its own, without looking into the heap. -/
def text (v : Value) : String :=
  match v.content with
  | .disposed => "<disposed>"
  | .null => "null"
  | .int i => toString i.toInt
  | .float x => x.text
  | .str s => s
  | .bool b => if b then "true" else "false"
  | .enum ordinal => "enum#" ++ toString ordinal.toInt
  | .owned ref => "<" ++ ref.kind.name ++ " @" ++ toString ref.handle.index ++ ">"
  | .pointer ref => "<&" ++ ref.kind.name ++ " @" ++ toString ref.handle.index ++ ">"

def str? (v : Value) : Option String :=
  match v.content with
  | .str s => some s
  | _ => none

/-- Takes the value out of a place and leaves `null` there. -/
def take (v : Value) : Value × Value := (v, null)

end Value

end ScriptMachine
