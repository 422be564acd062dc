import ScriptMachine.Document.Basic
import ScriptMachine.Program.Basic

/-!
# Programs as documents

The document of a program, or of a part of one. Fields come in the order of their definitions.
Operands of an instruction that have their default are left out; the depth is always written.
-/

set_option autoImplicit false

namespace ScriptMachine

/-- A field that is left out if a condition holds. -/
def fieldUnless (skip : Bool) (name : String) (value : Document) :
    List (String × Document) :=
  if skip then [] else [(name, value)]

def Instruction.toDocument (ins : Instruction) : Document :=
  .record <|
    [("op", .text ins.op.name)]
    ++ fieldUnless (ins.int == 0) "int" (.int ins.int.toInt)
    ++ fieldUnless ins.str.isNone "str" (.text ins.name)
    ++ fieldUnless ins.float.isZero "float" (.float ins.float)
    ++ [("depth", .nat ins.depth)]
    ++ fieldUnless (ins.line == 0) "line" (.nat ins.line)

def Function.toDocument (f : Function) : Document :=
  .record
    [("name", .text f.name), ("params", .nat f.params), ("locals", .nat f.locals),
     ("variadic", .bool f.variadic), ("generator", .bool f.generator),
     ("code", .list (f.code.map Instruction.toDocument))]

mutual

def Literal.toDocument : Literal → Document
  | .null => .null
  | .bool b => .bool b
  | .int v => .int v.toInt
  | .float x => .float x
  | .str s => .text s
  | .list items => .list (Literal.toDocuments items)
  | .map entries => .map (Literal.toEntries entries)

def Literal.toDocuments : List Literal → List Document
  | [] => []
  | item :: rest => item.toDocument :: Literal.toDocuments rest

def Literal.toEntries : List (String × Literal) → List (Document × Document)
  | [] => []
  | (name, item) :: rest => (.text name, item.toDocument) :: Literal.toEntries rest

end

def Module.toDocument (m : Module) : Document :=
  let statics := m.statics.map fun s =>
    Document.record [("path", .text s.path), ("init", s.init.toDocument)]
  let data := m.data.map fun d =>
    Document.record
      [("path", .text d.path), ("value", d.value.toDocument), ("readonly", .bool d.readonly)]
  let enums := m.enums.map fun e =>
    Document.record [("path", .text e.path), ("variants", .texts e.variants)]
  .record <|
    [("name", .text m.name), ("functions", .list (m.functions.map Function.toDocument)),
     ("statics", .list statics), ("data", .list data), ("enums", .list enums)]
    ++ (m.init.map fun init => ("init", init.toDocument)).toList

def Program.toDocument (p : Program) : Document :=
  .record [("modules", .list (p.modules.map Module.toDocument))]

def Config.toDocument (c : Config) : Document :=
  .record
    [("yield_interval", .nat c.yieldInterval), ("max_frames", .nat c.maxFrames),
     ("default_budget", .nat c.defaultBudget), ("fusion", .bool c.fusion)]

end ScriptMachine
