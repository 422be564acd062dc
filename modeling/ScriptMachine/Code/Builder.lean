import ScriptMachine.Code.Instruction

/-!
# Assembling code

A builder writes instructions one after the other at a lexical depth. The combinators for loops,
branches, traps and deferred blocks place the jumps so that each one finds its own boundary.
-/

set_option autoImplicit false

namespace ScriptMachine

/-- Instructions so far, and the depth and line of the next one. -/
structure Builder where
  code : List Instruction := []
  depth : Nat := 0
  line : Nat := 0
deriving DecidableEq, Repr, Inhabited

namespace Builder

def atDepth (depth : Nat) : Builder := { depth }

def atLine (b : Builder) (line : Nat) : Builder := { b with line }

/-- Adds an instruction at the current depth and line. -/
def push (b : Builder) (ins : Instruction) : Builder :=
  { b with code := b.code ++ [{ ins with depth := b.depth, line := b.line }] }

def op (b : Builder) (op : Opcode) : Builder := b.push { op }

def int (b : Builder) (op : Opcode) (int : Int64) : Builder := b.push { op, int }

def float (b : Builder) (op : Opcode) (float : Double) : Builder := b.push { op, float }

def str (b : Builder) (op : Opcode) (s : String) : Builder := b.push { op, str := some s }

def strInt (b : Builder) (op : Opcode) (s : String) (int : Int64) : Builder :=
  b.push { op, str := some s, int }

def pushInt (b : Builder) (v : Int64) : Builder := b.int .pushInt v

def pushStr (b : Builder) (s : String) : Builder := b.str .pushString s

def load (b : Builder) (slot : Int64) : Builder := b.int .loadLocal slot

def store (b : Builder) (slot : Int64) : Builder := b.int .storeLocal slot

def level (b : Builder) : Int64 := Int64.ofNat b.depth

def nest (b : Builder) (body : Builder → Builder) : Builder :=
  let inner := body { b with depth := b.depth + 1 }
  { inner with depth := inner.depth - 1 }

/-- Repeats `body` while `cond` leaves a true condition on the stack. -/
def whileLoop (b : Builder) (cond body : Builder → Builder) : Builder :=
  let d := b.level
  ((b.op .nop).nest fun b => (body ((cond b).int .jumpIfFalse d)).int .jumpBack d).op .nop

def ifElse (b : Builder) (yes no : Builder → Builder) : Builder :=
  let d := b.level
  ((((b.int .jumpIfFalse d).nest yes).int .jump d).nest no).op .nop

/-- A guarded block: an error in `body` lands in `handler` with the error on the stack. -/
def trap (b : Builder) (body handler : Builder → Builder) : Builder :=
  let d := b.level
  ((((b.int .trapSet d).nest fun b => (body b).op .trapClear).int .jump d).nest handler).op .nop

/-- Deferred block `k`, which runs once if it is armed when the frame exits. -/
def deferred (b : Builder) (k : Int64) (body : Builder → Builder) : Builder :=
  ((b.int .deferCheck k).nest body).op .nop

/-- Runs `body` for each entry of the iterable on the stack; the iterator lives in a local slot. -/
def forEach (b : Builder) (slot : Int64) (body : Builder → Builder) : Builder :=
  let d := b.level
  ((((b.op .iterNew).store slot).op .nop).nest fun b =>
    (body ((b.load slot).int .iterNext d)).int .jumpBack d).op .nop

def build (b : Builder) : List Instruction × Builder := (b.code, { b with code := [] })

end Builder

end ScriptMachine
