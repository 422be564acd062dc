import ScriptMachine.Exec.Context

/-!
# Executing one instruction

Operands are taken off the stack from the top. An operand that was taken is let go when the
instruction is done with it, also if the instruction fails. An instruction that finds too few
operands fails after taking those that are there.
-/

set_option autoImplicit false

namespace ScriptMachine.Exec

variable {H : Type}

/-! ## Stack, locals and globals -/

def duplicate : Exec H Unit := do push (← readFrame Frame.peek).share

def swap : Exec H Unit := do
  let (a, b) ← popTwo
  push b
  push a

/-- Brings a shadowed binding back and disposes the inner one. -/
def restoreShadow (slot : Nat) : Exec H Unit := do
  let inner ← onFrame fun f => f.restoreShadow slot
  modify (letGo [inner])

def storeGlobal (path : String) : Exec H Unit := do
  let v ← pop
  match (← get).globals.store path v with
  | .ok (old, globals) => modify fun c => letGo old.toList { c with globals }
  | .error e =>
    modify (letGo [v])
    throw e

/-! ## Computation -/

/-- Replaces the top of the stack by what an operation computes from it. -/
def unary (op : Value → Exec H Value) : Exec H Unit := do
  let v ← pop
  push (← consuming [v] (op v))

/-- Replaces the two top values by what an operation computes from them. -/
def binary (op : Value → Value → Exec H Value) : Exec H Unit := do
  let (lhs, rhs) ← popTwo
  push (← consuming [lhs, rhs] (op lhs rhs))

def logic (conjunction : Bool) (lhs rhs : Value) : Except Error Value := do
  let a ← lhs.truthy
  let b ← rhs.truthy
  return .bool (if conjunction then a && b else a || b)

/-- Jumps if the top of the stack is a condition of the wanted truth. -/
def branch (when : Bool) (target : Nat) : Exec H Flow := do
  let v ← pop
  let truth ← consuming [v] (liftM v.truthy)
  return if truth = when then .jump target else .next

/-! ## Closures and calls -/

def makeClosure (units : UnitTable) (name : String) (n : Nat) : Exec H Unit := do
  match units.get? name with
  | none => throw ((← get).frame.malformed ("unknown unit '" ++ name ++ "'"))
  | some unit =>
    let captured ← popN n
    let h := (← get).heap
    let (captures, values) := h.pools.values.checkout n
    let (v, heap) := { h with pools := { h.pools with values } }.alloc
      (.callable (.script unit (captures.append captured)))
    modify fun c => { c with heap }
    push v

def loadCapture (slot : Nat) : Exec H Unit := do
  let c ← get
  match ← c.heap.callableOf c.frame.closure with
  | .script _ captures =>
    match captures.items[slot]? with
    | some v => push v.share
    | none => throw (c.frame.malformed s!"capture {slot} out of range")
  | .host _ _ => throw (c.frame.malformed s!"capture {slot} out of range")

def callValue (n : Nat) : Exec H Flow := do
  let args ← popN n
  let callee ← pop
  send args
  return .call (.value callee) .null

def callTarget (target : CallTarget) (n : Nat) : Exec H Flow := do
  send (← popN n)
  return .call target .null

def callMethod (name : String) (n : Nat) : Exec H Flow := do
  let args ← popN n
  let receiver ← pop
  let refuse (e : Error) : Exec H Flow := do
    modify (letGo (args ++ [receiver]))
    throw e
  match (← get).heap.getChild receiver (.str name) with
  | .error e => refuse e
  | .ok method =>
    if method.isNull then refuse (.typeMismatch ("receiver has no method '" ++ name ++ "'"))
    else
      send args
      return .call (.value method) receiver

def sendTop (n : Nat) (flow : Flow) : Exec H Flow := do
  send (← popN n)
  return flow

/-! ## Structures -/

/-- Reads an entry. A structure that only the operand owns would be gone afterwards, so the entry is
taken out of it. -/
def fetch (target key : Value) : Exec H Value :=
  if target.owns then liftM (Heap.deleteChild (H := H) target key)
  else readHeap fun h => h.getChild target key

def getKey : Exec H Unit := do
  let (target, key) ← popTwo
  push (← consuming [target, key] (fetch target key))

def getField (name : String) : Exec H Unit := do
  let target ← pop
  push (← consuming [target] (fetch target (.str name)))

def setKey : Exec H Unit := do
  let value ← pop
  let (target, key) ← popTwo
  consuming [key, target] (liftM (Heap.setChild (H := H) target key value))

def setField (name : String) : Exec H Unit := do
  let (target, value) ← popTwo
  consuming [target] (liftM (Heap.setChild (H := H) target (.str name) value))

def deleteKey : Exec H Unit := do
  let (target, key) ← popTwo
  push (← consuming [key, target] (liftM (Heap.deleteChild (H := H) target key)))

def hasKey : Exec H Unit := do
  let (target, key) ← popTwo
  push (.bool (← consuming [key, target] (readHeap fun h => h.hasChild target key)))

def append (front : Bool) : Exec H Unit := do
  let (target, value) ← popTwo
  consuming [target] (liftM (Heap.append (H := H) target value front))

def allocated (alloc : Heap H → Value × Heap H) : Exec H Unit := do
  let (v, heap) := alloc (← get).heap
  modify fun c => { c with heap }
  push v

/-! ## Deferred blocks and iterators -/

def checkDefer (k target : Nat) : Exec H Flow := do
  let c ← get
  let (armed, frame) := c.frame.takeDefer k
  set { c with frame }
  return if armed then .next else .jump target

/-- Issues again the exit that was held back for the deferred blocks; an error comes first. -/
def endDefer : Exec H Flow := do
  let c ← get
  match c.frame.pendingError, c.frame.pendingReturn with
  | some e, _ =>
    set { c with frame := { c.frame with pendingError := none } }
    throw e
  | none, some (.values vs) =>
    set { c with frame := { c.frame with pendingReturn := none } }
    send vs
    return .ret
  | none, some (.locals mask) =>
    set { c with frame := { c.frame with pendingReturn := none } }
    return .returnLocals mask
  | none, none => return .next

/-- Moves the iterator on top on; an ended one sends control to `exhausted`. -/
def iterNext (exhausted : Nat) : Exec H Flow := do
  let it ← pop
  match ← consuming [it] (liftM (Heap.advanceIterator (H := H) it)) with
  | .entry => return .next
  | .ended => return .jump exhausted
  | .generator handle => return .advance handle exhausted

/-! ## All instructions -/

def thenNext (op : Exec H Unit) : Exec H Flow := do
  op
  return .next

def single (units : UnitTable) (r : Resolved) : Exec H Flow :=
  let ins := r.ins
  match ins.op with
  | .nop => return .next
  | .pushNull | .pushInt | .pushFloat | .pushString | .pushBool | .pushEnum =>
    thenNext (push ins.literal)
  | .pop => thenNext do modify (letGo [← pop])
  | .dup => thenNext duplicate
  | .swap => thenNext swap
  | .autoConvert => thenNext (changeFrame fun f => f.updateTop Value.withAuto)
  | .loadLocal => thenNext do push (← readFrame fun f => f.readLocal ins.count).share
  | .moveLocal => thenNext do push (← onFrame fun f => f.takeLocal ins.count)
  | .storeLocal => thenNext do storeLocal ins.count (← pop)
  | .shadowSave => thenNext (changeFrame fun f => f.saveShadow ins.count)
  | .shadowRestore => thenNext (restoreShadow ins.count)
  | .loadGlobal => thenNext do push ((← get).globals.load ins.name)
  | .storeGlobal => thenNext (storeGlobal ins.name)
  | .eq | .ne | .lt | .le | .gt | .ge =>
    thenNext (binary fun a b => return .bool (ins.op.comparison.holds a b))
  | .add | .sub | .mul | .div | .mod =>
    thenNext (binary fun a b => liftM (ins.op.arithOp.apply a b))
  | .neg => thenNext (unary fun v => liftM v.negate)
  | .not => thenNext (unary fun v => do return .bool !(← v.truthy))
  | .and => thenNext (binary fun a b => liftM (logic true a b))
  | .or => thenNext (binary fun a b => liftM (logic false a b))
  | .jump | .jumpBack => return .jump r.jump
  | .jumpIfFalse => branch false r.jump
  | .jumpIfTrue => branch true r.jump
  | .makeClosure => thenNext (makeClosure units ins.name ins.count)
  | .loadCapture => thenNext (loadCapture ins.count)
  | .loadThis => thenNext do push (← get).frame.this.share
  | .call => callValue ins.count
  | .callDirect => callTarget (.unit ins.name) ins.count
  | .callName => callTarget (.path ins.name) ins.count
  | .callMethod => callMethod ins.name ins.count
  | .ret => sendTop ins.count .ret
  | .returnLocals => return .returnLocals ins.int.toUInt64
  | .newStruct => thenNext (allocated fun h => h.allocStructure ins.count)
  | .newQueue => thenNext (allocated fun h => h.allocQueue ins.count)
  | .getKey => thenNext getKey
  | .getField => thenNext (getField ins.name)
  | .setKey => thenNext setKey
  | .setField => thenNext (setField ins.name)
  | .deleteKey => thenNext deleteKey
  | .hasKey => thenNext hasKey
  | .length =>
    thenNext (unary fun v => do return .int (Int64.ofNat (← readHeap fun h => h.length v)))
  | .append => thenNext (append false)
  | .prepend => thenNext (append true)
  | .popFront => thenNext (unary fun v => liftM (Heap.popEnd (H := H) v true))
  | .popBack => thenNext (unary fun v => liftM (Heap.popEnd (H := H) v false))
  | .firstKey => thenNext (unary fun v => liftM (Heap.endKey (H := H) v true))
  | .lastKey => thenNext (unary fun v => liftM (Heap.endKey (H := H) v false))
  | .deepCopy => thenNext (unary fun v => liftM (Heap.deepCopy (H := H) v))
  | .shallowCopy => thenNext (unary fun v => liftM (Heap.shallowCopy (H := H) v))
  | .release => thenNext do liftM (Heap.release (H := H) (← pop))
  | .trapSet => thenNext (modify fun c => { c with frame := { c.frame with trap := some r.jump } })
  | .trapClear => thenNext (modify fun c => { c with frame := { c.frame with trap := none } })
  | .throw => do throw (.ofFault (.thrown (← pop)))
  | .fatal => throw (.fatal ins.name)
  | .deferArm => thenNext (changeFrame fun f => f.armDefer ins.count)
  | .deferCheck => checkDefer ins.count r.jump
  | .deferEnd => endDefer
  | .iterNew => thenNext do push (← liftM (Heap.openIterator (H := H) (← pop)))
  | .iterNext => iterNext r.jump
  | .iterKey => thenNext (unary fun v => readHeap fun h => h.currentEntry v true)
  | .iterValue => thenNext (unary fun v => readHeap fun h => h.currentEntry v false)
  | .yield => sendTop ins.count .yield
  | .finalize => return .finalize

end ScriptMachine.Exec
