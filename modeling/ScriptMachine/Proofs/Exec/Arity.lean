import ScriptMachine.Proofs.Exec.Underflow

/-!
# Stack effects

`Instruction.effect` is a table beside the code of the instructions, and nothing compares the two
while code runs. Here they are compared: an operation trades values of the operand stack for others
if it takes so many off the top and puts so many there, and what is below stays as it was. Each way
to build an operation has one rule, and the rules give for each instruction what the table says. An
instruction that calls takes its operands only; its results are put on the stack by the callee.
-/

set_option autoImplicit false

namespace ScriptMachine

variable {H α β : Type}

/-- Whether the instruction calls. -/
def Opcode.calls : Opcode → Bool
  | .call | .callDirect | .callName | .callMethod => true
  | _ => false

theorem Opcode.calls_iff {op : Opcode} :
    op.calls ↔ op = .call ∨ op = .callMethod ∨ op = .callDirect ∨ op = .callName := by
  cases op <;> simp [calls]

def Instruction.yields (ins : Instruction) : Nat := if ins.op.calls then 0 else ins.effect.2

def Context.Traded (pop push : Nat) (c d : Context H) : Prop :=
  pop ≤ c.frame.stack.length ∧
    ∃ vs : List Value, vs.length = push ∧ d.frame.stack = vs ++ c.frame.stack.drop pop

namespace Context.Traded

variable {p q p' q' : Nat} {c d e : Context H}

theorem of_stack (same : d.frame.stack = c.frame.stack) : Traded 0 0 c d :=
  ⟨Nat.zero_le _, [], rfl, by simpa using same⟩

/-- What comes second first takes what came first put there. -/
theorem trans (first : Traded p q c d) (second : Traded p' q' d e) :
    Traded (p + (p' - q)) (q' + (q - p')) c e := by
  obtain ⟨enough, vs, rfl, stack⟩ := first
  obtain ⟨enough', ws, rfl, stack'⟩ := second
  have height : d.frame.stack.length = vs.length + (c.frame.stack.length - p) := by
    rw [stack, List.length_append, List.length_drop]
  refine ⟨by omega, ws ++ vs.drop p', by rw [List.length_append, List.length_drop], ?_⟩
  rw [stack', stack, List.drop_append, List.drop_drop, List.append_assoc]

theorem length_eq (traded : Traded p q c d) :
    d.frame.stack.length = c.frame.stack.length - p + q := by
  obtain ⟨-, vs, rfl, stack⟩ := traded
  rw [stack, List.length_append, List.length_drop, Nat.add_comm]

end Context.Traded

namespace Exec

/-- If the operation succeeds, `pop` operands gave way to `push` other values. -/
def Trades (pop push : Nat) (op : Exec H α) : Prop :=
  ∀ c, op.Ensures c (fun _ d => c.Traded pop push d) fun _ _ => True

/-! ## Rules -/

section Rules
variable {p q p' q' : Nat} {op : Exec H α}

theorem Trades.bind {next : α → Exec H β} (first : Trades p q op)
    (second : ∀ a, Trades p' q' (next a)) :
    Trades (p + (p' - q)) (q' + (q - p')) (op >>= next) := by
  intro c
  rw [Effect.ensures_bind]
  refine (first c).mono (fun a d traded => ?_) fun _ _ _ => trivial
  exact (second a d).mono (fun _ _ again => traded.trans again) fun _ _ _ => trivial

/-- An operation that puts nothing on the stack, and one that takes nothing from it. -/
theorem Trades.gives {next : α → Exec H β} (first : Trades p 0 op)
    (second : ∀ a, Trades 0 q (next a)) : Trades p q (op >>= next) := by
  simpa using first.bind second

/-- What comes second leaves the stack alone. -/
theorem Trades.quietly {next : α → Exec H β} (first : Trades p q op)
    (second : ∀ a, Trades 0 0 (next a)) : Trades p q (op >>= next) := by
  simpa using first.bind second

theorem trades_pure (a : α) : Trades 0 0 (pure a : Exec H α) := fun _ => .of_stack rfl

theorem trades_throw (e : Error) : Trades p q (throw e : Exec H α) := fun _ => trivial

theorem trades_liftM (x : Except Error α) : Trades 0 0 (liftM x : Exec H α) := by
  intro c
  rw [Effect.ensures_liftM]
  cases x with
  | ok a => exact .of_stack rfl
  | error e => trivial

theorem trades_modify {f : Context H → Context H}
    (same : ∀ c, (f c).frame.stack = c.frame.stack) :
    Trades 0 0 (modify f : Exec H PUnit) := fun c => .of_stack (same c)

theorem trades_get {next : Context H → Exec H α} (rest : ∀ c, Trades p q (next c)) :
    Trades p q (get >>= next) := fun c => rest c c

theorem trades_heap (op : HeapM H α) : Trades 0 0 (liftM op : Exec H α) := by
  intro c
  show (Effect.onPart Context.heap (fun heap c => { c with heap }) op).Ensures c _ _
  rw [Effect.ensures_onPart]
  cases run : op c.heap with
  | ok a h => exact (Effect.ensures_of_eq_ok run).mpr (.of_stack rfl)
  | error e h => exact (Effect.ensures_of_eq_error run).mpr trivial

theorem trades_onFrame {op : Frame → Except Error (α × Frame)}
    (same : ∀ f a g, op f = .ok (a, g) → g.stack = f.stack) :
    Trades 0 0 (onFrame op : Exec H α) := by
  intro c
  simp only [onFrame, Effect.ensures_bind, Effect.ensures_get, Effect.ensures_liftM]
  cases run : op c.frame with
  | ok result => exact .of_stack (same _ _ _ run)
  | error e => trivial

theorem trades_changeFrame {op : Frame → Except Error Frame}
    (same : ∀ f g, op f = .ok g → g.stack = f.stack) :
    Trades 0 0 (changeFrame op : Exec H Unit) := by
  refine trades_onFrame fun f _ g changed => ?_
  obtain ⟨_, run, changed⟩ := ok_of_bind changed
  cases changed
  exact same f _ run

theorem trades_readFrame (op : Frame → Except Error α) :
    Trades 0 0 (readFrame op : Exec H α) := trades_get fun _ => trades_liftM _

theorem trades_readHeap (op : Heap H → Except Error α) :
    Trades 0 0 (readHeap op : Exec H α) := trades_get fun _ => trades_liftM _

theorem trades_letGo (vs : List Value) : Trades 0 0 (modify (letGo vs) : Exec H PUnit) :=
  trades_modify fun _ => rfl

theorem trades_send (vs : List Value) : Trades 0 0 (send vs : Exec H Unit) :=
  trades_modify fun _ => rfl

theorem Trades.consuming (trades : Trades p q op) (operands : List Value) :
    Trades p q (consuming operands op) := by
  intro c
  rw [Exec.consuming, Effect.ensures_andAlways]
  exact (trades c).mono (fun _ _ traded => traded) fun _ _ _ => trivial

theorem Trades.thenNext {op : Exec H Unit} (trades : Trades p q op) :
    Trades p q (thenNext op) := trades.quietly fun _ => trades_pure _

end Rules

/-! ## The operand stack -/

theorem trades_push (v : Value) : Trades 0 1 (push v : Exec H Unit) :=
  fun _ => ⟨Nat.zero_le _, [v], rfl, rfl⟩

theorem trades_pop : Trades 1 0 (pop : Exec H Value) := by
  intro c
  simp only [pop, onFrame, Effect.ensures_bind, Effect.ensures_get, Effect.ensures_liftM, Frame.pop]
  cases stack : c.frame.stack with
  | nil => trivial
  | cons v rest => exact ⟨by simp [stack], [], rfl, by simp [stack]⟩

theorem trades_popN (n : Nat) : Trades n 0 (popN n : Exec H (List Value)) := by
  intro c
  by_cases enough : n ≤ c.frame.stack.length
  · exact (Effect.ensures_of_eq_ok (popN_eq enough)).mpr ⟨enough, [], rfl, rfl⟩
  · exact (Effect.ensures_of_eq_error ((draws_popN n).1 c (by omega))).mpr trivial

theorem trades_operands {n p q : Nat} {next : List Value → Exec H α}
    (rest : ∀ vs, Trades p q (next vs)) : Trades (n + p) q (popN n >>= next) := by
  simpa using (trades_popN n).bind rest

theorem trades_popTwo : Trades 2 0 (popTwo : Exec H (Value × Value)) :=
  trades_pop.bind fun _ => trades_pop.bind fun _ => trades_pure _

theorem trades_peek : Trades 1 1 (readFrame (H := H) Frame.peek) := by
  intro c
  simp only [readFrame, Effect.ensures_bind, Effect.ensures_get, Effect.ensures_liftM, Frame.peek]
  cases stack : c.frame.stack with
  | nil => trivial
  | cons v rest => exact ⟨by simp [stack], [v], rfl, by simp [stack]⟩

theorem trades_updateTop (change : Value → Value) :
    Trades 1 1 (changeFrame (H := H) fun f => f.updateTop change) := by
  intro c
  simp only [changeFrame, onFrame, Effect.ensures_bind, Effect.ensures_get, Effect.ensures_liftM]
  cases stack : c.frame.stack with
  | nil =>
    have failed : c.frame.updateTop change = .error c.frame.underflow := by
      simp [Frame.updateTop, stack]
    rw [failed]
    trivial
  | cons v rest =>
    have updated : c.frame.updateTop change = .ok { c.frame with stack := change v :: rest } := by
      simp [Frame.updateTop, stack]
    rw [updated]
    exact ⟨by simp [stack], [change v], rfl, by simp [stack]⟩

/-! ## Operations -/

theorem trades_duplicate : Trades 1 2 (duplicate : Exec H Unit) :=
  trades_peek.bind fun v => trades_push v.share

theorem stack_swapLocal {f g : Frame} {slot : Nat} {v w : Value}
    (swapped : f.swapLocal slot v = .ok (w, g)) : g.stack = f.stack := by
  unfold Frame.swapLocal at swapped
  split at swapped <;> cases swapped
  rfl

theorem stack_saveShadow {f g : Frame} {slot : Nat} (saved : f.saveShadow slot = .ok g) :
    g.stack = f.stack := by
  obtain ⟨result, taken, saved⟩ := ok_of_bind saved
  cases saved
  exact (stack_swapLocal taken : result.2.stack = f.stack)

theorem stack_restoreShadow {f g : Frame} {slot : Nat} {v : Value}
    (restored : f.restoreShadow slot = .ok (v, g)) : g.stack = f.stack := by
  unfold Frame.restoreShadow at restored
  split at restored
  · cases restored
  · exact (stack_swapLocal restored).trans rfl

theorem stack_armDefer {f g : Frame} {k : Nat} (armed : f.armDefer k = .ok g) :
    g.stack = f.stack := by
  unfold Frame.armDefer at armed
  split at armed <;> cases armed
  rfl

theorem trades_storeLocal (slot : Nat) (v : Value) :
    Trades 0 0 (storeLocal slot v : Exec H Unit) := by
  intro c
  simp only [storeLocal, Effect.ensures_bind, Effect.ensures_get]
  cases swapped : c.frame.swapLocal slot v with
  | ok result => exact .of_stack (stack_swapLocal swapped)
  | error e => trivial

theorem trades_storeGlobal (path : String) : Trades 1 0 (storeGlobal path : Exec H Unit) := by
  refine trades_pop.gives fun v => trades_get fun c => ?_
  cases c.globals.store path v with
  | ok result => exact trades_modify fun _ => rfl
  | error e => exact (trades_letGo [v]).gives fun _ => trades_throw e

theorem trades_unary {op : Value → Exec H Value} (inner : ∀ v, Trades 0 0 (op v)) :
    Trades 1 1 (unary op) :=
  trades_pop.gives fun v => ((inner v).consuming [v]).gives trades_push

theorem trades_binary {op : Value → Value → Exec H Value} (inner : ∀ a b, Trades 0 0 (op a b)) :
    Trades 2 1 (binary op) :=
  trades_popTwo.gives fun (a, b) => ((inner a b).consuming [a, b]).gives trades_push

theorem trades_branch (when : Bool) (target : Nat) :
    Trades 1 0 (branch when target : Exec H Flow) :=
  trades_pop.gives fun v => ((trades_liftM v.truthy).consuming [v]).gives fun _ => trades_pure _

theorem trades_makeClosure (units : UnitTable) (name : String) (n : Nat) :
    Trades n 1 (makeClosure units name n : Exec H Unit) := by
  unfold makeClosure
  cases units.get? name with
  | none => exact trades_get fun _ => trades_throw _
  | some unit =>
    exact (trades_popN n).gives fun _ => trades_get fun _ =>
      (trades_modify fun _ => rfl).gives fun _ => trades_push _

theorem trades_loadCapture (slot : Nat) : Trades 0 1 (loadCapture slot : Exec H Unit) := by
  refine trades_get fun c => (trades_liftM (c.heap.callableOf c.frame.closure)).gives fun callee => ?_
  cases callee with
  | host => exact trades_throw _
  | script unit captures =>
    cases found : captures.items[slot]? with
    | none => simp only [found]; exact trades_throw _
    | some v => simp only [found]; exact trades_push _

theorem trades_callMethod (name : String) (n : Nat) :
    Trades (n + 1) 0 (callMethod name n : Exec H Flow) := by
  refine trades_operands fun args => trades_pop.gives fun receiver => trades_get fun c => ?_
  have refuse : ∀ e : Error, Trades (H := H) (α := Flow) 0 0 (do
      modify (letGo (args ++ [receiver]))
      throw e) := fun e => (trades_letGo _).gives fun _ => trades_throw e
  cases c.heap.getChild receiver (.str name) with
  | error e => exact refuse e
  | ok method =>
    dsimp only
    split
    · exact refuse _
    · exact (trades_send args).gives fun _ => trades_pure _

theorem trades_sendTop (n : Nat) (flow : Flow) : Trades n 0 (sendTop n flow : Exec H Flow) :=
  (trades_popN n).gives fun args => (trades_send args).gives fun _ => trades_pure _

theorem trades_fetch (target key : Value) : Trades 0 0 (fetch target key : Exec H Value) := by
  unfold fetch
  split
  · exact trades_heap _
  · exact trades_readHeap _

theorem trades_allocated (alloc : Heap H → Value × Heap H) :
    Trades 0 1 (allocated alloc : Exec H Unit) :=
  trades_get fun _ => (trades_modify fun _ => rfl).gives fun _ => trades_push _

theorem trades_setKey : Trades 3 0 (setKey : Exec H Unit) :=
  trades_pop.bind fun value => trades_popTwo.gives fun (target, key) =>
    (trades_heap (Heap.setChild target key value)).consuming _

theorem trades_append (front : Bool) : Trades 2 0 (append front : Exec H Unit) :=
  trades_popTwo.gives fun (target, value) => (trades_heap (Heap.append target value front)).consuming _

theorem trades_checkDefer (k target : Nat) : Trades 0 0 (checkDefer k target : Exec H Flow) :=
  fun _ => .of_stack rfl

theorem trades_endDefer : Trades 0 0 (endDefer : Exec H Flow) := by
  intro c
  simp only [endDefer, Effect.ensures_bind, Effect.ensures_get]
  split
  · trivial
  all_goals exact .of_stack rfl

theorem trades_iterNext (exhausted : Nat) : Trades 1 0 (iterNext exhausted : Exec H Flow) := by
  refine trades_pop.gives fun it => ((trades_heap (Heap.advanceIterator it)).consuming _).gives
    fun came => ?_
  cases came <;> exact trades_pure _

/-! ## Instructions -/

theorem single_trades (units : UnitTable) (r : Resolved) :
    Trades r.ins.effect.1 r.ins.yields (single (H := H) units r) := by
  unfold single Instruction.yields Instruction.effect
  cases op : r.ins.op <;> simp only [op, Opcode.calls, Bool.false_eq_true, if_true, if_false]
  case nop | jump | jumpBack | returnLocals | finalize => exact trades_pure _
  case fatal => exact trades_throw _
  case pushNull | pushInt | pushFloat | pushString | pushBool | pushEnum =>
    exact (trades_push _).thenNext
  case pop => exact (trades_pop.gives fun v => trades_letGo [v]).thenNext
  case dup => exact trades_duplicate.thenNext
  case swap =>
    exact (trades_popTwo.gives fun (a, b) => (trades_push b).bind fun _ => trades_push a).thenNext
  case autoConvert => exact (trades_updateTop _).thenNext
  case loadLocal => exact ((trades_readFrame _).gives fun v => trades_push (Value.share v)).thenNext
  case moveLocal => exact ((trades_onFrame fun _ _ _ => stack_swapLocal).gives trades_push).thenNext
  case storeLocal => exact (trades_pop.gives fun v => trades_storeLocal _ v).thenNext
  case shadowSave => exact (trades_changeFrame fun _ _ => stack_saveShadow).thenNext
  case shadowRestore =>
    exact ((trades_onFrame fun _ _ _ => stack_restoreShadow).gives fun v => trades_letGo [v]).thenNext
  case loadGlobal | loadThis => exact (trades_get fun _ => trades_push _).thenNext
  case storeGlobal => exact (trades_storeGlobal _).thenNext
  case eq | ne | lt | le | gt | ge => exact (trades_binary fun _ _ => trades_pure _).thenNext
  case add | sub | mul | div | mod | and | or =>
    exact (trades_binary fun _ _ => trades_liftM _).thenNext
  case neg => exact (trades_unary fun _ => trades_liftM _).thenNext
  case not => exact (trades_unary fun _ => (trades_liftM _).gives fun _ => trades_pure _).thenNext
  case jumpIfFalse | jumpIfTrue => exact trades_branch _ _
  case makeClosure => exact (trades_makeClosure units _ _).thenNext
  case loadCapture => exact (trades_loadCapture _).thenNext
  case call =>
    exact trades_operands fun args => trades_pop.gives fun _ => (trades_send args).gives fun _ =>
      trades_pure _
  case callDirect | callName | ret | yield => exact trades_sendTop _ _
  case callMethod => exact trades_callMethod _ _
  case newStruct | newQueue => exact (trades_allocated _).thenNext
  case getKey =>
    exact (trades_popTwo.gives fun (target, key) =>
      ((trades_fetch target key).consuming _).gives trades_push).thenNext
  case getField =>
    exact (trades_pop.gives fun target =>
      ((trades_fetch target _).consuming _).gives trades_push).thenNext
  case setKey => exact trades_setKey.thenNext
  case setField =>
    exact (trades_popTwo.gives fun (target, value) =>
      (trades_heap (Heap.setChild target _ value)).consuming _).thenNext
  case deleteKey =>
    exact (trades_popTwo.gives fun (target, key) =>
      ((trades_heap (Heap.deleteChild target key)).consuming _).gives trades_push).thenNext
  case hasKey =>
    exact (trades_popTwo.gives fun (target, key) =>
      ((trades_readHeap _).consuming _).gives fun _ => trades_push _).thenNext
  case length =>
    exact (trades_unary fun _ => (trades_readHeap _).gives fun _ => trades_pure _).thenNext
  case append | prepend => exact (trades_append _).thenNext
  case popFront | popBack | firstKey | lastKey | deepCopy | shallowCopy =>
    exact (trades_unary fun _ => trades_heap _).thenNext
  case release => exact (trades_pop.gives fun v => trades_heap (Heap.release v)).thenNext
  case trapSet | trapClear => exact (trades_modify fun _ => rfl).thenNext
  case throw => exact trades_pop.gives fun _ => trades_throw _
  case deferArm => exact (trades_changeFrame fun _ _ => stack_armDefer).thenNext
  case deferCheck => exact trades_checkDefer _ _
  case deferEnd => exact trades_endDefer
  case iterNew =>
    exact (trades_pop.gives fun v => (trades_heap (Heap.openIterator v)).gives trades_push).thenNext
  case iterNext => exact trades_iterNext _
  case iterKey | iterValue => exact (trades_unary fun _ => trades_readHeap _).thenNext

/-- An instruction that finds too few operands refuses, whatever the reason. -/
theorem single_short (units : UnitTable) (r : Resolved) {c : Context H}
    (short : c.frame.stack.length < r.ins.effect.1) :
    ∃ reason d, single units r c = .error (c.frame.malformed reason) d := by
  by_cases known : r.ins.op = .makeClosure → (units.get? r.ins.name).isSome
  · exact ⟨_, _, asks_single units r known c short⟩
  · -- the unit of a closure is looked up before its captures are asked for
    obtain ⟨closure, unknown⟩ := Classical.not_imp.mp known
    have missing : units.get? r.ins.name = none := by simpa using unknown
    refine ⟨"unknown unit '" ++ r.ins.name ++ "'", c, Effect.eq_error_of_ensures ?_⟩
    simp [single, closure, thenNext, makeClosure, missing]

/-- The table of stack effects says what the instructions do. With fewer operands than it says an
instruction is refused as malformed. Otherwise, if it succeeds, all that lies below these operands
is untouched, and the stack is as high as the table says; a call leaves its results to the callee.
-/
theorem single_arity (units : UnitTable) (r : Resolved) (c : Context H) :
    (c.frame.stack.length < r.ins.effect.1 →
      ∃ reason d, single units r c = .error (c.frame.malformed reason) d) ∧
    (r.ins.effect.1 ≤ c.frame.stack.length → ∀ flow d, single units r c = .ok flow d →
      (∃ vs, d.frame.stack = vs ++ c.frame.stack.drop r.ins.effect.1) ∧
      d.frame.stack.length =
        if r.ins.op.calls then c.frame.stack.length - r.ins.effect.1
        else c.frame.stack.length - r.ins.effect.1 + r.ins.effect.2) := by
  refine ⟨fun short => single_short units r short, fun _ flow d run => ?_⟩
  have traded := (Effect.ensures_of_eq_ok run).mp (single_trades units r c)
  have height := traded.length_eq
  obtain ⟨-, vs, -, stack⟩ := traded
  refine ⟨⟨vs, stack⟩, ?_⟩
  rw [height, Instruction.yields]
  split <;> rfl

def sumAbove : Context Unit :=
  { heap := {}, globals := {}, channel := []
    frame := { stack := [.int 2, .int 1, .int 7], capacity := 0 } }

theorem single_arity_sumAbove : ∃ d, single {} addition sumAbove = .ok .next d ∧
    (∃ vs, d.frame.stack = vs ++ [.int 7]) ∧ d.frame.stack.length = 2 := by
  have run : single {} addition sumAbove = .ok .next
      { sumAbove with frame := { stack := [.int 3, .int 7], capacity := 0 } } := rfl
  exact ⟨_, run, (single_arity {} addition sumAbove).2 (by decide) _ _ run⟩

end Exec

end ScriptMachine
