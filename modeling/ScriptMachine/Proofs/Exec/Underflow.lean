import ScriptMachine.Machine.Run
import ScriptMachine.Proofs.Exec.Ownership

/-!
# Too few operands

What is left of an instruction that found too few operands. The first operands are taken in one go,
and if these are not there then nothing has happened. The others are taken one at a time, so the
operand stack is empty when the missing one is asked for: whatever it held has no place any more and
was not let go of either. Everything else is as it was.
-/

set_option autoImplicit false

namespace ScriptMachine

variable {H α β : Type}

/-- Operands that are taken in one go. -/
def Instruction.opening (ins : Instruction) : Nat :=
  match ins.op with
  | .makeClosure | .call | .callDirect | .callName | .callMethod | .ret | .yield => ins.count
  | _ => 1

namespace Context

def stripped (c : Context H) : Context H := { c with frame := { c.frame with stack := [] } }

def drawn (n : Nat) (c : Context H) : Context H :=
  { c with frame := { c.frame with stack := c.frame.stack.drop n } }

/-- What is left if the operands ran out and `opening` of them are taken in one go. -/
def remains (opening : Nat) (c : Context H) : Context H :=
  if c.frame.stack.length < opening then c else c.stripped

theorem tally_stripped (c : Context H) (x : Handle) :
    tally x c.held = tally x c.stripped.held + tally x c.frame.stack := by
  simp only [held, stripped, tally_append, Frame.tally_held, tally_nil, Frame.pendingValues,
    Frame.returnedValues, Frame.thrownValues]
  omega

theorem drawn_length (n : Nat) (c : Context H) :
    (c.drawn n).frame.stack.length = c.frame.stack.length - n := List.length_drop

theorem remains_drawn {n : Nat} {c : Context H} (enough : n ≤ c.frame.stack.length) :
    (c.drawn n).remains 1 = c.remains n := by
  have kept : ¬ c.frame.stack.length < n := by omega
  rw [remains, remains, if_neg kept, drawn_length]
  split
  · have last : c.frame.stack.drop n = [] := List.drop_eq_nil_of_le (by omega)
    rw [drawn, last]
    rfl
  · rfl

end Context

namespace Exec

def Asks (opening total : Nat) (op : Exec H α) : Prop :=
  ∀ c, c.frame.stack.length < total → op c = .error c.frame.underflow (c.remains opening)

def Draws (n : Nat) (op : Exec H α) : Prop :=
  Asks n n op ∧ ∀ c, n ≤ c.frame.stack.length → ∃ a, op c = .ok a (c.drawn n)

theorem asks_none {opening : Nat} (op : Exec H α) : Asks opening 0 op :=
  fun _ short => (Nat.not_lt_zero _ short).elim

/-- What comes after an operation that failed does not matter. -/
theorem Asks.bind {opening total : Nat} {op : Exec H α} (asks : Asks opening total op)
    (next : α → Exec H β) : Asks opening total (op >>= next) := by
  intro c short
  simp only [Bind.bind, EStateM.bind, asks c short]

/-- After the operands of the opening the others are asked for one at a time. -/
theorem Draws.bind {n more : Nat} {op : Exec H α} {next : α → Exec H β} (draws : Draws n op)
    (asks : ∀ a, Asks 1 more (next a)) : Asks n (n + more) (op >>= next) := by
  intro c short
  by_cases enough : n ≤ c.frame.stack.length
  · obtain ⟨a, took⟩ := draws.2 c enough
    have fewer : (c.drawn n).frame.stack.length < more := by
      rw [c.drawn_length]
      omega
    have failed := asks a (c.drawn n) fewer
    rw [Context.remains_drawn enough] at failed
    simp only [Bind.bind, EStateM.bind, took, failed]
    rfl
  · exact draws.1.bind next c (by omega)

theorem draws_pop : Draws 1 (pop : Exec H Value) := by
  refine ⟨fun c short => ?_, fun c enough => ?_⟩ <;> cases stack : c.frame.stack with
  | nil => ?_
  | cons v rest => ?_
  · refine Effect.eq_error_of_ensures ?_
    simp [pop, onFrame, Frame.pop, stack, Context.remains]
  · simp [stack] at short
  · simp [stack] at enough
  · refine ⟨v, Effect.eq_ok_of_ensures ?_⟩
    simp [pop, onFrame, Frame.pop, stack, Context.drawn]

theorem popN_eq {n : Nat} {c : Context H} (enough : n ≤ c.frame.stack.length) :
    popN n c = .ok (c.frame.stack.take n).reverse (c.drawn n) := by
  refine Effect.eq_ok_of_ensures ?_
  simp [popN, onFrame, Frame.popN, Nat.not_lt.mpr enough, Context.drawn]

theorem draws_popN (n : Nat) : Draws n (popN n : Exec H (List Value)) := by
  refine ⟨fun c short => ?_, fun c enough => ⟨_, popN_eq enough⟩⟩
  refine Effect.eq_error_of_ensures ?_
  simp [popN, onFrame, Frame.popN, short, Context.remains]

theorem asks_pop (next : Value → Exec H β) : Asks 1 1 (pop >>= next) := draws_pop.1.bind next

theorem asks_popN (n : Nat) (next : List Value → Exec H β) : Asks n n (popN n >>= next) :=
  (draws_popN n).1.bind next

theorem asks_popTwo : Asks 1 2 (popTwo : Exec H (Value × Value)) :=
  draws_pop.bind fun _ => asks_pop _

theorem asks_peek : Asks 1 1 (readFrame (H := H) Frame.peek) := by
  intro c short
  have none : c.frame.stack = [] := List.length_eq_zero_iff.mp (by omega)
  refine Effect.eq_error_of_ensures ?_
  simp [readFrame, Frame.peek, none, Context.remains]

theorem asks_updateTop (change : Value → Value) :
    Asks 1 1 (changeFrame (H := H) fun f => f.updateTop change) := by
  intro c short
  have none : c.frame.stack = [] := List.length_eq_zero_iff.mp (by omega)
  refine Effect.eq_error_of_ensures ?_
  have failed : c.frame.updateTop change = .error c.frame.underflow := by
    simp [Frame.updateTop, none]
  simp only [changeFrame, onFrame, Effect.ensures_bind, Effect.ensures_get, failed]
  exact ⟨rfl, by simp [Context.remains, none]⟩

theorem asks_unary (op : Value → Exec H Value) : Asks 1 1 (thenNext (unary op)) :=
  ((asks_pop _).bind _)

theorem asks_binary (op : Value → Value → Exec H Value) : Asks 1 2 (thenNext (binary op)) :=
  ((asks_popTwo.bind _).bind _)

theorem asks_setKey : Asks 1 3 (setKey : Exec H Unit) :=
  draws_pop.bind fun _ => asks_popTwo.bind _

theorem asks_makeClosure {units : UnitTable} {name : String} (n : Nat)
    (known : (units.get? name).isSome) :
    Asks n n (thenNext (H := H) (makeClosure units name n)) := by
  obtain ⟨unit, found⟩ := Option.isSome_iff_exists.mp known
  refine Asks.bind ?_ _
  rw [makeClosure, found]
  exact asks_popN n _

theorem asks_single (units : UnitTable) (r : Resolved)
    (known : r.ins.op = .makeClosure → (units.get? r.ins.name).isSome) :
    Asks r.ins.opening r.ins.effect.1 (single (H := H) units r) := by
  unfold single Instruction.opening Instruction.effect
  dsimp only
  cases op : r.ins.op <;> dsimp only
  case makeClosure => exact asks_makeClosure _ (known op)
  case call | callMethod => exact (draws_popN _).bind fun _ => asks_pop _
  case callDirect | callName | ret | yield => exact asks_popN _ _
  case dup => exact (asks_peek.bind _).bind _
  case autoConvert => exact (asks_updateTop _).bind _
  case setKey => exact asks_setKey.bind _
  case swap | getKey | setField | deleteKey | hasKey | append | prepend =>
    exact (asks_popTwo.bind _).bind _
  case eq | ne | lt | le | gt | ge | add | sub | mul | div | mod | and | or => exact asks_binary _
  case neg | not | length | popFront | popBack | firstKey | lastKey | deepCopy | shallowCopy
      | iterKey | iterValue => exact asks_unary _
  case jumpIfFalse | jumpIfTrue | throw | iterNext => exact asks_pop _
  case pop | storeLocal | storeGlobal | getField | release | iterNew =>
    exact (asks_pop _).bind _
  all_goals exact asks_none _

/-- An instruction that finds too few operands fails, and all that has changed is that the operand
stack may have been emptied. That happens if the operands of its opening were there. The owners
among them are gone then, so no owner is lost only if there were none. -/
theorem single_underflow (units : UnitTable) (r : Resolved) (c : Context H)
    (short : c.frame.stack.length < r.ins.effect.1) :
    ∃ reason, single units r c = .error (c.frame.malformed reason) (c.remains r.ins.opening) ∧
      ((∀ x, tally x (c.remains r.ins.opening).held = tally x c.held) ↔
        c.frame.stack.length < r.ins.opening ∨ Bare c.frame.stack) := by
  have lost : (∀ x, tally x (c.remains r.ins.opening).held = tally x c.held) ↔
      c.frame.stack.length < r.ins.opening ∨ Bare c.frame.stack := by
    unfold Context.remains
    split
    · simp_all
    · rename_i opened
      simp only [opened, false_or, Bare, c.tally_stripped]
      exact forall_congr' fun x => by omega
  by_cases known : r.ins.op = .makeClosure → (units.get? r.ins.name).isSome
  · exact ⟨_, asks_single units r known c short, lost⟩
  · -- a closure over an unknown unit fails before any operand is asked for
    obtain ⟨closure, unknown⟩ := Classical.not_imp.mp known
    have missing : units.get? r.ins.name = none := by simpa using unknown
    have opening : c.frame.stack.length < r.ins.opening := by
      simpa [Instruction.opening, Instruction.effect, closure] using short
    refine ⟨"unknown unit '" ++ r.ins.name ++ "'", ?_, lost⟩
    rw [Context.remains, if_pos opening]
    refine Effect.eq_error_of_ensures ?_
    simp [single, closure, thenNext, makeClosure, missing]

/-! An addition that finds the owner of a structure and nothing else. -/

def addition : Resolved := { ins := { op := .add } }

def oneOwner : Context Unit :=
  { heap := (({} : Heap Unit).allocStructure 0).2
    globals := {}
    frame := { stack := [.owned ⟨.struct, ⟨0, 0⟩⟩], capacity := 0 }
    channel := [] }

theorem single_underflow_addition : oneOwner.frame.stack.length < addition.ins.effect.1 ∧
    ∃ reason,
      single {} addition oneOwner = .error (oneOwner.frame.malformed reason) oneOwner.stripped ∧
      ((∀ x, tally x oneOwner.stripped.held = tally x oneOwner.held) ↔
        oneOwner.frame.stack.length < 1 ∨ Bare oneOwner.frame.stack) :=
  ⟨by decide, single_underflow {} addition oneOwner (by decide)⟩

end Exec

/-! The same in a run of a job: the structure outlives the job and the machine. -/

def spill : Function :=
  { name := "spill", code := [{ op := .newStruct }, { op := .add }, { op := .ret }] }

/-- A job that runs `spill` to its end: the error that it answers, and the machine and the job that
it leaves. -/
def spilled : Option (Option Error × Session Unit Unit) :=
  let host : Host Unit Unit := { call := fun _ c w => (.finished, c, w), report := fun _ w => w }
  let call : SessionM Unit Unit Unit :=
    Session.startUnit (spill.assemble (List.replicate 3 none) false) []
  (Session.run host 5 (call.outcome ⟨{ world := () }, {}⟩).2).map fun (answer, s) =>
    (match answer with | .ok _ => none | .error e => some e, s)

theorem spilled_outlives_shutdown :
    spilled.map (fun (e, s) =>
      (e, s.job.depth, s.job.channel ++ s.machine.globals.values, s.machine.heap.live,
        s.machine.shutdown.heap.live)) =
      some (some (.malformed "spill" "operand stack underflow"), 0, [], 1, 1) := by
  decide +kernel

end ScriptMachine
