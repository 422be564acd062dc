import ScriptMachine.Exec.Action
import ScriptMachine.Proofs.Code.Folding
import ScriptMachine.Proofs.Effect

/-!
# A folded run does what its instructions do

The action of a step has the effect that the instructions it covers have one after the other, for
every content of the slots and the stack, down to the errors and to what has happened before them.
-/

set_option autoImplicit false

namespace ScriptMachine

@[simp] theorem Value.share_owns (v : Value) : v.share.owns = false := by
  unfold share owns
  cases v.content <;> rfl

@[simp] theorem Heap.dispose_of_not_owns {H : Type} (h : Heap H) {v : Value}
    (borrowed : v.owns = false) : h.dispose v = h := by
  simp [Heap.dispose, borrowed]

theorem Heap.disposeAll_of_not_owns {H : Type} {h : Heap H} {vs : List Value}
    (borrowed : ∀ v ∈ vs, v.owns = false) : h.disposeAll vs = h := by
  induction vs with
  | nil => rfl
  | cons v vs ih =>
    obtain ⟨first, rest⟩ := List.forall_mem_cons.mp borrowed
    rw [Heap.disposeAll, List.foldl_cons, Heap.dispose_of_not_owns h first]
    exact ih rest

namespace Exec

variable {H : Type} (units : UnitTable) {r : Resolved} {rest : List Resolved} {c : Context H}

theorem letGo_of_not_owns {vs : List Value} (borrowed : ∀ v ∈ vs, v.owns = false) (c : Context H) :
    letGo vs c = c := by
  rw [letGo, Heap.disposeAll_of_not_owns borrowed]

/-! ## Instructions that are folded -/

theorem single_loadLocal (loads : r.ins.op = .loadLocal) {v : Value}
    (read : c.frame.readLocal r.ins.count = .ok v) :
    single units r c = .ok .next { c with frame := c.frame.push v.share } := by
  apply Effect.eq_ok_of_ensures
  unfold single
  simp [loads, thenNext, readFrame, push, read]

theorem single_loadLocal_error (loads : r.ins.op = .loadLocal) {e : Error}
    (read : c.frame.readLocal r.ins.count = .error e) : single units r c = .error e c := by
  apply Effect.eq_error_of_ensures
  unfold single
  simp [loads, thenNext, readFrame, read]

theorem single_literal (pushes : r.ins.op ∈ Fusion.literals) :
    single units r c = .ok .next { c with frame := c.frame.push r.ins.literal } := by
  simp only [Fusion.literals, List.mem_cons, List.not_mem_nil, or_false] at pushes
  apply Effect.eq_ok_of_ensures
  unfold single
  rcases pushes with op | op | op | op | op | op <;> simp [op, thenNext, push]

theorem single_nop (idle : r.ins.op = .nop) : single units r c = .ok .next c := by
  unfold single
  simp only [idle]
  rfl

theorem single_pop (pops : r.ins.op = .pop) {v : Value} {stack : List Value}
    (operands : c.frame.stack = v :: stack) (borrowed : v.owns = false) :
    single units r c = .ok .next { c with frame := { c.frame with stack } } := by
  apply Effect.eq_ok_of_ensures
  unfold single
  simp [pops, thenNext, pop, onFrame, Frame.pop, operands, letGo_of_not_owns, borrowed]

/-- How an instruction ends that has taken its operands and computed `x`. -/
def answered (x : Except Error Value) (c : Context H) : EStateM.Result Error (Context H) Flow :=
  match x with
  | .ok v => .ok .next { c with frame := c.frame.push v }
  | .error e => .error e c

theorem binary_of_not_owns {a b : Value} {stack : List Value}
    (operands : c.frame.stack = b :: a :: stack) (left : a.owns = false) (right : b.owns = false)
    (op : Value → Value → Exec H Value) (x : Except Error Value) (computes : op a b = liftM x) :
    thenNext (binary op) c = answered x { c with frame := { c.frame with stack } } := by
  have borrowed : ∀ v ∈ [a, b], v.owns = false := by simp [left, right]
  cases x with
  | ok v =>
    apply Effect.eq_ok_of_ensures
    simp [thenNext, binary, popTwo, pop, onFrame, Frame.pop, operands, consuming, computes,
      letGo_of_not_owns borrowed, push, Frame.push]
  | error e =>
    apply Effect.eq_error_of_ensures
    simp [thenNext, binary, popTwo, pop, onFrame, Frame.pop, operands, consuming, computes,
      letGo_of_not_owns borrowed]

theorem single_compare (compares : r.ins.op ∈ Fusion.comparisons) {a b : Value}
    {stack : List Value} (operands : c.frame.stack = b :: a :: stack) (left : a.owns = false)
    (right : b.owns = false) :
    single units r c =
      .ok .next { c with frame := { c.frame with
        stack := .bool (r.ins.op.comparison.holds a b) :: stack } } := by
  have run := binary_of_not_owns operands left right
    (fun a b => return .bool (r.ins.op.comparison.holds a b))
    (.ok (.bool (r.ins.op.comparison.holds a b))) rfl
  simp only [Fusion.comparisons, List.mem_cons, List.not_mem_nil, or_false] at compares
  unfold single
  rcases compares with op | op | op | op | op | op <;> simp only [op] at run ⊢ <;> exact run

theorem single_arith (computes : r.ins.op ∈ Fusion.ariths) {a b : Value} {stack : List Value}
    (operands : c.frame.stack = b :: a :: stack) (left : a.owns = false)
    (right : b.owns = false) :
    single units r c =
      answered (r.ins.op.arithOp.apply a b) { c with frame := { c.frame with stack } } := by
  have run := binary_of_not_owns operands left right
    (fun a b => liftM (r.ins.op.arithOp.apply a b)) _ rfl
  simp only [Fusion.ariths, List.mem_cons, List.not_mem_nil, or_false] at computes
  unfold single
  rcases computes with op | op | op | op | op <;> simp only [op] at run ⊢ <;> exact run

theorem pop_run {v : Value} {stack : List Value} (operands : c.frame.stack = v :: stack) :
    (pop : Exec H Value) c = .ok v { c with frame := { c.frame with stack } } := by
  apply Effect.eq_ok_of_ensures
  simp [pop, onFrame, Frame.pop, operands]

theorem single_storeLocal (stores : r.ins.op = .storeLocal) {v : Value} {stack : List Value}
    (operands : c.frame.stack = v :: stack) :
    single units r c =
      thenNext (storeLocal r.ins.count v) { c with frame := { c.frame with stack } } := by
  unfold single
  simp only [stores, thenNext, bind, EStateM.bind, pop_run operands]

theorem single_jumpIfFalse (branches : r.ins.op = .jumpIfFalse) {b : Bool} {stack : List Value}
    (operands : c.frame.stack = .bool b :: stack) :
    single units r c =
      .ok (if b then .next else .jump r.jump) { c with frame := { c.frame with stack } } := by
  have borrowed : ∀ v ∈ [Value.bool b], v.owns = false := by simp [Value.owns, Value.bool]
  have truthy : (Value.bool b).truthy = .ok b := rfl
  apply Effect.eq_ok_of_ensures
  unfold single
  simp only [branches, branch, pop, onFrame, Frame.pop, operands, consuming, truthy,
    letGo_of_not_owns borrowed, Effect.ensures_bind, Effect.ensures_get, Effect.ensures_set,
    Effect.ensures_liftM, Effect.ensures_pure, Effect.ensures_andAlways]
  cases b <;> simp

/-! ## Instructions in order -/

theorem sequence_next {c' : Context H} (run : single units r c = .ok .next c') :
    sequence units (r :: rest) c = sequence units rest c' := by
  rw [sequence]
  simp only [bind, EStateM.bind, run]

theorem sequence_stop {c' : Context H} {flow : Flow} (run : single units r c = .ok flow c')
    (leaves : flow ≠ .next) : sequence units (r :: rest) c = .ok flow c' := by
  rw [sequence]
  simp only [bind, EStateM.bind, run]
  cases flow <;> first | exact absurd rfl leaves | rfl

theorem sequence_error {c' : Context H} {e : Error} (run : single units r c = .error e c') :
    sequence units (r :: rest) c = .error e c' := by
  rw [sequence]
  simp only [bind, EStateM.bind, run]

theorem sequence_last (r : Resolved) : sequence units [r] c = single units r c := by
  cases run : single units r c with
  | error e c' => exact sequence_error units run
  | ok flow c' =>
    by_cases next : flow = .next
    · subst next
      exact sequence_next units run
    · exact sequence_stop units run next

/-! ## Folded runs -/

theorem thenNext_ok {op : Exec H Unit} {c' : Context H} (run : op c = .ok () c') :
    thenNext op c = .ok .next c' := by
  simp only [thenNext, bind, EStateM.bind, run]
  rfl

theorem thenNext_error {op : Exec H Unit} {e : Error} {c' : Context H} (run : op c = .error e c') :
    thenNext op c = .error e c' := by
  simp only [thenNext, bind, EStateM.bind, run]

theorem readLocal_ok {slot : Nat} {v : Value} (read : c.frame.readLocal slot = .ok v) :
    (readFrame (fun f => f.readLocal slot) : Exec H Value) c = .ok v c := by
  apply Effect.eq_ok_of_ensures
  simp [readFrame, read]

theorem readLocal_error {slot : Nat} {e : Error} (read : c.frame.readLocal slot = .error e) :
    (readFrame (fun f => f.readLocal slot) : Exec H Value) c = .error e c := by
  apply Effect.eq_error_of_ensures
  simp [readFrame, read]

theorem sharedLocal_ok {slot : Nat} {v : Value} (read : c.frame.readLocal slot = .ok v) :
    (sharedLocal slot : Exec H Value) c = .ok v.share c := by
  apply Effect.eq_ok_of_ensures
  simp [sharedLocal, readFrame, read]

theorem sharedLocal_error {slot : Nat} {e : Error} (read : c.frame.readLocal slot = .error e) :
    (sharedLocal slot : Exec H Value) c = .error e c := by
  apply Effect.eq_error_of_ensures
  simp [sharedLocal, readFrame, read]

theorem operand_int (op : ArithOp) (k : Int64) (flags : Flags) (other : Value) :
    op.operand ⟨.int k, flags⟩ other = .ok (.int k) := by
  have number : (⟨.int k, flags⟩ : Value).asNumber = .ok (.int k) := rfl
  unfold ArithOp.operand
  rw [number]

theorem apply_int (op : ArithOp) (k l : Int64) (flags flags' : Flags) :
    op.apply ⟨.int k, flags⟩ ⟨.int l, flags'⟩ = op.onWords k l := by
  have numbers : op.apply ⟨.int k, flags⟩ ⟨.int l, flags'⟩ =
      op.onNumbers ⟨.int k, flags⟩ ⟨.int l, flags'⟩ := by
    simp [ArithOp.apply, Value.str?]
  rw [numbers, ArithOp.onNumbers, operand_int, operand_int]
  rfl

/-- An increment that stays within the words is what the arithmetic instruction computes. -/
theorem apply_of_incremented {v : Value} {delta i : Int64} {op : Opcode}
    (computes : op = .add ∨ op = .sub) (fits : incremented v delta (op == .add) = some i) :
    v.owns = false ∧ op.arithOp.apply v.share (.int delta) = .ok (.int i) := by
  unfold incremented at fits
  cases content : v.content with
  | int k =>
    simp only [content] at fits
    have shared : v.share = ⟨.int k, v.flags.shared⟩ := by simp [Value.share, content]
    refine ⟨by simp [Value.owns, content], ?_⟩
    rw [shared, Value.int, apply_int]
    rcases computes with rfl | rfl
    · have sum : Word.ofInt? (k.toInt + delta.toInt) = some i := by simpa using fits
      simp [Opcode.arithOp, ArithOp.onWords, ArithOp.exactOr, sum]
    · have difference : Word.ofInt? (k.toInt - delta.toInt) = some i := by simpa using fits
      simp [Opcode.arithOp, ArithOp.onWords, ArithOp.exactOr, difference]
  | _ => simp [content] at fits

theorem storeLocal_run {slot : Nat} {v old : Value} (read : c.frame.readLocal slot = .ok old) :
    (storeLocal slot v : Exec H Unit) c =
      .ok () (letGo [old] { c with frame := { c.frame with locals := c.frame.locals.set slot v } }) := by
  have swapped : c.frame.swapLocal slot v =
      .ok (old, { c.frame with locals := c.frame.locals.set slot v }) := by
    unfold Frame.readLocal at read
    unfold Frame.swapLocal
    split at read <;> simp_all
  apply Effect.eq_ok_of_ensures
  simp [storeLocal, swapped]

theorem readLocal_of_storeLocal {slot : Nat} {v : Value} {c' : Context H}
    (run : (storeLocal slot v : Exec H Unit) c = .ok () c') : c'.frame.readLocal slot = .ok v := by
  cases read : c.frame.readLocal slot with
  | ok old =>
    rw [storeLocal_run read] at run
    cases run
    have inside : slot < c.frame.locals.length := by
      unfold Frame.readLocal at read
      split at read
      · rename_i found
        exact (List.getElem?_eq_some_iff.mp found).1
      · simp at read
    simp [letGo, Frame.readLocal, inside]
  | error e =>
    have refused : c.frame.swapLocal slot v = .error (c.frame.badSlot slot) := by
      unfold Frame.readLocal at read
      unfold Frame.swapLocal
      split at read <;> simp_all
    have failed : (storeLocal slot v : Exec H Unit) c =
        .error (c.frame.badSlot slot) (letGo [v] c) := by
      apply Effect.eq_error_of_ensures
      simp [storeLocal, refused]
    rw [failed] at run
    cases run

/-- An increment puts its result into its slot and leaves the rest as it was. -/
theorem sequence_increment {load push arith store : Resolved} (loads : load.ins.op = .loadLocal)
    (pushes : push.ins.op = .pushInt) (computes : arith.ins.op = .add ∨ arith.ins.op = .sub)
    (stores : store.ins.op = .storeLocal) (same : load.ins.int = store.ins.int) {v result : Value}
    (read : c.frame.readLocal load.ins.count = .ok v) (plain : v.owns = false)
    (applied : arith.ins.op.arithOp.apply v.share (.int push.ins.int) = .ok result) :
    sequence units [load, push, arith, store] c =
      .ok .next
        { c with frame := { c.frame with locals := c.frame.locals.set load.ins.count result } } := by
  have literal : push.ins.op ∈ Fusion.literals := by simp [pushes, Fusion.literals]
  have arithmetic : arith.ins.op ∈ Fusion.ariths := by
    rcases computes with op | op <;> simp [op, Fusion.ariths]
  have pushed : push.ins.literal = .int push.ins.int := by
    simp [Instruction.literal, pushes]
  have computed : single units arith
      { c with frame := (c.frame.push v.share).push push.ins.literal } =
        .ok .next { c with frame := c.frame.push result } := by
    rw [single_arith units arithmetic rfl v.share_owns (by rw [pushed]; rfl), pushed, applied]
    rfl
  rw [sequence_next units (single_loadLocal units loads read),
    sequence_next units (single_literal units literal), sequence_next units computed,
    sequence_last, single_storeLocal units stores rfl]
  have slot : store.ins.count = load.ins.count := by
    rw [Instruction.count, Instruction.count, same]
  have run := storeLocal_run (v := result) (c := c) (slot ▸ read)
  have borrowed : ∀ w ∈ [v], w.owns = false := by simp [plain]
  rw [letGo_of_not_owns borrowed] at run
  refine Eq.trans (thenNext_ok run) ?_
  rw [slot]

theorem incrementLocal_eq_sequence {load push arith store : Resolved}
    (loads : load.ins.op = .loadLocal) (pushes : push.ins.op = .pushInt)
    (computes : arith.ins.op = .add ∨ arith.ins.op = .sub) (stores : store.ins.op = .storeLocal)
    (same : load.ins.int = store.ins.int) (c : Context H) :
    incrementLocal units load.ins.count push.ins.int (arith.ins.op == .add)
        [load, push, arith, store] c =
      sequence units [load, push, arith, store] c := by
  unfold incrementLocal
  cases read : c.frame.readLocal load.ins.count with
  | error e =>
    rw [sequence_error units (single_loadLocal_error units loads read)]
    simp only [bind, EStateM.bind, readLocal_error read]
  | ok v =>
    simp only [bind, EStateM.bind, readLocal_ok read]
    cases fits : incremented v push.ins.int (arith.ins.op == .add) with
    | none => rfl
    | some i =>
      obtain ⟨plain, applied⟩ := apply_of_incremented computes fits
      rw [sequence_increment units loads pushes computes stores same read plain applied]
      rfl

theorem branchOnLocal_eq_sequence {load push compare branch : Resolved}
    (loads : load.ins.op = .loadLocal) (pushes : push.ins.op = .pushInt)
    (compares : compare.ins.op ∈ Fusion.comparisons) (branches : branch.ins.op = .jumpIfFalse)
    (c : Context H) :
    action units (.branchOnLocal load.ins.count push.ins.int compare.ins.op.comparison
        branch.jump) c =
      sequence units [load, push, compare, branch] c := by
  rw [action]
  cases read : c.frame.readLocal load.ins.count with
  | error e =>
    rw [sequence_error units (single_loadLocal_error units loads read)]
    simp only [bind, EStateM.bind, sharedLocal_error read]
  | ok v =>
    have literal : push.ins.op ∈ Fusion.literals := by simp [pushes, Fusion.literals]
    have pushed : push.ins.literal = .int push.ins.int := by simp [Instruction.literal, pushes]
    rw [sequence_next units (single_loadLocal units loads read),
      sequence_next units (single_literal units literal), pushed,
      sequence_next units (single_compare units compares rfl v.share_owns rfl), sequence_last,
      single_jumpIfFalse units branches rfl]
    simp only [bind, EStateM.bind, sharedLocal_ok read]
    rfl

theorem compareLocals_eq_sequence {a b compare : Resolved} (loads : a.ins.op = .loadLocal)
    (loads' : b.ins.op = .loadLocal) (compares : compare.ins.op ∈ Fusion.comparisons)
    {c : Context H} {w : Value} (right : c.frame.readLocal b.ins.count = .ok w) :
    action units (.compareLocals a.ins.count b.ins.count compare.ins.op.comparison) c =
      sequence units [a, b, compare] c := by
  rw [action]
  cases left : c.frame.readLocal a.ins.count with
  | error e =>
    rw [sequence_error units (single_loadLocal_error units loads left)]
    apply thenNext_error
    simp only [bind, EStateM.bind, sharedLocal_error left]
  | ok v =>
    have right' : (c.frame.push v.share).readLocal b.ins.count = .ok w := right
    rw [sequence_next units (single_loadLocal units loads left),
      sequence_next units (single_loadLocal units loads'
        (c := { c with frame := c.frame.push v.share }) right'), sequence_last,
      single_compare units compares rfl v.share_owns w.share_owns]
    apply thenNext_ok
    simp only [bind, EStateM.bind, sharedLocal_ok left, sharedLocal_ok right]
    rfl

theorem localLiteralArith_eq_sequence {load push arith : Resolved}
    (loads : load.ins.op = .loadLocal) (pushes : push.ins.op ∈ Fusion.literals)
    (computes : arith.ins.op ∈ Fusion.ariths) (c : Context H) :
    action units (.localLiteralArith load.ins.count push.ins.literal arith.ins.op.arithOp) c =
      sequence units [load, push, arith] c := by
  have plain : push.ins.literal.owns = false := by
    unfold Instruction.literal
    split <;> rfl
  rw [action]
  cases read : c.frame.readLocal load.ins.count with
  | error e =>
    rw [sequence_error units (single_loadLocal_error units loads read)]
    apply thenNext_error
    simp only [bind, EStateM.bind, sharedLocal_error read]
  | ok v =>
    rw [sequence_next units (single_loadLocal units loads read),
      sequence_next units (single_literal units pushes), sequence_last,
      single_arith units computes rfl v.share_owns plain]
    cases applied : arith.ins.op.arithOp.apply v.share push.ins.literal with
    | ok w =>
      apply thenNext_ok
      simp only [bind, EStateM.bind, sharedLocal_ok read, applied]
      rfl
    | error e =>
      apply thenNext_error
      simp only [bind, EStateM.bind, sharedLocal_ok read, applied]
      rfl

theorem storeReload_eq_sequence {store load : Resolved} (stores : store.ins.op = .storeLocal)
    (loads : load.ins.op = .loadLocal) (same : store.ins.int = load.ins.int) (c : Context H) :
    action units (.storeReload store.ins.count) c = sequence units [store, load] c := by
  have slot : load.ins.count = store.ins.count := by
    rw [Instruction.count, Instruction.count, same]
  rw [action]
  cases operands : c.frame.stack with
  | nil =>
    have popped : (pop : Exec H Value) c = .error c.frame.underflow c := by
      apply Effect.eq_error_of_ensures
      simp [pop, onFrame, Frame.pop, operands]
    have run : single units store c = .error c.frame.underflow c := by
      unfold single
      simp only [stores]
      apply thenNext_error
      simp only [bind, EStateM.bind, popped]
    rw [sequence_error units run]
    apply thenNext_error
    simp only [bind, EStateM.bind, popped]
  | cons v stack =>
    have popped := pop_run operands
    have stored := single_storeLocal units stores operands
    cases run : (storeLocal store.ins.count v : Exec H Unit)
        { c with frame := { c.frame with stack } } with
    | error e c' =>
      rw [sequence_error units (stored.trans (thenNext_error run))]
      apply thenNext_error
      simp only [bind, EStateM.bind, popped, run]
    | ok _ c' =>
      rw [sequence_next units (stored.trans (thenNext_ok run)), sequence_last]
      have read : c'.frame.readLocal load.ins.count = .ok v := by
        rw [slot]
        exact readLocal_of_storeLocal run
      rw [single_loadLocal units loads read]
      rw [slot] at read
      apply thenNext_ok
      simp only [bind, EStateM.bind, popped, run, sharedLocal_ok read]
      rfl

theorem discard_eq_sequence {push pop : Resolved} (pushes : push.ins.op ∈ Fusion.purePushes)
    (pops : pop.ins.op = .pop) {c : Context H}
    (valid : push.ins.op = .loadLocal → ∃ v, c.frame.readLocal push.ins.count = .ok v) :
    action units .discard c = sequence units [push, pop] c := by
  rcases List.mem_cons.mp pushes with loads | literal
  · obtain ⟨v, read⟩ := valid loads
    rw [sequence_next units (single_loadLocal units loads read), sequence_last,
      single_pop units pops rfl v.share_owns]
    rfl
  · have plain : push.ins.literal.owns = false := by
      unfold Instruction.literal
      split <;> rfl
    rw [sequence_next units (single_literal units literal), sequence_last,
      single_pop units pops rfl plain]
    rfl

theorem pushLiterals_eq_sequence {span : List Resolved} :
    ∀ (c : Context H), (∀ r ∈ span, r.ins.op ∈ Fusion.literals) →
      action units (.pushLiterals (span.map (·.ins.literal))) c = sequence units span c := by
  induction span with
  | nil => exact fun _ _ => rfl
  | cons r rest ih =>
    intro c pushes
    rw [sequence_next units (single_literal units (pushes r List.mem_cons_self)),
      ← ih _ (fun r mem => pushes r (List.mem_cons_of_mem _ mem))]
    rfl

theorem sequence_nops {nops : List Resolved} (c : Context H) (idle : ∀ n ∈ nops, n.ins.op = .nop) :
    sequence units nops c = .ok .next c := by
  induction nops with
  | nil => rfl
  | cons nop rest ih =>
    rw [sequence_next units (single_nop units (idle nop List.mem_cons_self))]
    exact ih fun n mem => idle n (List.mem_cons_of_mem _ mem)

theorem skipNops_eq_sequence {r : Resolved} {nops : List Resolved}
    (idle : ∀ n ∈ nops, n.ins.op = .nop) (c : Context H) :
    action units (.skipNops r) c = sequence units (r :: nops) c := by
  rw [action]
  cases run : single units r c with
  | error e c' => rw [sequence_error units run]
  | ok flow c' =>
    by_cases next : flow = .next
    · subst next
      rw [sequence_next units run, sequence_nops units c' idle]
    · rw [sequence_stop units run next]

/-- The action of a step has the effect of the instructions that it covers, as long as the slots
that these read are slots of the frame. -/
theorem action_eq_sequence {a : Action} {span : List Resolved} (folds : a.Folds span)
    {c : Context H}
    (slots : ∀ r ∈ span, r.ins.op = .loadLocal → r.ins.count < c.frame.locals.length) :
    action units a c = sequence units span c := by
  have valid : ∀ r ∈ span, r.ins.op = .loadLocal → ∃ v, c.frame.readLocal r.ins.count = .ok v := by
    intro r mem loads
    exact ⟨_, by rw [Frame.readLocal, List.getElem?_eq_getElem (slots r mem loads)]⟩
  cases folds with
  | single r => exact (sequence_last units r).symm
  | incrementLocal load push arith store loads pushes computes stores same =>
    exact incrementLocal_eq_sequence units loads pushes computes stores same c
  | branchOnLocal load push compare branch loads pushes compares branches =>
    exact branchOnLocal_eq_sequence units loads pushes compares branches c
  | compareLocals one two compare loads loads' compares =>
    obtain ⟨w, right⟩ := valid two (by simp) loads'
    exact compareLocals_eq_sequence units loads loads' compares right
  | localLiteralArith load push arith loads pushes computes =>
    exact localLiteralArith_eq_sequence units loads pushes computes c
  | storeReload store load stores loads same =>
    exact storeReload_eq_sequence units stores loads same c
  | discard push pop pushes pops =>
    exact discard_eq_sequence units pushes pops (valid push (by simp))
  | pushLiterals _ pushes => exact pushLiterals_eq_sequence units c pushes
  | skipNops r nops idle => exact skipNops_eq_sequence units idle c

end Exec

end ScriptMachine
