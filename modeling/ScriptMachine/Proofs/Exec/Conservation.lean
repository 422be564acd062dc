import ScriptMachine.Proofs.Code.Folding
import ScriptMachine.Proofs.Exec.Ownership
import ScriptMachine.Proofs.Globals

/-!
# Every instruction conserves owners

One lemma for each instruction with a shape of its own, then the table of all instructions, and the
steps of compiled code. An error that an instruction throws again after deferred blocks is not its
own, so that instruction is never excused.
-/

set_option autoImplicit false

namespace ScriptMachine

namespace Exec

open Effect (Conserves ConservesAt Steady)

variable {H : Type} {excused : Error → Prop}

/-! ## Instructions -/

theorem storeGlobal_conserves (path : String) :
    Conserves (books H) [] (storeGlobal path) fun _ => [] := by
  refine pop_steady.bind fun v => .get_bind fun c => ?_
  cases stored : c.globals.store path v with
  | error e => exact refuse_conserves [v] (Globals.light_store _ _ _ e stored) c
  | ok result =>
    obtain ⟨old, globals⟩ := result
    intro rest owned
    obtain ⟨ascending, deals⟩ := Globals.rebound_store owned.globals stored
    refine settled_letGo old.toList ⟨owned.heap.recount fun x => ?_, ascending⟩
    have dealt := deals x
    simp only [Context.held, tally_append, tally_nil] at dealt ⊢
    omega

theorem allocated_conserves {takes : List Value} {alloc : Heap H → Value × Heap H}
    (owned : ∀ h out, h.Owned [] (takes ++ out) → (alloc h).2.Owned [] ((alloc h).1 :: out)) :
    Conserves (Context.ledger H excused) takes (allocated alloc) fun _ => [] := by
  refine .get_bind fun c => ?_
  intro rest settled
  refine (push_steady (alloc c.heap).1).conserves _ rest ⟨?_, settled.globals⟩
  refine (owned c.heap (c.held ++ rest) (settled.heap.recount fun x => ?_)).recount fun x => ?_
  · simp only [tally_append]
    omega
  · simp only [Context.held, tally_append, tally_cons, tally_nil]
    omega

def closureOver (unit : CodeUnit) (n : Nat) (captured : List Value) (h : Heap H) :
    Value × Heap H :=
  { h with pools := { h.pools with values := (h.pools.values.checkout n).2 } }.alloc
    (.callable (.script unit ((h.pools.values.checkout n).1.append captured)))

theorem owned_closureOver (unit : CodeUnit) (n : Nat) (captured : List Value) (h : Heap H)
    (out : List Value) (owned : h.Owned [] (captured ++ out)) :
    (closureOver unit n captured h).2.Owned [] ((closureOver unit n captured h).1 :: out) := by
  obtain ⟨room, -, fresh, clean⟩ := owned.clean.values.checkout n
  have held : (Object.callable (.script unit ((h.pools.values.checkout n).1.append captured)) :
      Object H).held = captured := by
    rw [fresh]
    rfl
  have pooled := owned.withPools { h.pools with
    values := (h.pools.values.checkout n).2 } ⟨owned.clean.structures, clean⟩
  exact Heap.Owned.alloc (o := .callable (.script unit ((h.pools.values.checkout n).1.append captured)))
    (held.symm ▸ pooled) trivial

theorem makeClosure_conserves (units : UnitTable) (name : String) (n : Nat) :
    Conserves (books H) [] (makeClosure units name n) fun _ => [] := by
  unfold makeClosure
  cases SortedMap.get? units name with
  | none =>
    exact .get_bind fun c => Conserves.throw (e := c.frame.malformed _) (fun _ => rfl) c
  | some unit =>
    exact (popN_steady n).bind fun captured =>
      allocated_conserves (owned_closureOver unit n captured)

theorem loadCapture_conserves (slot : Nat) :
    Conserves (books H) [] (loadCapture slot) fun _ => [] := by
  refine .get_bind fun c => ?_
  refine ((Conserves.reads (Heap.light_callableOf _)).bind fun callable => ?_) c
  cases callable with
  | host => exact .throw fun _ => rfl
  | script unit captures =>
    simp only
    cases captures.items[slot]? with
    | none => exact .throw fun _ => rfl
    | some v => exact push_share v

theorem sendTop_conserves (n : Nat) {flow : Flow} (plain : flow.held = []) :
    Conserves (books H) [] (sendTop n flow) Flow.held :=
  (popN_steady n).bind fun vs => (send_steady vs).bind fun _ => .pure fun x => by rw [plain]

theorem callValue_conserves (n : Nat) : Conserves (books H) [] (callValue n) Flow.held := by
  refine (popN_steady n).bind fun args => (pop_steady.beside args).bind fun callee => ?_
  refine (((send_steady args).beside [callee]).bind fun _ => .pure ?_).recount
    (fun x => by simp only [tally_append]; omega) fun _ => .refl _
  exact fun x => by simp [Flow.held]

theorem callTarget_conserves {target : CallTarget} (plain : ∀ v, target ≠ .value v) (n : Nat) :
    Conserves (books H) [] (callTarget target n) Flow.held := by
  refine (popN_steady n).bind fun args => (send_steady args).bind fun _ => .pure fun x => ?_
  cases target with
  | value v => exact (plain v rfl).elim
  | _ => simp [Flow.held]

theorem callMethod_conserves (name : String) (n : Nat) :
    Conserves (books H) [] (callMethod name n) Flow.held := by
  refine (popN_steady n).bind fun args => (pop_steady.beside args).bind fun receiver =>
    .get_bind fun c => ?_
  have refused : ∀ e : Error, e.carried = [] → ConservesAt (books H) ([receiver] ++ args)
      (modify (letGo (args ++ [receiver])) >>= fun _ => throw e : Exec H Flow) Flow.held c :=
    fun e light => (refuse_conserves (args ++ [receiver]) light).recount
      (fun x => by simp only [tally_append]; omega) (fun _ => .refl _) c
  cases found : c.heap.getChild receiver (.str name) with
  | error e => exact refused e (Heap.light_getChild receiver _ e found)
  | ok method =>
    simp only
    split
    · exact refused _ rfl
    · refine (((send_steady args).beside [receiver]).bind fun _ => .pure ?_).recount
        (fun x => by simp only [tally_append]; omega) (fun _ => .refl _) c
      exact fun x => by simpa [Flow.held] using Heap.bare_getChild found x

theorem fetch_conserves (target key : Value) :
    Conserves (Context.ledger H excused) [] (fetch target key) fun v => [v] := by
  unfold fetch
  split
  · exact heap_conserves (Heap.deleteChild_conserves target key)
  · exact readHeap_conserves (fun _ => Heap.light_getChild target key) fun _ _ => Heap.bare_getChild

/-- Deferred blocks are disarmed without a change of what the frame holds. -/
theorem checkDefer_conserves (k target : Nat) :
    Conserves (Context.ledger H excused) [] (checkDefer k target) Flow.held := by
  refine .get_bind fun c => ?_
  intro rest owned
  refine ⟨owned.heap.recount fun x => ?_, owned.globals⟩
  have plain : ∀ armed : Bool, (if armed then Flow.next else .jump target).held = [] := by
    intro armed
    cases armed <;> rfl
  rw [plain]
  rfl

theorem endDefer_conserves : Conserves (Context.ledger H excused) [] endDefer Flow.held := by
  refine .get_bind fun c => ?_
  intro rest owned
  cases error : c.frame.pendingError with
  | some e =>
    refine .inr ⟨owned.heap.recount fun x => ?_, owned.globals⟩
    simp only [Context.held, Frame.tally_held, tally_append, tally_nil, Frame.pendingValues,
      Frame.returnedValues, Frame.thrownValues, Error.carried, error, Option.bind_some,
      Option.bind_none, Option.toList_none]
    omega
  | none =>
    cases pending : c.frame.pendingReturn with
    | none => exact owned
    | some exit =>
      cases exit with
      | locals mask =>
        refine ⟨owned.heap.recount fun x => ?_, owned.globals⟩
        simp only [Context.held, Frame.tally_held, tally_append, Frame.pendingValues,
          Frame.returnedValues, Frame.thrownValues, Flow.held, error, pending]
      | values vs =>
        refine ⟨owned.heap.recount fun x => ?_, owned.globals⟩
        simp only [Context.held, Frame.tally_held, tally_append, tally_nil, Frame.pendingValues,
          Frame.returnedValues, Frame.thrownValues, Flow.held, error, pending, Option.bind_none,
          Option.toList_none]
        omega

theorem iterNext_conserves (exhausted : Nat) :
    Conserves (books H) [] (iterNext exhausted) Flow.held := by
  refine pop_steady.bind fun it => ?_
  refine (consuming_conserves [it] (heap_conserves (Heap.advanceIterator_conserves it))).bind
    fun advanced => ?_
  cases advanced <;> exact .pure (.refl _)

theorem light_logic (conjunction : Bool) (a b : Value) : Light (logic conjunction a b) :=
  light_bind a.light_truthy fun _ => light_bind b.light_truthy fun _ => light_ok _

theorem bare_logic {conjunction : Bool} {a b w : Value} (done : logic conjunction a b = .ok w) :
    Bare [w] := by
  obtain ⟨p, -, done⟩ := ok_of_bind done
  obtain ⟨q, -, done⟩ := ok_of_bind done
  cases done
  intro x
  simp

theorem branch_conserves (when : Bool) (target : Nat) :
    Conserves (books H) [] (branch when target) Flow.held := by
  refine pop_steady.bind fun v => (consuming_conserves [v] (.reads v.light_truthy)).bind
    fun truth => .pure fun x => ?_
  split <;> rfl

theorem owners_literal (ins : Instruction) (x : Handle) : ins.literal.owners x = 0 := by
  unfold Instruction.literal
  split <;> simp

theorem single_conserves (units : UnitTable) (r : Resolved) :
    Conserves (books H) [] (single units r) Flow.held := by
  unfold single
  cases op : r.ins.op <;> simp only [op]
  case nop | jump | jumpBack | returnLocals | finalize => exact .pure (.refl _)
  case fatal => exact .throw fun _ => rfl
  case pushNull | pushInt | pushFloat | pushString | pushBool | pushEnum =>
    exact thenNext_conserves (push_bare fun x => by simp [owners_literal])
  case pop => exact thenNext_conserves (pop_steady.bind fun v => (letGo_steady [v]).conserves)
  case dup =>
    exact thenNext_conserves ((readFrame_steady fun _ _ => Frame.peek_fails).bind push_share)
  case swap =>
    refine thenNext_conserves (popTwo_steady.bind fun (a, b) => ?_)
    refine (((push_steady b).beside [a]).bind fun _ => (push_steady a).conserves).recount
      (fun x => by simp only [tally_append, tally_cons, tally_nil]; omega) fun _ => .refl _
  case autoConvert =>
    have same : ∀ (v : Value) (x : Handle), v.withAuto.owners x = v.owners x := fun _ _ => rfl
    exact thenNext_conserves (changeFrame_steady (fun _ _ => Frame.updateTop_fails)
      fun _ _ => Frame.updateTop_deals same).conserves
  case loadLocal =>
    exact thenNext_conserves ((readFrame_conserves fun _ => Frame.readLocal_light).bind push_share)
  case moveLocal =>
    exact thenNext_conserves ((onFrame_conserves (fun _ => Frame.swapLocal_light)
      fun _ _ _ => Frame.takeLocal_deals).bind fun v => (push_steady v).conserves)
  case storeLocal => exact thenNext_conserves (pop_steady.bind fun v => storeLocal_conserves _ v)
  case shadowSave =>
    exact thenNext_conserves (changeFrame_conserves (fun _ => Frame.saveShadow_light)
      fun _ _ => Frame.saveShadow_deals)
  case shadowRestore =>
    exact thenNext_conserves ((onFrame_conserves (fun _ => Frame.restoreShadow_light)
      fun _ _ _ => Frame.restoreShadow_deals).bind fun v => (letGo_steady [v]).conserves)
  case loadGlobal =>
    exact thenNext_conserves (.get_bind fun c => push_bare (fun x => by
      simp [Globals.owners_load]) c)
  case loadThis => exact thenNext_conserves (.get_bind fun c => push_share c.frame.this c)
  case storeGlobal => exact thenNext_conserves (storeGlobal_conserves _)
  case eq | ne | lt | le | gt | ge =>
    exact thenNext_conserves (binary_conserves fun _ _ => .pure fun x => by simp)
  case add | sub | mul | div | mod =>
    exact thenNext_conserves (binary_conserves fun a b =>
      computed_conserves (ArithOp.light_apply _ a b) fun _ => ArithOp.bare_apply)
  case neg =>
    exact thenNext_conserves (unary_conserves fun v =>
      computed_conserves v.light_negate fun _ => Value.bare_negate)
  case not =>
    exact thenNext_conserves (unary_conserves fun v =>
      (Conserves.reads v.light_truthy).bind fun _ => .pure fun x => by simp)
  case and | or =>
    exact thenNext_conserves (binary_conserves fun a b =>
      computed_conserves (light_logic _ a b) fun _ => bare_logic)
  case jumpIfFalse | jumpIfTrue => exact branch_conserves _ _
  case makeClosure => exact thenNext_conserves (makeClosure_conserves units _ _)
  case loadCapture => exact thenNext_conserves (loadCapture_conserves _)
  case call => exact callValue_conserves _
  case callDirect | callName => exact callTarget_conserves (fun _ => by simp) _
  case callMethod => exact callMethod_conserves _ _
  case ret | yield => exact sendTop_conserves _ rfl
  case newStruct => exact thenNext_conserves (allocated_conserves (Heap.owned_allocStructure _))
  case newQueue => exact thenNext_conserves (allocated_conserves (Heap.owned_allocQueue _))
  case getKey =>
    exact thenNext_conserves (popTwo_steady.bind fun (target, key) =>
      (consuming_conserves [target, key] (fetch_conserves target key)).bind fun v =>
        (push_steady v).conserves)
  case getField =>
    exact thenNext_conserves (pop_steady.bind fun target =>
      (consuming_conserves [target] (fetch_conserves target _)).bind fun v =>
        (push_steady v).conserves)
  case setKey =>
    refine thenNext_conserves (pop_steady.bind fun value => (popTwo_steady.beside [value]).bind
      fun (target, key) => ?_)
    exact (consuming_conserves [key, target] (heap_conserves (Heap.setChild_conserves target key
      value))).recount (fun x => by simp only [tally_append, tally_cons, tally_nil]; omega)
        fun _ => .refl _
  case setField =>
    exact thenNext_conserves (popTwo_steady.bind fun (target, value) =>
      consuming_conserves [target] (heap_conserves (Heap.setChild_conserves target _ value)))
  case deleteKey =>
    refine thenNext_conserves (popTwo_steady.bind fun (target, key) => ?_)
    exact ((consuming_conserves [key, target] (heap_conserves (Heap.deleteChild_conserves target
      key))).bind fun v => (push_steady v).conserves).recount
        (fun x => by simp only [tally_append, tally_cons, tally_nil]; omega) fun _ => .refl _
  case hasKey =>
    refine thenNext_conserves (popTwo_steady.bind fun (target, key) => ?_)
    exact ((consuming_conserves [key, target] (readHeap_reads fun _ =>
      Heap.light_hasChild target key)).bind fun found => push_bare fun x => by simp).recount
        (fun x => by simp only [tally_append, tally_cons, tally_nil]; omega) fun _ => .refl _
  case length =>
    exact thenNext_conserves (unary_conserves fun v => (readHeap_reads fun _ =>
      Heap.light_length v).bind fun _ => .pure fun x => by simp)
  case append | prepend =>
    exact thenNext_conserves (popTwo_steady.bind fun (target, value) =>
      consuming_conserves [target] (heap_conserves (Heap.append_conserves target value _)))
  case popFront | popBack =>
    exact thenNext_conserves (unary_conserves fun v => heap_conserves (Heap.popEnd_conserves v _))
  case firstKey | lastKey =>
    exact thenNext_conserves (unary_conserves fun v => heap_conserves (Heap.endKey_conserves v _))
  case deepCopy =>
    exact thenNext_conserves (unary_conserves fun v => heap_conserves (Heap.deepCopy_conserves v))
  case shallowCopy =>
    exact thenNext_conserves (unary_conserves fun v => heap_conserves (Heap.shallowCopy_conserves v))
  case release =>
    exact thenNext_conserves (pop_steady.bind fun v => heap_conserves (Heap.release_conserves v))
  case trapSet | trapClear =>
    exact thenNext_conserves fun _ _ owned => ⟨owned.heap, owned.globals⟩
  case throw => exact pop_steady.bind fun v => .throw fun x => rfl
  case deferArm =>
    exact thenNext_conserves (changeFrame_conserves (fun _ => Frame.armDefer_light)
      fun _ _ => Frame.armDefer_deals)
  case deferCheck => exact checkDefer_conserves _ _
  case deferEnd => exact endDefer_conserves
  case iterNew =>
    exact thenNext_conserves (pop_steady.bind fun v => (heap_conserves
      (Heap.openIterator_conserves v)).bind fun it => (push_steady it).conserves)
  case iterNext => exact iterNext_conserves _
  case iterKey | iterValue =>
    exact thenNext_conserves (unary_conserves fun v => readHeap_conserves
      (fun _ => Heap.light_currentEntry v _) fun _ _ => Heap.bare_currentEntry)

/-! ## Steps -/

theorem sequence_conserves (units : UnitTable) (span : List Resolved) :
    Conserves (books H) [] (sequence units span) Flow.held := by
  induction span with
  | nil => exact .pure (.refl _)
  | cons r rest ih =>
    refine (single_conserves units r).bind fun flow => ?_
    cases flow with
    | next => exact ih
    | _ => exact .pure (.refl _)

theorem sharedLocal_bind {α : Type} {gives : α → List Value} (slot : Nat)
    {next : Value → Exec H α} (rest : ∀ v, Bare [v] → Conserves (books H) [] (next v) gives) :
    Conserves (books H) [] (sharedLocal slot >>= next) gives := by
  intro c others owned
  simp only [sharedLocal, readFrame, Effect.ensures_bind, Effect.ensures_get,
    Effect.ensures_liftM]
  cases read : c.frame.readLocal slot with
  | error e => exact .inr (by simpa [Frame.readLocal_light e read] using owned)
  | ok v => exact rest v.share (fun x => by simp) c others owned

theorem incrementLocal_conserves (units : UnitTable) (slot : Nat) (delta : Int64) (add : Bool)
    (span : List Resolved) :
    Conserves (books H) [] (incrementLocal units slot delta add span) Flow.held := by
  intro c rest owned
  simp only [incrementLocal, readFrame, Effect.ensures_bind, Effect.ensures_get,
    Effect.ensures_liftM]
  cases read : c.frame.readLocal slot with
  | error e => exact .inr (by simpa [Frame.readLocal_light e read] using owned)
  | ok v =>
    simp only
    cases computed : incremented v delta add with
    | none => exact sequence_conserves units span c rest owned
    | some i =>
      have found : c.frame.locals[slot]? = some v := by
        unfold Frame.readLocal at read
        split at read
        · rename_i w found
          cases read
          exact found
        · cases read
      have plain : v.owned? = none := by
        unfold incremented at computed
        unfold Value.owned?
        split at computed
        · rename_i content
          rw [content]
        · cases computed
      refine ⟨owned.heap.recount fun x => ?_, owned.globals⟩
      have stored := Frame.tally_set_local found (.int i) x
      simp only [Context.held, Frame.tally_held, tally_append, tally_nil, Frame.pendingValues,
        Frame.returnedValues, Frame.thrownValues, Flow.held, Value.owners_eq_zero plain,
        Value.owners_scalar] at stored ⊢
      omega

end Exec

/-- A step that throws an error again which a frame held back. -/
def Action.Rethrows : Action → Prop
  | .single r | .skipNops r => r.ins.op = .deferEnd
  | _ => False

namespace Exec

open Effect (Conserves ConservesAt Steady)

variable {H : Type}

/-- A step of compiled code gives back what it takes, unless it runs out of operands. An error that
it throws again is not its own. -/
theorem action_conserves (units : UnitTable) {a : Action} {span : List Resolved}
    (folds : a.Folds span) :
    Conserves (Context.ledger H fun e => e.Underflow ∧ ¬ a.Rethrows) [] (action units a)
      Flow.held := by
  by_cases rethrows : a.Rethrows
  · have again : ∀ r : Resolved, r.ins.op = .deferEnd → Conserves
        (Context.ledger H fun e => e.Underflow ∧ ¬ a.Rethrows) [] (single units r) Flow.held := by
      intro r op
      simp only [single, op]
      exact endDefer_conserves
    cases folds with
    | single r => exact again r rethrows
    | skipNops r => exact again r rethrows
    | _ => exact rethrows.elim
  · have own : Conserves (books H) [] (action units a) Flow.held := by
      cases folds with
      | single r => exact single_conserves units r
      | incrementLocal load push => exact incrementLocal_conserves units _ _ _ _
      | branchOnLocal load push compare branch =>
        refine sharedLocal_bind _ fun v _ => .pure ?_
        split <;> exact .refl _
      | compareLocals one two compare =>
        exact thenNext_conserves (sharedLocal_bind _ fun lhs _ => sharedLocal_bind _ fun rhs _ =>
          push_bare fun x => by simp)
      | localLiteralArith load push arith =>
        exact thenNext_conserves (sharedLocal_bind _ fun v _ => .bind
          (computed_conserves (ArithOp.light_apply _ _ _) fun _ => ArithOp.bare_apply)
            fun w => (push_steady w).conserves)
      | storeReload store load =>
        exact thenNext_conserves (pop_steady.bind fun v => (storeLocal_conserves _ v).bind fun _ =>
          sharedLocal_bind _ fun w bare => push_bare bare)
      | discard => exact .pure (.refl _)
      | pushLiterals span pushes =>
        refine thenNext_conserves fun c rest owned => ⟨owned.heap.recount fun x => ?_, owned.globals⟩
        have pushed := Frame.tally_pushAll (f := c.frame) (span.map (·.ins.literal)) x
        have bare : tally x (span.map (·.ins.literal)) = 0 :=
          tally_eq_zero fun v mem => by
            obtain ⟨r, -, rfl⟩ := List.mem_map.mp mem
            exact owners_literal r.ins x
        simp only [Context.held, tally_append, tally_nil] at pushed ⊢
        omega
      | skipNops r nops => exact single_conserves units r
    exact fun c rest owned => (own c rest ⟨owned.heap, owned.globals⟩).mono
      (fun _ _ owned => ⟨owned.heap, owned.globals⟩)
      fun _ _ failed => failed.imp (⟨·, rethrows⟩) fun owned => ⟨owned.heap, owned.globals⟩

end Exec

end ScriptMachine
