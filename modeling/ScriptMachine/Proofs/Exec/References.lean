import ScriptMachine.Machine.Load
import ScriptMachine.Proofs.Exec.Deferred

/-!
# Instructions that look a unit up

Only a closure and a direct call name a unit. An instruction that names none, and one whose unit is
in the table, fails with no error of a unit that is not there; nothing below it does, down to the
conversion of a value. An error that is issued again after deferred blocks is as it was held back.
-/

set_option autoImplicit false

namespace ScriptMachine

/-- The error says that code names a unit that is not there. -/
def Error.lacksUnit (e : Error) : Bool :=
  match e.cause with
  | .fault (.malformed _ reason) =>
    reason == "call to unknown unit" || "unknown unit '".toList.isPrefixOf reason.toList
  | _ => false

/-- The error is no panic but of some sorts. -/
def Error.Bounded (may : Panic → Prop) (e : Error) : Prop :=
  ∀ panic, e.panic? = some panic → may panic

def Error.tame (e : Error) : Bool := !e.lacksUnit && e.panic?.all (· == .overflow)

theorem Error.tame_iff {e : Error} : e.tame ↔ e.lacksUnit = false ∧ e.Bounded (· = .overflow) := by
  simp [tame, Bounded, Option.all_eq_true]

theorem Error.bounded_of_tame {may : Panic → Prop} (overflow : may .overflow) {e : Error}
    (tame : e.tame) : e.Bounded may :=
  fun _ panics => (tame_iff.mp tame).2 _ panics ▸ overflow

theorem Error.tame_malformed {reason : String} (unit : String)
    (call : reason.toList.take 3 ≠ ['c', 'a', 'l'])
    (closure : reason.toList.take 3 ≠ ['u', 'n', 'k']) : (Error.malformed unit reason).tame := by
  have other : reason ≠ "call to unknown unit" := by
    rintro rfl
    exact call rfl
  have apart : "unknown unit '".toList.isPrefixOf reason.toList = false := by
    refine Bool.eq_false_iff.mpr fun starts => closure ?_
    obtain ⟨rest, same⟩ := List.isPrefixOf_iff_prefix.mp starts
    rw [← same]
    rfl
  refine tame_iff.mpr ⟨?_, nofun⟩
  show (reason == "call to unknown unit" || _) = false
  rw [apart, Bool.or_false]
  exact beq_eq_false_iff_ne.mpr other

/-! ## Computations -/

def Fails {α : Type} (P : Error → Prop) (x : Except Error α) : Prop := ∀ e, x = .error e → P e

/-- A computation that fails with no error of a unit that is not there. -/
abbrev Mild {α : Type} (x : Except Error α) : Prop := Fails (·.lacksUnit = false) x

abbrev Tame {α : Type} (x : Except Error α) : Prop := Fails (·.tame) x

section
variable {α β : Type} {P : Error → Prop} {x : Except Error α}

theorem Fails.mild (tame : Tame x) : Mild x :=
  fun e failed => (Error.tame_iff.mp (tame e failed)).1

theorem fails_ok (a : α) : Fails P (.ok a : Except Error α) := fun _ failed => by cases failed

theorem fails_error {e : Error} (holds : P e) : Fails P (.error e : Except Error α) := by
  intro e' failed
  cases failed
  exact holds

theorem fails_bind {next : α → Except Error β} (first : Fails P x)
    (second : ∀ a, Fails P (next a)) : Fails P (x >>= next) := by
  intro e failed
  cases x with
  | error e' =>
    cases failed
    exact first _ rfl
  | ok a => exact second a e failed

theorem fails_ite {c : Prop} [Decidable c] {x y : Except Error α} (first : Fails P x)
    (second : Fails P y) : Fails P (if c then x else y) := by
  split
  · exact first
  · exact second

end

theorem Value.tame_asNumber (v : Value) : Tame v.asNumber := by
  unfold asNumber
  split
  case h_4 =>
    split
    · exact fails_ok _
    · exact fails_error rfl
  case h_5 => exact fails_error rfl
  all_goals exact fails_ok _

theorem Value.tame_asBool (v : Value) : Tame v.asBool := by
  unfold asBool
  cases v.auto with
  | false => cases v.content <;> first | exact fails_ok _ | exact fails_error rfl
  | true =>
    cases v.content with
    | str s => exact fails_ite (fails_ok _) (fails_ite (fails_ok _) (fails_error rfl))
    | _ => first | exact fails_ok _ | exact fails_error rfl

theorem Value.tame_truthy (v : Value) : Tame v.truthy := by
  unfold truthy
  split
  · exact fails_ok _
  · exact fails_ok _
  · exact v.tame_asBool

theorem Value.tame_negate (v : Value) : Tame v.negate := by
  refine fails_bind v.tame_asNumber fun n => ?_
  cases n with
  | int i =>
    simp only
    cases Word.ofInt? (-i.toInt) <;> exact fails_ok _
  | float x => exact fails_ok _

theorem ArithOp.tame_operand (op : ArithOp) (v other : Value) : Tame (op.operand v other) := by
  unfold operand
  split
  · exact fails_ok _
  · exact fails_error rfl

theorem ArithOp.tame_apply (op : ArithOp) (a b : Value) : Tame (op.apply a b) := by
  refine fails_ite (fails_ite (fails_error rfl) (fails_ok _)) ?_
  refine fails_bind (op.tame_operand a b) fun m => fails_bind (op.tame_operand b a) fun n => ?_
  have words : ∀ i j, Tame (op.onWords i j) := by
    intro i j
    cases op with
    | div => exact fails_ite (fails_error rfl) (fails_ite (fails_ok _) (fails_ok _))
    | mod => exact fails_ite (fails_error rfl) (fails_ok _)
    | _ => exact fails_ok _
  cases m <;> cases n <;> first | exact words _ _ | exact fails_ok _

theorem Key.tame_ofValue (v : Value) : Tame (ofValue v) := by
  unfold ofValue
  cases v.content with
  | float x =>
    simp only
    split
    · exact fails_ok _
    · exact fails_ite (fails_ok _) (fails_error rfl)
  | str s => exact fails_ite (fails_error rfl) (fails_ok _)
  | null | disposed => exact fails_error rfl
  | _ => exact fails_ok _

theorem Globals.tame_store (g : Globals) (path : String) (v : Value) : Tame (g.store path v) := by
  unfold store
  split
  · exact fails_ok _
  · exact fails_ite (fails_error rfl) (fails_ok _)

namespace Frame

variable (f : Frame)

theorem tame_readLocal (slot : Nat) : Tame (f.readLocal slot) := by
  unfold readLocal
  split
  · exact fails_ok _
  · refine fails_error (Error.tame_malformed _ ?_ ?_) <;> simp [String.toList_append, toString]

theorem tame_swapLocal (slot : Nat) (v : Value) : Tame (f.swapLocal slot v) := by
  unfold swapLocal
  split
  · exact fails_ok _
  · refine fails_error (Error.tame_malformed _ ?_ ?_) <;> simp [String.toList_append, toString]

theorem tame_pop : Tame f.pop := by
  unfold pop
  split
  · exact fails_ok _
  · exact fails_error rfl

theorem tame_peek : Tame f.peek := by
  unfold peek
  split
  · exact fails_ok _
  · exact fails_error rfl

theorem tame_updateTop (change : Value → Value) : Tame (f.updateTop change) := by
  unfold updateTop
  split
  · exact fails_ok _
  · exact fails_error rfl

theorem tame_popN (n : Nat) : Tame (f.popN n) := fails_ite (fails_error rfl) (fails_ok _)

theorem tame_saveShadow (slot : Nat) : Tame (f.saveShadow slot) :=
  fails_bind (f.tame_swapLocal slot .null) fun _ => fails_ok _

theorem tame_restoreShadow (slot : Nat) : Tame (f.restoreShadow slot) := by
  unfold restoreShadow
  split
  · refine fails_error (Error.tame_malformed _ ?_ ?_) <;> simp [String.toList_append, toString]
  · exact tame_swapLocal _ _ _

theorem tame_armDefer (k : Nat) : Tame (f.armDefer k) := by
  refine fails_ite (fails_ok _) (fails_error (Error.tame_malformed _ ?_ ?_)) <;>
    simp [String.toList_append, toString]

end Frame

/-! ## Operations -/

namespace Effect

variable {σ τ α β : Type}

def Fails (P : Error → Prop) (op : Effect σ α) : Prop :=
  ∀ s, op.Ensures s (fun _ _ => True) fun e _ => P e

abbrev Tame (op : Effect σ α) : Prop := op.Fails (·.tame)

variable {P Q : Error → Prop}

theorem Fails.weaken {op : Effect σ α} (fails : Fails P op) (weaker : ∀ e, P e → Q e) :
    Fails Q op :=
  fun s => (fails s).mono (fun _ _ _ => trivial) fun e _ => weaker e

theorem Fails.pure (a : α) : Fails P (pure a : Effect σ α) := fun _ => trivial

theorem Fails.throw {e : Error} (holds : P e) : Fails P (throw e : Effect σ α) :=
  fun _ => holds

theorem Fails.modify (f : σ → σ) : Fails P (modify f : Effect σ PUnit) := fun _ => trivial

theorem Fails.set (t : σ) : Fails P (set t : Effect σ PUnit) := fun _ => trivial

theorem Fails.bind {op : Effect σ α} {next : α → Effect σ β} (first : Fails P op)
    (second : ∀ a, Fails P (next a)) : Fails P (op >>= next) := by
  intro s
  rw [ensures_bind]
  exact (first s).mono (fun a t _ => second a t) fun _ _ fails => fails

theorem Fails.get_bind {next : σ → Effect σ α} (rest : ∀ s, Fails P (next s)) :
    Fails P (get >>= next) := fun s => rest s s

theorem Fails.liftM {x : Except Error α} (fails : ScriptMachine.Fails P x) :
    Fails P (liftM x : Effect σ α) := by
  intro s
  rw [ensures_liftM]
  cases x with
  | ok a => trivial
  | error e => exact fails e rfl

theorem Fails.andAlways {op : Effect σ α} (first : Fails P op) (change : σ → σ) :
    Fails P (op.andAlways change) := by
  intro s
  rw [ensures_andAlways]
  exact (first s).mono (fun _ _ _ => trivial) fun _ _ fails => fails

theorem Fails.onFailure {op : Effect σ α} (first : Fails P op) (change : σ → σ) :
    Fails P (op.onFailure change) := by
  intro s
  rw [ensures_onFailure]
  exact (first s).mono (fun _ _ _ => trivial) fun _ _ fails => fails

theorem Fails.onPart {op : Effect τ α} (first : Fails P op) (read : σ → τ) (write : τ → σ → σ) :
    Fails P (op.onPart read write) := by
  intro s
  rw [ensures_onPart]
  exact (first (read s)).mono (fun _ _ _ => trivial) fun _ _ fails => fails

end Effect

namespace Heap

variable {H α : Type}

theorem tame_handleOf (v : Value) (kind : HeapKind) : Tame (handleOf v kind) := by
  unfold handleOf
  split
  · exact fails_ite (fails_ok _) (fails_error rfl)
  · exact fails_error rfl

section
variable (h : Heap H)

theorem tame_object (x : Handle) : Tame (h.object x) := by
  unfold object
  split
  · exact fails_ok _
  · exact fails_error rfl

theorem tame_structureOf (v : Value) : Tame (h.structureOf v) := by
  refine fails_bind (tame_handleOf v .struct) fun x => fails_bind (h.tame_object x) fun o => ?_
  cases o <;> first | exact fails_ok _ | exact fails_error rfl

theorem tame_structureFor (v : Value) (uses : Structure → List Use) :
    Tame (h.structureFor v uses) := by
  refine fails_bind (h.tame_structureOf v) fun s => ?_
  split
  · exact fails_bind (fails_error rfl) fun _ => fails_ok _
  · exact fails_ok _

theorem tame_callableOf (v : Value) : Tame (h.callableOf v) := by
  refine fails_bind (tame_handleOf v .callable) fun x => fails_bind (h.tame_object x) fun o => ?_
  cases o <;> first | exact fails_ok _ | exact fails_error rfl

theorem tame_iteratorAt (x : Handle) : Tame (h.iteratorAt x) := by
  refine fails_bind (h.tame_object x) fun o => ?_
  cases o <;> first | exact fails_ok _ | exact fails_error rfl

theorem tame_getChild (target key : Value) : Tame (h.getChild target key) := by
  refine fails_bind (h.tame_structureFor target _) fun s => ?_
  cases Key.ofValue key <;> exact fails_ok _

theorem tame_hasChild (target key : Value) : Tame (h.hasChild target key) := by
  refine fails_bind (h.tame_structureFor target _) fun s => ?_
  cases Key.ofValue key <;> exact fails_ok _

theorem tame_length (v : Value) : Tame (h.length v) := by
  unfold length
  cases v.content <;> first
    | exact fails_ok _
    | exact fails_bind (h.tame_structureOf v) fun _ => fails_ok _

theorem tame_currentEntry (v : Value) (key : Bool) : Tame (h.currentEntry v key) :=
  fails_bind (tame_handleOf v .iterator) fun x =>
    fails_bind (h.tame_iteratorAt x) fun _ => fails_ok _

end

theorem discard_tame (v : Value) : (discard v : HeapM H Unit).Tame := .modify _

theorem discardAll_tame (vs : List Value) : (discardAll vs : HeapM H Unit).Tame := .modify _

theorem discard_throw_tame (v : Value) {e : Error} (tame : e.tame) :
    (discard v >>= fun _ => throw e : HeapM H α).Tame :=
  (discard_tame v).bind fun _ => .throw tame

theorem changeStructure_tame (v : Value) (uses : Structure → List Use)
    (f : Structure → StructurePools → α × Structure × StructurePools) :
    (changeStructure v uses f : HeapM H α).Tame :=
  .get_bind fun h => (Effect.Fails.liftM (h.tame_structureFor v uses)).bind fun _ =>
    (Effect.Fails.liftM (tame_handleOf v .struct)).bind fun _ _ => trivial

theorem readStructure_tame (v : Value) (uses : Structure → List Use)
    (f : Structure → α × Structure) :
    (readStructure v uses f : HeapM H α).Tame := changeStructure_tame _ _ _

theorem setChildKey_tame (target : Value) (key : Key) (value : Value) :
    (setChildKey target key value : HeapM H Unit).Tame := by
  unfold setChildKey
  split
  · exact (discard_tame _).bind fun _ _ => rfl
  · refine .get_bind fun h => ?_
    cases found : h.structureFor target fun _ => [.write key] with
    | error e => exact discard_throw_tame _ (h.tame_structureFor target _ e found)
    | ok s => exact (changeStructure_tame _ _ _).bind fun _ => discardAll_tame _

theorem setChild_tame (target key value : Value) :
    (setChild target key value : HeapM H Unit).Tame := by
  unfold setChild
  cases found : Key.ofValue key with
  | error e => exact discard_throw_tame _ (Key.tame_ofValue key e found)
  | ok key => exact setChildKey_tame target key value

theorem append_tame (target value : Value) (front : Bool) :
    (append target value front : HeapM H Unit).Tame := by
  refine .get_bind fun h => ?_
  cases found : h.structureFor target fun _ => endUses front with
  | error e => exact discard_throw_tame _ (h.tame_structureFor target _ e found)
  | ok s => exact (readStructure_tame _ _ _).bind fun _ => setChildKey_tame _ _ _

theorem release_tame (v : Value) : (release v : HeapM H Unit).Tame := by
  unfold release
  split
  · exact .pure _
  · split
    · refine .get_bind fun h => ?_
      split
      · exact fun _ => rfl
      · exact discard_tame v
    · exact .throw rfl

theorem openIterator_tame (v : Value) : (openIterator v : HeapM H Value).Tame := by
  unfold openIterator
  split
  · exact .pure _
  · refine .get_bind fun h => ?_
    cases found : h.structureOf v with
    | error e => exact discard_throw_tame _ (h.tame_structureOf v e found)
    | ok s => exact fun _ => trivial
  · exact discard_throw_tame _ rfl

theorem changeIterator_tame (x : Handle) (f : Iterator → α × Iterator) :
    (changeIterator x f : HeapM H α).Tame :=
  .get_bind fun h => (Effect.Fails.liftM (h.tame_iteratorAt x)).bind fun _ _ => trivial

theorem publishNext_tame (x : Handle) (target : Value) (position : Option Key) :
    (publishNext x target position : HeapM H Bool).Tame :=
  (readStructure_tame _ _ _).bind fun _ => (changeIterator_tame x _).bind fun _ =>
    (discardAll_tame _).bind fun _ => .pure _

theorem advanceWalk_tame (x : Handle) : (advanceWalk x : HeapM H Bool).Tame := by
  refine .get_bind fun h => (Effect.Fails.liftM (h.tame_iteratorAt x)).bind fun it => ?_
  split
  · exact .pure _
  · split
    · exact publishNext_tame _ _ _
    · exact publishNext_tame _ _ _
    · exact .pure _
    · exact .throw rfl

theorem advanceIterator_tame (v : Value) : (advanceIterator v : HeapM H Advanced).Tame := by
  refine (Effect.Fails.liftM (tame_handleOf v .iterator)).bind fun x => .get_bind fun h =>
    (Effect.Fails.liftM (h.tame_iteratorAt x)).bind fun it => ?_
  split
  · exact .pure _
  · exact (advanceWalk_tame x).bind fun _ => .pure _

theorem allocLike_tame (source : Object H) (values : List Value) :
    (allocLike source values).Tame := by
  refine .get_bind fun h => ?_
  cases source with
  | callable c => cases c <;> exact fun _ => trivial
  | struct s => exact fun _ => trivial
  | _ => exact .throw rfl

theorem copyParts_tame {copyOwned : Value → HeapM H Value} (tame : ∀ v, (copyOwned v).Tame)
    (values : List Value) : ∀ copied, (copyParts copyOwned values copied).Tame := by
  induction values with
  | nil => exact fun _ => .pure _
  | cons v rest ih =>
    intro copied
    unfold copyParts
    split
    · exact ((tame v).onFailure _).bind fun _ => ih _
    · exact ih _

theorem copyWithin_tame (deep : Bool) (fuel : Nat) :
    ∀ v, (copyWithin deep fuel v : HeapM H Value).Tame := by
  induction fuel with
  | zero => exact fun v => .get_bind fun h => .throw rfl
  | succ fuel ih =>
    intro v
    unfold copyWithin
    split
    · exact .pure _
    · exact .throw rfl
    · exact .throw rfl
    · rename_i x _ _ _
      have borrowed : ∀ h : Heap H, Tame (h.borrow x) := by
        intro h
        unfold borrow
        split
        · exact fails_ok _
        · exact fails_error rfl
      refine .get_bind fun h => (Effect.Fails.liftM (borrowed h)).bind fun (object, h) =>
        (Effect.Fails.set h).bind fun _ => ?_
      refine Effect.Fails.andAlways ((copyParts_tame ?_ _ _).bind fun _ => allocLike_tame _ _) _
      cases deep with
      | true => exact ih
      | false => exact fun _ => .pure _

theorem deepCopy_tame (v : Value) : (deepCopy v : HeapM H Value).Tame :=
  .get_bind fun _ => copyWithin_tame _ _ v

end Heap

namespace Exec

variable {H α : Type}

theorem heap_tame {op : HeapM H α} (tame : op.Tame) : (liftM op : Exec H α).Tame :=
  tame.onPart _ _

theorem onFrame_tame {op : Frame → Except Error (α × Frame)} (tame : ∀ f, Tame (op f)) :
    (onFrame op : Exec H α).Tame :=
  .get_bind fun c => (Effect.Fails.liftM (tame c.frame)).bind fun _ _ => trivial

theorem changeFrame_tame {op : Frame → Except Error Frame} (tame : ∀ f, Tame (op f)) :
    (changeFrame op : Exec H Unit).Tame :=
  onFrame_tame fun f => fails_bind (tame f) fun _ => fails_ok _

theorem readFrame_tame {op : Frame → Except Error α} (tame : ∀ f, Tame (op f)) :
    (readFrame op : Exec H α).Tame :=
  .get_bind fun c => .liftM (tame c.frame)

theorem readHeap_tame {op : Heap H → Except Error α} (tame : ∀ h, Tame (op h)) :
    (readHeap op : Exec H α).Tame :=
  .get_bind fun c => .liftM (tame c.heap)

theorem push_tame (v : Value) : (push v : Exec H Unit).Tame := .modify _

theorem letGo_tame (vs : List Value) : (modify (letGo vs) : Exec H Unit).Tame := .modify _

theorem send_tame (vs : List Value) : (send vs : Exec H Unit).Tame := .modify _

theorem pop_tame : (pop : Exec H Value).Tame := onFrame_tame Frame.tame_pop

theorem popN_tame (n : Nat) : (popN n : Exec H (List Value)).Tame :=
  onFrame_tame fun f => f.tame_popN n

theorem popTwo_tame : (popTwo : Exec H (Value × Value)).Tame :=
  pop_tame.bind fun _ => pop_tame.bind fun _ => .pure _

theorem consuming_tame (operands : List Value) {op : Exec H α} (tame : op.Tame) :
    (consuming operands op).Tame := tame.andAlways _

theorem thenNext_tame {op : Exec H Unit} (tame : op.Tame) : (thenNext op).Tame :=
  tame.bind fun _ => .pure _

theorem unary_tame {op : Value → Exec H Value} (tame : ∀ v, (op v).Tame) : (unary op).Tame :=
  pop_tame.bind fun v => (consuming_tame [v] (tame v)).bind push_tame

theorem binary_tame {op : Value → Value → Exec H Value} (tame : ∀ a b, (op a b).Tame) :
    (binary op).Tame :=
  popTwo_tame.bind fun (a, b) => (consuming_tame [a, b] (tame a b)).bind push_tame

theorem branch_tame (wanted : Bool) (target : Nat) : (branch wanted target : Exec H Flow).Tame :=
  pop_tame.bind fun v => (consuming_tame [v] (.liftM v.tame_truthy)).bind fun _ => .pure _

theorem storeLocal_tame (slot : Nat) (v : Value) : (storeLocal slot v : Exec H Unit).Tame := by
  refine .get_bind fun c => ?_
  cases swapped : c.frame.swapLocal slot v with
  | error e => exact (letGo_tame [v]).bind fun _ => .throw (c.frame.tame_swapLocal slot v e swapped)
  | ok result => exact .modify _

theorem storeGlobal_tame (path : String) : (storeGlobal path : Exec H Unit).Tame := by
  refine pop_tame.bind fun v => .get_bind fun c => ?_
  cases stored : c.globals.store path v with
  | error e => exact (letGo_tame [v]).bind fun _ => .throw (c.globals.tame_store path v e stored)
  | ok result => exact .modify _

theorem makeClosure_tame {units : UnitTable} {name : String} (known : units.contains name)
    (n : Nat) : (makeClosure units name n : Exec H Unit).Tame := by
  obtain ⟨unit, found⟩ := Option.isSome_iff_exists.mp known
  unfold makeClosure
  rw [show SortedMap.get? units name = some unit from found]
  exact (popN_tame n).bind fun _ => .get_bind fun _ _ => trivial

theorem loadCapture_tame (slot : Nat) : (loadCapture slot : Exec H Unit).Tame := by
  have missing : ∀ f : Frame,
      (f.malformed s!"capture {slot} out of range").tame := by
    intro f
    refine Error.tame_malformed _ ?_ ?_ <;> simp [String.toList_append, toString]
  refine .get_bind fun c => (Effect.Fails.liftM (c.heap.tame_callableOf _)).bind fun callable => ?_
  cases callable with
  | host => exact .throw (missing _)
  | script unit captures =>
    simp only
    split
    · exact push_tame _
    · exact .throw (missing _)

theorem callMethod_tame (name : String) (n : Nat) : (callMethod name n : Exec H Flow).Tame := by
  refine (popN_tame n).bind fun args => pop_tame.bind fun receiver => .get_bind fun c => ?_
  cases found : c.heap.getChild receiver (.str name) with
  | error e => exact (letGo_tame _).bind fun _ => .throw (c.heap.tame_getChild _ _ e found)
  | ok method =>
    simp only
    split
    · exact (letGo_tame _).bind fun _ => .throw rfl
    · exact (send_tame args).bind fun _ => .pure _

theorem fetch_tame (target key : Value) : (fetch target key : Exec H Value).Tame := by
  unfold fetch
  split
  · exact heap_tame (Heap.readStructure_tame _ _ _)
  · exact readHeap_tame fun h => h.tame_getChild target key

theorem iterNext_tame (exhausted : Nat) : (iterNext exhausted : Exec H Flow).Tame := by
  refine pop_tame.bind fun it =>
    (consuming_tame [it] (heap_tame (Heap.advanceIterator_tame it))).bind fun advanced => ?_
  cases advanced <;> exact .pure _

end Exec

/-! ## Instructions -/

def Instruction.Finds (units : UnitTable) (ins : Instruction) : Prop :=
  ∀ name, Machine.referenced ins = some name → units.contains name

def CodeUnit.Finds (units : UnitTable) (u : CodeUnit) : Prop := ∀ ins ∈ u.code, ins.Finds units

def Flow.Finds (units : UnitTable) (flow : Flow) : Prop :=
  ∀ name this, flow = .call (.unit name) this → units.contains name

def Deferral.Holds (P : Error → Prop) (d : Deferral) : Prop := ∀ e, d.error = some e → P e

/-- What is held back is of the sort of what arrives. -/
theorem Deferral.Follows.holds {P : Error → Prop} {ms : List Moment}
    (arrives : ∀ e, .left (.fails e) ∈ ms → P e) :
    ∀ {d d' : Deferral}, d.Follows ms d' → d.Holds P → d'.Holds P := by
  induction ms with
  | nil =>
    intro d d' same held
    cases same
    exact held
  | cons m ms ih =>
    intro d d' follows held
    refine ih (fun e mem => arrives e (List.mem_cons_of_mem _ mem)) follows.2 ?_
    cases m with
    | armed | entered => exact held
    | reissued =>
      intro e kept
      simp only [Deferral.after] at kept
      split at kept
      · cases kept
      · exact held e kept
    | left departure =>
      cases departure with
      | returns => exact held
      | fails e =>
        intro e' kept
        cases kept
        exact arrives e (List.mem_cons_self ..)

/-- An error that is held back says nothing of a unit that is not there. -/
def Deferral.Mild (d : Deferral) : Prop := d.Holds (·.lacksUnit = false)

theorem Instruction.fails_not_mem_moments (ins : Instruction) (flow : Option Flow) (e : Error) :
    .left (.fails e) ∉ ins.moments flow := by
  unfold moments
  split <;> simp

namespace Exec

variable {H : Type} {units : UnitTable}

theorem single_tame {r : Resolved} (makes : r.ins.op = .makeClosure → r.ins.Finds units)
    (first : r.ins.op ≠ .deferEnd) : (single (H := H) units r).Tame := by
  have logics : ∀ conjunction a b, Tame (logic conjunction a b) := fun conjunction a b =>
    fails_bind a.tame_truthy fun _ => fails_bind b.tame_truthy fun _ => fails_ok _
  have liftTame {α : Type} {x : Except Error α} (tame : Tame x) : (liftM x : Exec H α).Tame :=
    .liftM tame
  unfold single
  cases op : r.ins.op <;> simp only [op]
  case deferEnd => exact absurd op first
  case nop | jump | jumpBack | returnLocals | finalize => exact .pure _
  case fatal => exact .throw rfl
  case throw => exact pop_tame.bind fun _ => .throw rfl
  case pushNull | pushInt | pushFloat | pushString | pushBool | pushEnum =>
    exact thenNext_tame (push_tame _)
  case pop => exact thenNext_tame (pop_tame.bind fun v => letGo_tame [v])
  case dup => exact thenNext_tame ((readFrame_tame Frame.tame_peek).bind fun v => push_tame v.share)
  case loadLocal =>
    exact thenNext_tame
      ((readFrame_tame fun f => f.tame_readLocal _).bind fun v => push_tame v.share)
  case swap =>
    exact thenNext_tame (popTwo_tame.bind fun (a, b) => (push_tame b).bind fun _ => push_tame a)
  case autoConvert => exact thenNext_tame (changeFrame_tame fun f => f.tame_updateTop _)
  case moveLocal =>
    exact thenNext_tame ((onFrame_tame fun f => f.tame_swapLocal _ _).bind push_tame)
  case storeLocal => exact thenNext_tame (pop_tame.bind fun v => storeLocal_tame _ v)
  case shadowSave => exact thenNext_tame (changeFrame_tame fun f => f.tame_saveShadow _)
  case shadowRestore =>
    exact thenNext_tame ((onFrame_tame fun f => f.tame_restoreShadow _).bind fun v =>
      letGo_tame [v])
  case loadGlobal | loadThis => exact thenNext_tame (.get_bind fun _ => push_tame _)
  case storeGlobal => exact thenNext_tame (storeGlobal_tame _)
  case eq | ne | lt | le | gt | ge => exact thenNext_tame (binary_tame fun _ _ => .pure _)
  case add | sub | mul | div | mod =>
    exact thenNext_tame (binary_tame fun a b => .liftM (ArithOp.tame_apply _ a b))
  case and | or => exact thenNext_tame (binary_tame fun a b => .liftM (logics _ a b))
  case neg => exact thenNext_tame (unary_tame fun v => .liftM v.tame_negate)
  case not =>
    exact thenNext_tame (unary_tame fun v => (liftTame v.tame_truthy).bind fun _ => .pure _)
  case jumpIfFalse | jumpIfTrue => exact branch_tame _ _
  case makeClosure =>
    exact thenNext_tame (makeClosure_tame (makes op _ (by simp [Machine.referenced, op])) _)
  case loadCapture => exact thenNext_tame (loadCapture_tame _)
  case call =>
    exact (popN_tame _).bind fun args => pop_tame.bind fun _ => (send_tame args).bind fun _ =>
      .pure _
  case callDirect | callName =>
    exact (popN_tame _).bind fun args => (send_tame args).bind fun _ => .pure _
  case callMethod => exact callMethod_tame _ _
  case ret | yield => exact (popN_tame _).bind fun vs => (send_tame vs).bind fun _ => .pure _
  case newStruct | newQueue => exact thenNext_tame (.get_bind fun _ _ => trivial)
  case getKey =>
    exact thenNext_tame (popTwo_tame.bind fun (target, key) =>
      (consuming_tame _ (fetch_tame target key)).bind push_tame)
  case getField =>
    exact thenNext_tame (pop_tame.bind fun target =>
      (consuming_tame _ (fetch_tame target _)).bind push_tame)
  case setKey =>
    exact thenNext_tame (pop_tame.bind fun _ => popTwo_tame.bind fun _ =>
      consuming_tame _ (heap_tame (Heap.setChild_tame _ _ _)))
  case setField =>
    exact thenNext_tame (popTwo_tame.bind fun _ =>
      consuming_tame _ (heap_tame (Heap.setChild_tame _ _ _)))
  case append | prepend =>
    exact thenNext_tame (popTwo_tame.bind fun _ =>
      consuming_tame _ (heap_tame (Heap.append_tame _ _ _)))
  case deleteKey =>
    exact thenNext_tame (popTwo_tame.bind fun _ =>
      (consuming_tame _ (heap_tame (Heap.readStructure_tame _ _ _))).bind push_tame)
  case hasKey =>
    exact thenNext_tame (popTwo_tame.bind fun (target, key) =>
      (consuming_tame _ (readHeap_tame fun h => h.tame_hasChild target key)).bind fun found =>
        push_tame (.bool found))
  case length =>
    exact thenNext_tame (unary_tame fun v => (readHeap_tame fun h => h.tame_length v).bind fun _ =>
      .pure _)
  case popFront | popBack | firstKey | lastKey =>
    exact thenNext_tame (unary_tame fun v => heap_tame (Heap.readStructure_tame v _ _))
  case deepCopy => exact thenNext_tame (unary_tame fun v => heap_tame (Heap.deepCopy_tame v))
  case shallowCopy =>
    exact thenNext_tame (unary_tame fun v => heap_tame (Heap.copyWithin_tame false 1 v))
  case release => exact thenNext_tame (pop_tame.bind fun v => heap_tame (Heap.release_tame v))
  case trapSet | trapClear => exact thenNext_tame (.modify _)
  case deferArm => exact thenNext_tame (changeFrame_tame fun f => f.tame_armDefer _)
  case deferCheck => exact .get_bind fun _ _ => trivial
  case iterNew =>
    exact thenNext_tame (pop_tame.bind fun v => (heap_tame (Heap.openIterator_tame v)).bind
      push_tame)
  case iterNext => exact iterNext_tame _
  case iterKey | iterValue =>
    exact thenNext_tame (unary_tame fun v => readHeap_tame fun h => h.tame_currentEntry v _)

theorem single_answers {r : Resolved} (finds : r.ins.Finds units) :
    (single (H := H) units r).Answers (Flow.Finds units) := by
  intro c
  refine (single_asks units r c).mono (fun flow _ asked name this same => ?_) fun _ _ _ => trivial
  subst same
  obtain ⟨op, rfl, -⟩ := asked
  exact finds _ (by simp [Machine.referenced, op])

variable {P : Error → Prop}

theorem endDefer_says {c : Context H} (held : c.frame.deferral.Holds P) :
    endDefer.Ensures c (fun _ _ => True) fun e _ => P e := by
  unfold Effect.Ensures
  rw [endDefer_eq, reissue]
  cases kept : c.frame.pendingError with
  | some e => exact held e kept
  | none =>
    cases c.frame.pendingReturn with
    | none => trivial
    | some exit => cases exit <;> trivial

/-- Tame errors are of the sort, and so is whatever is held back. -/
theorem single_says (tame : ∀ e : Error, e.tame → P e) {r : Resolved}
    (makes : r.ins.op = .makeClosure → r.ins.Finds units) {c : Context H}
    (held : c.frame.deferral.Holds P) :
    (single units r).Ensures c (fun _ _ => True) fun e _ => P e := by
  by_cases last : r.ins.op = .deferEnd
  · simp only [single, last]
    exact endDefer_says held
  · exact (single_tame makes last c).mono (fun _ _ _ => trivial) fun e _ => tame e

/-- An instruction that finds what it names says of no unit that it is not there, unless that was
said before and held back. -/
theorem single_finds {r : Resolved} (finds : r.ins.Finds units) {c : Context H}
    (held : c.frame.deferral.Mild) :
    (single units r).Ensures c (fun flow _ => flow.Finds units) fun e _ => e.lacksUnit = false := by
  have mild := single_says (P := (·.lacksUnit = false))
    (fun _ tame => (Error.tame_iff.mp tame).1) (fun _ => finds) held
  exact ((single_answers finds c).and mild).mono (fun _ _ after => after.1) fun _ _ after => after.2

section
variable {may : Panic → Prop} (overflow : may .overflow)
include overflow

/-- The unit of a closure may not be there, but that is all that is said of it. -/
theorem makeClosure_bounded (name : String) (n : Nat) (c : Context H) :
    (makeClosure units name n).Ensures c (fun _ _ => True) fun e _ => e.Bounded may := by
  by_cases known : units.contains name
  · exact (makeClosure_tame known n c).mono (fun _ _ _ => trivial)
      fun _ _ tame => Error.bounded_of_tame overflow tame
  · have missing : units.get? name = none := by simpa [SortedMap.contains] using known
    unfold makeClosure
    rw [missing]
    exact nofun

/-- No instruction panics but for an overflow, unless that was done before and held back. -/
theorem single_bounded {r : Resolved} {c : Context H}
    (held : c.frame.deferral.Holds (Error.Bounded may)) :
    (single units r).Ensures c (fun _ _ => True) fun e _ => e.Bounded may := by
  by_cases closure : r.ins.op = .makeClosure
  · simp only [single, closure, thenNext, Effect.ensures_bind]
    exact (makeClosure_bounded overflow _ _ c).mono (fun _ _ _ => trivial) fun _ _ fits => fits
  · exact single_says (fun _ tame => Error.bounded_of_tame overflow tame)
      (fun op => absurd op closure) held

end

/-- What each instruction says, a run of instructions says. -/
theorem sequence_says {post : Flow → Prop} (next : post .next) {span : List Resolved} :
    (∀ r ∈ span, ∀ c : Context H, c.frame.deferral.Holds P →
      (single units r).Ensures c (fun flow _ => post flow) fun e _ => P e) →
    ∀ {c : Context H}, c.frame.deferral.Holds P →
      (sequence units span).Ensures c (fun flow _ => post flow) fun e _ => P e := by
  induction span with
  | nil => exact fun _ _ _ => next
  | cons r span ih =>
    intro each c held
    obtain ⟨first, others⟩ := List.forall_mem_cons.mp each
    have said := first c held
    have moments := single_moments units r c
    cases run : single units r c with
    | error e t =>
      rw [Effect.ensures_of_eq_error run] at said
      exact (Effect.ensures_of_eq_error (sequence_error units run)).mpr said
    | ok flow t =>
      rw [Effect.ensures_of_eq_ok run] at said moments
      by_cases next : flow = .next
      · subst next
        have kept : t.frame.deferral.Holds P :=
          moments.1.holds (fun e mem => absurd mem (r.ins.fails_not_mem_moments _ e)) held
        unfold Effect.Ensures
        rw [sequence_next units run]
        exact ih others kept
      · exact (Effect.ensures_of_eq_ok (sequence_stop units run next)).mpr said

section
variable {u : CodeUnit} {targets : List (Option Nat)} {fusion : Bool} {step : Step} {c : Context H}

theorem action_says {post : Flow → Prop} (next : post .next) (laid : u.Laid targets fusion)
    (mem : step ∈ u.steps) (runs : c.frame.Runs u) (held : c.frame.deferral.Holds P)
    (each : ∀ r ∈ u.span step, ∀ c : Context H, c.frame.deferral.Holds P →
      (single units r).Ensures c (fun flow _ => post flow) fun e _ => P e) :
    (action units step.action).Ensures c (fun flow _ => post flow) fun e _ => P e := by
  unfold Effect.Ensures
  rw [action_of_runs units laid mem runs]
  exact sequence_says next each held

theorem action_finds (laid : u.Laid targets fusion) (mem : step ∈ u.steps) (finds : u.Finds units)
    (runs : c.frame.Runs u) (held : c.frame.deferral.Mild) :
    (action units step.action).Ensures c (fun flow _ => flow.Finds units)
      fun e _ => e.lacksUnit = false := by
  refine action_says (fun _ _ same => by cases same) laid mem runs held fun r listed c held => ?_
  have resolved := List.mem_of_mem_drop (List.mem_of_mem_take listed)
  exact single_finds (finds r.ins (laid.map_resolved ▸ List.mem_map_of_mem resolved)) held

/-- No step panics but for an overflow. -/
theorem action_bounded {may : Panic → Prop} (overflow : may .overflow) (laid : u.Laid targets fusion)
    (mem : step ∈ u.steps) (runs : c.frame.Runs u)
    (held : c.frame.deferral.Holds (Error.Bounded may)) :
    (action units step.action).Ensures c (fun _ _ => True) fun e _ => e.Bounded may :=
  action_says trivial laid mem runs held fun _ _ _ held => single_bounded overflow held

end

end Exec

end ScriptMachine
