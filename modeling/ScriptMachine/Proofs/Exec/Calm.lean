import ScriptMachine.Proofs.Exec.Recompiled
import ScriptMachine.Proofs.Heap.Generators

/-!
# What instructions leave alone

Whatever an instruction does to the heap, it changes no generator and brings in no code but that of
known units; and the frame that runs it goes on to run the same unit for the same iterator. What the
frame keeps for its deferred blocks is touched by three instructions only, and the channel only by
those that send something. All this holds in every context, also if the instruction fails.

A `Watch` says which of these is asked for, so that one walk through the instructions serves them
all.
-/

set_option autoImplicit false

namespace ScriptMachine

structure Deferral where
  armed : List Bool
  returns : Option PendingReturn
  error : Option Error

def Frame.deferral (f : Frame) : Deferral := ⟨f.defers, f.pendingReturn, f.pendingError⟩

/-- The instructions that have to do with deferred blocks. -/
def Opcode.defers : Opcode → Bool
  | .deferArm | .deferCheck | .deferEnd => true
  | _ => false

/-- All units of a table have `Q`. -/
def UnitTable.Codes (Q : CodeUnit → Prop) (units : UnitTable) : Prop :=
  ∀ name u, SortedMap.get? units name = some u → Q u

theorem UnitTable.codes_single {Q : CodeUnit → Prop} {u : CodeUnit} (code : Q u) (name : String) :
    UnitTable.Codes Q ⟨[(name, u)]⟩ := by
  intro other v found
  unfold SortedMap.get? SortedMap.lookup at found
  split at found
  · cases found
    exact code
  · cases found

/-! ## Operations on frames -/

namespace Frame

variable {f g : Frame} {v : Value}

theorem swapLocal_deferral {slot : Nat} {old : Value} (run : f.swapLocal slot v = .ok (old, g)) :
    g.deferral = f.deferral := by
  unfold swapLocal at run
  split at run <;> cases run
  rfl

theorem pop_deferral (run : f.pop = .ok (v, g)) : g.deferral = f.deferral := by
  unfold pop at run
  split at run <;> cases run
  rfl

theorem popN_deferral {n : Nat} {vs : List Value} (run : f.popN n = .ok (vs, g)) :
    g.deferral = f.deferral := by
  unfold popN at run
  split at run <;> cases run
  rfl

theorem updateTop_deferral {change : Value → Value} (run : f.updateTop change = .ok g) :
    g.deferral = f.deferral := by
  unfold updateTop at run
  split at run <;> cases run
  rfl

theorem saveShadow_deferral {slot : Nat} (run : f.saveShadow slot = .ok g) :
    g.deferral = f.deferral := by
  obtain ⟨saved, swapped, run⟩ := ok_of_bind run
  cases run
  have same := swapLocal_deferral swapped
  exact same

theorem restoreShadow_deferral {slot : Nat} (run : f.restoreShadow slot = .ok (v, g)) :
    g.deferral = f.deferral := by
  unfold restoreShadow at run
  split at run
  · cases run
  · have same := swapLocal_deferral run
    exact same

theorem pushAll_deferral (vs : List Value) :
    ∀ f : Frame, (f.pushAll vs).deferral = f.deferral := by
  induction vs with
  | nil => exact fun _ => rfl
  | cons v vs ih => exact fun f => ih (f.push v)

end Frame

/-! ## Contexts -/

structure Context.Calm {H : Type} (Q : CodeUnit → Prop) (h : Heap H) (f : Frame)
    (c : Context H) : Prop where
  heap : h.Grows Q c.heap
  unit : c.frame.unit = f.unit
  generator : c.frame.generator = f.generator

structure Watch (H : Type) where
  code : CodeUnit → Prop
  heap : Heap H
  frame : Frame
  channel : List Value
  /-- Generators on the heap are left alone. -/
  grown : Prop
  /-- What the frame keeps for its deferred blocks is left alone. -/
  spared : Prop
  silent : Prop

namespace Watch

variable {H : Type} {w : Watch H} {c : Context H}

structure Holds (w : Watch H) (c : Context H) : Prop where
  heap : w.grown → w.heap.Grows w.code c.heap
  unit : c.frame.unit = w.frame.unit
  generator : c.frame.generator = w.frame.generator
  deferral : w.spared → c.frame.deferral = w.frame.deferral
  channel : w.silent → c.channel = w.channel

def calm (Q : CodeUnit → Prop) (h : Heap H) (f : Frame) : Watch H :=
  { code := Q, heap := h, frame := f, channel := [], grown := True, spared := False,
    silent := False }

theorem holds_calm (Q : CodeUnit → Prop) (h : Heap H) (f : Frame) :
    (calm Q h f).Holds = Context.Calm Q h f := by
  funext c
  refine propext ⟨fun holds => ⟨holds.heap trivial, holds.unit, holds.generator⟩, fun calm => ?_⟩
  exact ⟨fun _ => calm.heap, calm.unit, calm.generator, False.elim, False.elim⟩

/-- Asks that the frame keeps what it has in `c` for its deferred blocks, and the channel what it
holds if there is reason to. -/
def still (c : Context H) (silent : Prop) : Watch H :=
  { code := fun _ => True, heap := c.heap, frame := c.frame, channel := c.channel, grown := False,
    spared := True, silent }

theorem holds_still (c : Context H) (silent : Prop) : (still c silent).Holds c :=
  ⟨False.elim, rfl, rfl, fun _ => rfl, fun _ => rfl⟩

theorem Holds.edit (holds : w.Holds c) {g : Frame} (unit : g.unit = c.frame.unit)
    (generator : g.generator = c.frame.generator)
    (deferral : w.spared → g.deferral = c.frame.deferral) : w.Holds { c with frame := g } :=
  ⟨holds.heap, unit.trans holds.unit, generator.trans holds.generator,
    fun spared => (deferral spared).trans (holds.deferral spared), holds.channel⟩

theorem Holds.regrow (holds : w.Holds c) {k : Heap H}
    (grows : w.grown → w.heap.Grows w.code c.heap → w.heap.Grows w.code k) :
    w.Holds { c with heap := k } :=
  ⟨fun grown => grows grown (holds.heap grown), holds.unit, holds.generator, holds.deferral,
    holds.channel⟩

theorem Holds.letGo (holds : w.Holds c) (vs : List Value) : w.Holds (Exec.letGo vs c) :=
  holds.regrow fun _ grows => grows.disposeAll vs

end Watch

namespace Exec

variable {H α : Type} {w : Watch H}

/-! ## Operations -/

theorem heap_keeps {op : HeapM H α}
    (keeps : ∀ P, Object.Stable P → op.Keeps (Heap.Later P [] w.heap)) :
    (liftM op : Exec H α).Keeps w.Holds := by
  intro c holds
  refine (Effect.ensures_onPart ..).mpr ?_
  have heap : op.Ensures c.heap (fun _ k => w.grown → w.heap.Grows w.code k)
      (fun _ k => w.grown → w.heap.Grows w.code k) := by
    by_cases grown : w.grown
    · exact (Heap.Grows.keeps keeps c.heap (holds.heap grown)).mono (fun _ _ grows _ => grows)
        fun _ _ grows _ => grows
    · unfold Effect.Ensures
      split <;> exact fun asked => absurd asked grown
  exact heap.mono (fun _ _ grows => holds.regrow fun grown _ => grows grown)
    fun _ _ grows => holds.regrow fun grown _ => grows grown

theorem onFrame_keeps {op : Frame → Except Error (α × Frame)} (alike : Frame.Alike op)
    (same : ∀ f a g, op f = .ok (a, g) → g.deferral = f.deferral) :
    (onFrame op : Exec H α).Keeps w.Holds := by
  intro c holds
  simp only [onFrame, Effect.ensures_bind, Effect.ensures_get, Effect.ensures_liftM]
  cases run : op c.frame with
  | error e => exact holds
  | ok result =>
    have edit := alike.edits c.frame result.1 result.2 run
    exact holds.edit edit.unit edit.generator fun _ => same _ _ _ run

theorem changeFrame_keeps {op : Frame → Except Error Frame} (alike : Frame.AlikeChange op)
    (same : w.spared → ∀ f g, op f = .ok g → g.deferral = f.deferral) :
    (changeFrame op : Exec H Unit).Keeps w.Holds := by
  intro c holds
  simp only [changeFrame, onFrame, Effect.ensures_bind, Effect.ensures_get, Effect.ensures_liftM]
  cases run : op c.frame with
  | error e => exact holds
  | ok g =>
    have edit := alike.edits c.frame g run
    exact holds.edit edit.unit edit.generator fun spared => same spared _ _ run

theorem readFrame_keeps (op : Frame → Except Error α) (I : Context H → Prop) :
    (readFrame op : Exec H α).Keeps I := fun c here => Effect.Keeps.liftM I (op c.frame) c here

theorem readHeap_keeps (op : Heap H → Except Error α) (I : Context H → Prop) :
    (readHeap op : Exec H α).Keeps I := fun c here => Effect.Keeps.liftM I (op c.heap) c here

theorem push_keeps (v : Value) : (push v : Exec H Unit).Keeps w.Holds :=
  .modify fun _ holds => holds.edit rfl rfl fun _ => rfl

theorem send_keeps (loud : ¬ w.silent) (vs : List Value) :
    (send vs : Exec H Unit).Keeps w.Holds :=
  .modify fun _ holds => ⟨holds.heap, holds.unit, holds.generator, holds.deferral,
    fun silent => absurd silent loud⟩

theorem letGo_keeps (vs : List Value) : (modify (letGo vs) : Exec H Unit).Keeps w.Holds :=
  .modify fun _ holds => holds.letGo vs

theorem pop_keeps : (pop : Exec H Value).Keeps w.Holds :=
  onFrame_keeps Frame.pop_alike fun _ _ _ => Frame.pop_deferral

theorem popN_keeps (n : Nat) : (popN n : Exec H (List Value)).Keeps w.Holds :=
  onFrame_keeps (Frame.popN_alike n) fun _ _ _ => Frame.popN_deferral

theorem popTwo_keeps : (popTwo : Exec H (Value × Value)).Keeps w.Holds :=
  pop_keeps.bind fun _ => pop_keeps.bind fun _ => .pure _ _

theorem consuming_keeps (operands : List Value) {op : Exec H α} (keeps : op.Keeps w.Holds) :
    (consuming operands op).Keeps w.Holds :=
  keeps.andAlways fun _ holds => holds.letGo operands

theorem thenNext_keeps {op : Exec H Unit} (keeps : op.Keeps w.Holds) :
    (thenNext op).Keeps w.Holds := keeps.bind fun _ => .pure _ _

theorem unary_keeps {op : Value → Exec H Value} (keeps : ∀ v, (op v).Keeps w.Holds) :
    (unary op).Keeps w.Holds :=
  pop_keeps.bind fun v => (consuming_keeps [v] (keeps v)).bind push_keeps

theorem binary_keeps {op : Value → Value → Exec H Value}
    (keeps : ∀ a b, (op a b).Keeps w.Holds) : (binary op).Keeps w.Holds :=
  popTwo_keeps.bind fun (a, b) => (consuming_keeps [a, b] (keeps a b)).bind push_keeps

theorem storeLocal_keeps (slot : Nat) (v : Value) :
    (storeLocal slot v : Exec H Unit).Keeps w.Holds := by
  refine Effect.Keeps.get_bind fun c holds => ?_
  cases swapped : c.frame.swapLocal slot v with
  | error e => exact holds.letGo [v]
  | ok result =>
    obtain ⟨old, g⟩ := result
    have edit := Frame.swapLocal_edited swapped
    exact (holds.edit edit.unit edit.generator fun _ => Frame.swapLocal_deferral swapped).letGo [old]

theorem storeGlobal_keeps (path : String) :
    (storeGlobal path : Exec H Unit).Keeps w.Holds := by
  refine pop_keeps.bind fun v => Effect.Keeps.get_bind fun c holds => ?_
  cases c.globals.store path v with
  | error e => exact holds.letGo [v]
  | ok result =>
    obtain ⟨heap, unit, generator, deferral, channel⟩ := holds.letGo result.1.toList
    exact ⟨heap, unit, generator, deferral, channel⟩

theorem branch_keeps (wanted : Bool) (target : Nat) :
    (branch wanted target : Exec H Flow).Keeps w.Holds :=
  pop_keeps.bind fun v => (consuming_keeps [v] (.liftM _ _)).bind fun _ => .pure _ _

theorem makeClosure_keeps {units : UnitTable} (code : units.Codes w.code) (name : String)
    (n : Nat) : (makeClosure units name n : Exec H Unit).Keeps w.Holds := by
  unfold makeClosure
  cases found : SortedMap.get? units name with
  | none => exact Effect.Keeps.get_bind fun _ holds => holds
  | some unit =>
    refine (popN_keeps n).bind fun captured => Effect.Keeps.get_bind fun c holds => ?_
    have made : w.grown → w.heap.Grows w.code ({ c.heap with pools := { c.heap.pools with
        values := (c.heap.pools.values.checkout n).2 } }.alloc (.callable (.script unit
          ((c.heap.pools.values.checkout n).1.append captured)))).2 := fun grown =>
      ((holds.heap grown).withPools _).alloc fun _ => code name unit found
    exact push_keeps _ _ (holds.regrow fun grown _ => made grown)

theorem loadCapture_keeps (slot : Nat) :
    (loadCapture slot : Exec H Unit).Keeps w.Holds := by
  refine Effect.Keeps.get_bind fun c holds => ?_
  simp only [Effect.ensures_bind, Effect.ensures_liftM]
  cases c.heap.callableOf c.frame.closure with
  | error e => exact holds
  | ok callable =>
    cases callable with
    | host => exact holds
    | script unit captures =>
      simp only
      cases captures.items[slot]? with
      | none => exact holds
      | some v => exact push_keeps _ c holds

theorem callTarget_keeps (loud : ¬ w.silent) (target : CallTarget) (n : Nat) :
    (callTarget target n : Exec H Flow).Keeps w.Holds :=
  (popN_keeps n).bind fun args => (send_keeps loud args).bind fun _ => .pure _ _

theorem callValue_keeps (loud : ¬ w.silent) (n : Nat) :
    (callValue n : Exec H Flow).Keeps w.Holds :=
  (popN_keeps n).bind fun args => pop_keeps.bind fun _ => (send_keeps loud args).bind fun _ =>
    .pure _ _

theorem sendTop_keeps (loud : ¬ w.silent) (n : Nat) (flow : Flow) :
    (sendTop n flow : Exec H Flow).Keeps w.Holds :=
  (popN_keeps n).bind fun vs => (send_keeps loud vs).bind fun _ => .pure _ _

theorem callMethod_keeps (loud : ¬ w.silent) (name : String) (n : Nat) :
    (callMethod name n : Exec H Flow).Keeps w.Holds := by
  refine (popN_keeps n).bind fun args => pop_keeps.bind fun receiver =>
    Effect.Keeps.get_bind fun c holds => ?_
  have refused := holds.letGo (args ++ [receiver])
  cases c.heap.getChild receiver (.str name) with
  | error e => exact refused
  | ok method =>
    simp only [Effect.ensures_ite]
    split
    · exact refused
    · exact ((send_keeps loud args).bind fun _ => .pure _ _) c holds

theorem fetch_keeps (target key : Value) : (fetch target key : Exec H Value).Keeps w.Holds := by
  unfold fetch
  split
  · exact heap_keeps fun _ stable => Heap.readStructure_keeps stable target _ _
  · exact readHeap_keeps _ _

theorem setChild_keeps (target key value : Value) :
    (liftM (Heap.setChild (H := H) target key value) : Exec H Unit).Keeps w.Holds :=
  heap_keeps fun _ stable => Heap.setChild_keeps stable target key value

theorem allocated_keeps {alloc : Heap H → Value × Heap H}
    (grows : ∀ k, w.heap.Grows w.code k → w.heap.Grows w.code (alloc k).2) :
    (allocated alloc).Keeps w.Holds :=
  Effect.Keeps.get_bind fun c holds => push_keeps _ _ (holds.regrow fun _ => grows c.heap)

theorem checkDefer_keeps (touched : ¬ w.spared) (k target : Nat) :
    (checkDefer k target : Exec H Flow).Keeps w.Holds :=
  Effect.Keeps.get_bind fun _ holds => holds.edit rfl rfl fun spared => absurd spared touched

theorem endDefer_keeps (touched : ¬ w.spared) (loud : ¬ w.silent) :
    (endDefer : Exec H Flow).Keeps w.Holds := by
  refine Effect.Keeps.get_bind fun c holds => ?_
  have edit : ∀ {g : Frame}, g.unit = c.frame.unit → g.generator = c.frame.generator →
      w.Holds { c with frame := g } := fun unit generator =>
    holds.edit unit generator fun spared => absurd spared touched
  cases c.frame.pendingError with
  | some e => exact edit rfl rfl
  | none =>
    cases c.frame.pendingReturn with
    | none => exact holds
    | some pending =>
      cases pending with
      | values vs =>
        exact ((send_keeps loud vs).bind fun _ => .pure _ Flow.ret) _ (edit rfl rfl)
      | locals mask => exact edit rfl rfl

theorem iterNext_keeps (exhausted : Nat) : (iterNext exhausted : Exec H Flow).Keeps w.Holds := by
  refine pop_keeps.bind fun it => ?_
  refine (consuming_keeps [it] (heap_keeps fun _ stable =>
    Heap.advanceIterator_keeps stable it)).bind fun advanced => ?_
  cases advanced <;> exact .pure _ _

/-! ## Instructions -/

/-- An instruction keeps what is watched, if it may. -/
theorem single_keeps {units : UnitTable} (code : units.Codes w.code) (r : Resolved)
    (plain : w.spared → r.ins.op.defers = false) (quiet : w.silent → r.ins.op.sends = false) :
    (single units r : Exec H Flow).Keeps w.Holds := by
  unfold single
  cases op : r.ins.op <;> rw [op] at plain quiet <;> simp only [op]
  case nop | jump | jumpBack | returnLocals | finalize => exact .pure _ _
  case fatal => exact .throw _ _
  case pushNull | pushInt | pushFloat | pushString | pushBool | pushEnum =>
    exact thenNext_keeps (push_keeps _)
  case pop => exact thenNext_keeps (pop_keeps.bind fun v => letGo_keeps [v])
  case dup | loadLocal =>
    exact thenNext_keeps ((readFrame_keeps _ _).bind fun v => push_keeps v.share)
  case swap =>
    exact thenNext_keeps (popTwo_keeps.bind fun (a, b) => (push_keeps b).bind fun _ => push_keeps a)
  case autoConvert =>
    exact thenNext_keeps (changeFrame_keeps (Frame.updateTop_alike _) fun _ _ _ =>
      Frame.updateTop_deferral)
  case moveLocal =>
    exact thenNext_keeps ((onFrame_keeps (Frame.takeLocal_alike _) fun _ _ _ =>
      Frame.swapLocal_deferral).bind push_keeps)
  case storeLocal => exact thenNext_keeps (pop_keeps.bind fun v => storeLocal_keeps _ v)
  case shadowSave =>
    exact thenNext_keeps (changeFrame_keeps (Frame.saveShadow_alike _) fun _ _ _ =>
      Frame.saveShadow_deferral)
  case shadowRestore =>
    exact thenNext_keeps ((onFrame_keeps (Frame.restoreShadow_alike _) fun _ _ _ =>
      Frame.restoreShadow_deferral).bind fun v => letGo_keeps [v])
  case loadGlobal | loadThis =>
    exact thenNext_keeps (Effect.Keeps.get_bind fun _ holds => push_keeps _ _ holds)
  case storeGlobal => exact thenNext_keeps (storeGlobal_keeps _)
  case eq | ne | lt | le | gt | ge => exact thenNext_keeps (binary_keeps fun _ _ => .pure _ _)
  case add | sub | mul | div | mod | and | or =>
    exact thenNext_keeps (binary_keeps fun _ _ => .liftM _ _)
  case neg => exact thenNext_keeps (unary_keeps fun _ => .liftM _ _)
  case not =>
    exact thenNext_keeps (unary_keeps fun _ => (Effect.Keeps.liftM _ _).bind fun _ => .pure _ _)
  case jumpIfFalse | jumpIfTrue => exact branch_keeps _ _
  case makeClosure => exact thenNext_keeps (makeClosure_keeps code _ _)
  case loadCapture => exact thenNext_keeps (loadCapture_keeps _)
  case call => exact callValue_keeps (fun silent => nomatch quiet silent) _
  case callDirect | callName => exact callTarget_keeps (fun silent => nomatch quiet silent) _ _
  case callMethod => exact callMethod_keeps (fun silent => nomatch quiet silent) _ _
  case ret | yield => exact sendTop_keeps (fun silent => nomatch quiet silent) _ _
  case newStruct | newQueue =>
    exact thenNext_keeps (allocated_keeps fun k grows => (grows.withPools _).alloc fun _ => trivial)
  case getKey =>
    exact thenNext_keeps (popTwo_keeps.bind fun (target, key) =>
      (consuming_keeps _ (fetch_keeps target key)).bind push_keeps)
  case getField =>
    exact thenNext_keeps (pop_keeps.bind fun target =>
      (consuming_keeps _ (fetch_keeps target _)).bind push_keeps)
  case setKey =>
    exact thenNext_keeps (pop_keeps.bind fun value => popTwo_keeps.bind fun (target, key) =>
      consuming_keeps _ (setChild_keeps target key value))
  case setField =>
    exact thenNext_keeps (popTwo_keeps.bind fun (target, value) =>
      consuming_keeps _ (setChild_keeps target _ value))
  case deleteKey =>
    exact thenNext_keeps (popTwo_keeps.bind fun (target, _) =>
      (consuming_keeps _ (heap_keeps fun _ stable =>
        Heap.readStructure_keeps stable target _ _)).bind push_keeps)
  case hasKey =>
    exact thenNext_keeps (popTwo_keeps.bind fun _ =>
      (consuming_keeps _ (readHeap_keeps _ _)).bind fun found => push_keeps (.bool found))
  case length =>
    exact thenNext_keeps (unary_keeps fun _ => (readHeap_keeps _ _).bind fun _ => .pure _ _)
  case append | prepend =>
    exact thenNext_keeps (popTwo_keeps.bind fun (target, value) =>
      consuming_keeps _ (heap_keeps fun _ stable => Heap.append_keeps stable target value _))
  case popFront | popBack | firstKey | lastKey =>
    exact thenNext_keeps (unary_keeps fun _ => heap_keeps fun _ stable =>
      Heap.readStructure_keeps stable _ _ _)
  case deepCopy =>
    exact thenNext_keeps (unary_keeps fun _ => heap_keeps fun _ stable =>
      Heap.deepCopy_keeps stable _)
  case shallowCopy =>
    exact thenNext_keeps (unary_keeps fun _ => heap_keeps fun _ stable =>
      Heap.shallowCopy_keeps stable _)
  case release =>
    exact thenNext_keeps (pop_keeps.bind fun v => heap_keeps fun _ _ => Heap.release_keeps v)
  case trapSet | trapClear =>
    exact thenNext_keeps (.modify fun _ holds => holds.edit rfl rfl fun _ => rfl)
  case throw => exact pop_keeps.bind fun _ => .throw _ _
  case deferArm =>
    exact thenNext_keeps (changeFrame_keeps (Frame.armDefer_alike _) fun spared =>
      nomatch plain spared)
  case deferCheck => exact checkDefer_keeps (fun spared => nomatch plain spared) _ _
  case deferEnd =>
    exact endDefer_keeps (fun spared => nomatch plain spared) fun silent => nomatch quiet silent
  case iterNew =>
    exact thenNext_keeps (pop_keeps.bind fun v => (heap_keeps fun _ stable =>
      Heap.openIterator_keeps stable v).bind push_keeps)
  case iterNext => exact iterNext_keeps _
  case iterKey | iterValue => exact thenNext_keeps (unary_keeps fun _ => readHeap_keeps _ _)

/-! ## Steps -/

theorem sequence_keeps {units : UnitTable} (code : units.Codes w.code) (touched : ¬ w.spared)
    (loud : ¬ w.silent) (span : List Resolved) :
    (sequence units span : Exec H Flow).Keeps w.Holds := by
  induction span with
  | nil => exact .pure _ _
  | cons r rest ih =>
    have first := single_keeps code r (fun spared => absurd spared touched)
      fun silent => absurd silent loud
    refine first.bind fun flow => ?_
    cases flow with
    | next => exact ih
    | _ => exact .pure _ _

theorem sharedLocal_keeps (slot : Nat) (I : Context H → Prop) :
    (sharedLocal slot : Exec H Value).Keeps I := (readFrame_keeps _ I).bind fun _ => .pure _ _

theorem action_holds {units : UnitTable} (code : units.Codes w.code) (touched : ¬ w.spared)
    (loud : ¬ w.silent) (a : Action) : (action units a : Exec H Flow).Keeps w.Holds := by
  cases a with
  | single r | skipNops r =>
    exact single_keeps code r (fun spared => absurd spared touched) fun silent => absurd silent loud
  | sequence span => exact sequence_keeps code touched loud span
  | incrementLocal slot delta add span =>
    refine (readFrame_keeps _ _).bind fun v => ?_
    split
    · exact (Effect.Keeps.modify fun _ holds => holds.edit rfl rfl fun _ => rfl).bind fun _ =>
        .pure _ _
    · exact sequence_keeps code touched loud span
  | branchOnLocal => exact (sharedLocal_keeps _ _).bind fun _ => .pure _ _
  | compareLocals a b op =>
    exact thenNext_keeps ((sharedLocal_keeps a _).bind fun _ => (sharedLocal_keeps b _).bind fun _ =>
      push_keeps _)
  | localLiteralArith =>
    exact thenNext_keeps ((sharedLocal_keeps _ _).bind fun _ => (Effect.Keeps.liftM _ _).bind
      push_keeps)
  | storeReload slot =>
    exact thenNext_keeps (pop_keeps.bind fun v => (storeLocal_keeps slot v).bind fun _ =>
      (sharedLocal_keeps slot _).bind push_keeps)
  | discard => exact .pure _ _
  | pushLiterals values =>
    have pushed : ∀ (vs : List Value) (g : Frame), (g.pushAll vs).unit = g.unit ∧
        (g.pushAll vs).generator = g.generator := by
      intro vs
      induction vs with
      | nil => exact fun g => ⟨rfl, rfl⟩
      | cons v vs ih => exact fun g => ih (g.push v)
    exact thenNext_keeps (.modify fun c holds => holds.edit (pushed values c.frame).1
      (pushed values c.frame).2 fun _ => Frame.pushAll_deferral values c.frame)

/-- No step changes a generator, nor what its frame runs. -/
theorem action_keeps {Q : CodeUnit → Prop} {h : Heap H} {f : Frame} {units : UnitTable}
    (code : units.Codes Q) (a : Action) :
    (action units a : Exec H Flow).Keeps (Context.Calm Q h f) := by
  rw [← Watch.holds_calm]
  exact action_holds code id id a

end Exec

end ScriptMachine
