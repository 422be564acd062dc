import ScriptMachine.Proofs.Exec.Flows
import ScriptMachine.Proofs.Heap.Recompiled
import ScriptMachine.Proofs.Heap.Sound

/-!
# Instructions do not look at the steps of code

`Context.recompiledAt` is what an instruction sees when all code is compiled again and the running
frame stands at some position. `Exec.Alike` says of an operation that it does there what it does on
the context itself, and that the context stays sound; it holds of every instruction.
-/

set_option autoImplicit false

namespace ScriptMachine

/-! ## Frames -/

def Frame.recompiledAt (fusion : Bool) (p : Nat) (f : Frame) : Frame :=
  { f.recompiled fusion with cursor := p }

namespace Frame

structure Edited (f g : Frame) : Prop where
  unit : g.unit = f.unit
  slots : g.locals.length = f.locals.length
  cursor : g.cursor = f.cursor
  trap : g.trap = f.trap
  onExhaust : g.onExhaust = f.onExhaust
  generator : g.generator = f.generator

theorem Runs.edit {u : CodeUnit} {f g : Frame} (runs : f.Runs u) (edit : f.Edited g) : g.Runs u :=
  ⟨edit.unit.trans runs.unit, runs.compiled, edit.slots.trans runs.slots, edit.cursor ▸ runs.cursor,
    edit.trap ▸ runs.trap, edit.onExhaust ▸ runs.onExhaust⟩

/-- An operation on frames that works alike on recompiled ones and keeps frames running. -/
structure Alike {α : Type} (op : Frame → Except Error (α × Frame)) : Prop where
  blind : ∀ fusion p f, op (f.recompiledAt fusion p) =
    (op f).map fun (a, g) => (a, g.recompiledAt fusion p)
  edits : ∀ f a g, op f = .ok (a, g) → f.Edited g

section
variable (fusion : Bool) (p : Nat) (f : Frame)

@[simp] theorem recompiledAt_malformed (reason : String) :
    (f.recompiledAt fusion p).malformed reason = f.malformed reason := by
  obtain ⟨unit, locals, stack, shadows, cursor, trap, defers, pendingReturn, pendingError, this,
    closure, generator, onExhaust, capacity⟩ := f
  cases unit <;> simp [recompiledAt, recompiled, malformed, unitName]

@[simp] theorem recompiledAt_badSlot (slot : Nat) :
    (f.recompiledAt fusion p).badSlot slot = f.badSlot slot :=
  recompiledAt_malformed fusion p f _

@[simp] theorem recompiledAt_underflow : (f.recompiledAt fusion p).underflow = f.underflow :=
  recompiledAt_malformed fusion p f _

@[simp] theorem recompiledAt_data :
    (f.recompiledAt fusion p).locals = f.locals ∧ (f.recompiledAt fusion p).stack = f.stack ∧
      (f.recompiledAt fusion p).shadows = f.shadows ∧
      (f.recompiledAt fusion p).defers = f.defers :=
  ⟨rfl, rfl, rfl, rfl⟩

@[simp] theorem recompiledAt_readLocal (slot : Nat) :
    (f.recompiledAt fusion p).readLocal slot = f.readLocal slot := by
  simp [readLocal]

@[simp] theorem recompiledAt_peek : (f.recompiledAt fusion p).peek = f.peek := by
  simp [peek]

theorem recompiledAt_swapLocal (slot : Nat) (v : Value) :
    (f.recompiledAt fusion p).swapLocal slot v =
      (f.swapLocal slot v).map fun (old, g) => (old, g.recompiledAt fusion p) := by
  unfold swapLocal
  simp only [recompiledAt_data, recompiledAt_badSlot]
  cases f.locals[slot]? <;> rfl

end

theorem swapLocal_edited {f g : Frame} {slot : Nat} {v old : Value}
    (run : f.swapLocal slot v = .ok (old, g)) : f.Edited g := by
  unfold swapLocal at run
  split at run
  · cases run
    exact ⟨rfl, List.length_set, rfl, rfl, rfl, rfl⟩
  · cases run

theorem pop_alike : Alike Frame.pop where
  blind := by
    intro fusion p f
    simp only [pop, recompiledAt_data, recompiledAt_underflow]
    cases f.stack <;> rfl
  edits := by
    intro f v g run
    unfold pop at run
    split at run <;> cases run
    exact ⟨rfl, rfl, rfl, rfl, rfl, rfl⟩

theorem popN_alike (n : Nat) : Alike fun f => f.popN n where
  blind := by
    intro fusion p f
    simp only [popN, recompiledAt_data, recompiledAt_underflow]
    split <;> rfl
  edits := by
    intro f vs g run
    simp only [popN] at run
    split at run <;> cases run
    exact ⟨rfl, rfl, rfl, rfl, rfl, rfl⟩

theorem takeLocal_alike (slot : Nat) : Alike fun f => f.takeLocal slot where
  blind := fun fusion p f => recompiledAt_swapLocal fusion p f slot .null
  edits := fun _ _ _ run => swapLocal_edited run

theorem restoreShadow_alike (slot : Nat) : Alike fun f => f.restoreShadow slot where
  blind := by
    intro fusion p f
    simp only [restoreShadow, recompiledAt_data, recompiledAt_malformed]
    cases unshadow slot f.shadows with
    | none => rfl
    | some found =>
      exact recompiledAt_swapLocal fusion p { f with shadows := found.2 } slot found.1
  edits := by
    intro f v g run
    simp only [restoreShadow] at run
    split at run
    · cases run
    · obtain ⟨unit, slots, cursor, trap, onExhaust, generator⟩ := swapLocal_edited run
      exact ⟨unit, slots, cursor, trap, onExhaust, generator⟩

structure AlikeChange (op : Frame → Except Error Frame) : Prop where
  blind : ∀ fusion p f, op (f.recompiledAt fusion p) = (op f).map (Frame.recompiledAt fusion p)
  edits : ∀ f g, op f = .ok g → f.Edited g

theorem updateTop_alike (change : Value → Value) : AlikeChange fun f => f.updateTop change where
  blind := by
    intro fusion p f
    simp only [updateTop, recompiledAt_data, recompiledAt_underflow]
    cases f.stack <;> rfl
  edits := by
    intro f g run
    simp only [updateTop] at run
    split at run <;> cases run
    exact ⟨rfl, rfl, rfl, rfl, rfl, rfl⟩

theorem saveShadow_alike (slot : Nat) : AlikeChange fun f => f.saveShadow slot where
  blind := by
    intro fusion p f
    simp only [saveShadow, takeLocal, recompiledAt_swapLocal]
    cases f.swapLocal slot .null <;> rfl
  edits := by
    intro f g run
    obtain ⟨saved, swapped, run⟩ := ok_of_bind run
    cases run
    obtain ⟨unit, slots, cursor, trap, onExhaust, generator⟩ := swapLocal_edited swapped
    exact ⟨unit, slots, cursor, trap, onExhaust, generator⟩

theorem armDefer_alike (k : Nat) : AlikeChange fun f => f.armDefer k where
  blind := by
    intro fusion p f
    simp only [armDefer, recompiledAt_data, recompiledAt_malformed]
    split <;> rfl
  edits := by
    intro f g run
    simp only [armDefer] at run
    split at run <;> cases run
    exact ⟨rfl, rfl, rfl, rfl, rfl, rfl⟩

end Frame

/-! ## Contexts -/

def Context.recompiledAt {H : Type} (fusion : Bool) (p : Nat) (c : Context H) : Context H :=
  { c with heap := c.heap.recompiled fusion, frame := c.frame.recompiledAt fusion p }

/-- The heap is sound and the frame runs a unit. -/
structure Context.Sound {H : Type} (u : CodeUnit) (c : Context H) : Prop where
  heap : c.heap.Sound
  frame : c.frame.Runs u

/-- Units with their code cut into steps again. -/
def UnitTable.recompiled (fusion : Bool) (units : UnitTable) : UnitTable :=
  ⟨units.entries.map fun (name, unit) => (name, unit.recompiled fusion)⟩

def UnitTable.Sound (units : UnitTable) : Prop :=
  ∀ name unit, SortedMap.get? units name = some unit → unit.Compiled

theorem UnitTable.recompiled_get? (fusion : Bool) (units : UnitTable) (name : String) :
    SortedMap.get? (units.recompiled fusion) name =
      (SortedMap.get? units name).map (CodeUnit.recompiled fusion) := by
  obtain ⟨entries⟩ := units
  unfold SortedMap.get? UnitTable.recompiled
  induction entries with
  | nil => rfl
  | cons entry rest ih =>
    rw [List.map_cons, SortedMap.lookup, SortedMap.lookup]
    split
    · rfl
    · exact ih

namespace Exec

section
variable {H α β : Type} (fusion : Bool) (p : Nat) (u : CodeUnit)

def Alike (op op' : Exec H α) : Prop :=
  ∀ c, Context.Sound u c →
    op.Mirrors (Context.recompiledAt fusion p) (Context.Sound u) op' c

end

section
variable {H α β : Type} {fusion : Bool} {p : Nat} {u : CodeUnit}

theorem Alike.bind {op op' : Exec H α} {next next' : α → Exec H β}
    (first : Alike fusion p u op op') (second : ∀ a, Alike fusion p u (next a) (next' a)) :
    Alike fusion p u (op >>= next) (op' >>= next') :=
  fun c sound => .bind (first c sound) fun a t sound => second a t sound

theorem alike_pure (a : α) : Alike (H := H) fusion p u (pure a) (pure a) :=
  fun _ sound => .of_pure sound a

theorem alike_throw (e : Error) : Alike (H := H) (α := α) fusion p u (throw e) (throw e) :=
  fun _ sound => .of_throw sound e

theorem alike_liftM (x : Except Error α) : Alike (H := H) fusion p u (liftM x) (liftM x) :=
  fun _ sound => .of_liftM rfl sound

/-- A heap operation as a step of an instruction. -/
theorem alike_heap {op : HeapM H α} (alike : Heap.Alike fusion op op)
    (keeps : ∀ base, op.Keeps (Heap.Later (fun _ o => o.Sound) [] base)) :
    Alike fusion p u (liftM op : Exec H α) (liftM op) := by
  intro c sound
  refine .onPart ((alike c.heap).strengthen (Heap.keeps_sound keeps c.heap sound.heap)) rfl ?_
  exact fun heap soundHeap => ⟨rfl, soundHeap, sound.frame⟩

theorem alike_onFrame {op : Frame → Except Error (α × Frame)} (alike : Frame.Alike op) :
    Alike (H := H) fusion p u (onFrame op) (onFrame op) := by
  intro c sound
  apply Effect.Mirrors.get_bind
  refine .liftM_bind (fun (a, g) => (a, g.recompiledAt fusion p)) (alike.blind fusion p c.frame)
    sound ?_
  rintro ⟨a, g⟩ run
  refine .bind (.of_set rfl ⟨sound.heap, ?_⟩) fun _ _ sound => .of_pure sound a
  exact sound.frame.edit (alike.edits c.frame a g run)

theorem alike_changeFrame {op : Frame → Except Error Frame} (alike : Frame.AlikeChange op) :
    Alike (H := H) fusion p u (changeFrame op) (changeFrame op) := by
  apply alike_onFrame
  refine ⟨fun fusion p f => ?_, fun f _ g run => ?_⟩
  · rw [alike.blind]
    cases op f <;> rfl
  · obtain ⟨_, changed, run⟩ := ok_of_bind run
    cases run
    exact alike.edits f _ changed

theorem alike_readFrame {op : Frame → Except Error α}
    (blind : ∀ f, op (f.recompiledAt fusion p) = op f) :
    Alike (H := H) fusion p u (readFrame op) (readFrame op) :=
  fun c sound => .get_bind (.of_liftM (blind c.frame) sound)

theorem alike_readHeap {op : Heap H → Except Error α}
    (blind : ∀ h, op (h.recompiled fusion) = op h) :
    Alike fusion p u (readHeap op) (readHeap op) :=
  fun c sound => .get_bind (.of_liftM (blind c.heap) sound)

/-- A change of the context that commutes with compiling again. -/
theorem alike_modify {f : Context H → Context H}
    (commutes : ∀ c, f (c.recompiledAt fusion p) = (f c).recompiledAt fusion p)
    (keeps : ∀ c, Context.Sound u c → Context.Sound u (f c)) :
    Alike fusion p u (modify f) (modify f) :=
  fun c sound => .of_modify (commutes c) (keeps c sound)

theorem recompiledAt_letGo (vs : List Value) (c : Context H) :
    letGo vs (c.recompiledAt fusion p) = (letGo vs c).recompiledAt fusion p := by
  unfold letGo
  rw [show (c.recompiledAt fusion p).heap = c.heap.recompiled fusion from rfl,
    Heap.recompiled_disposeAll]
  rfl

theorem sound_letGo (vs : List Value) {c : Context H} (sound : Context.Sound u c) :
    Context.Sound u (letGo vs c) := ⟨sound.heap.disposeAll vs, sound.frame⟩

theorem alike_letGo (vs : List Value) :
    Alike (H := H) fusion p u (modify (letGo vs)) (modify (letGo vs)) :=
  alike_modify (recompiledAt_letGo vs) fun _ sound => sound_letGo vs sound

theorem alike_consuming (operands : List Value) {op op' : Exec H α}
    (alike : Alike fusion p u op op') :
    Alike fusion p u (consuming operands op) (consuming operands op') :=
  fun c sound => .andAlways (alike c sound) fun t sound =>
    ⟨recompiledAt_letGo operands t, sound_letGo operands sound⟩

theorem alike_push (v : Value) : Alike (H := H) fusion p u (push v) (push v) :=
  alike_modify (fun _ => rfl) fun _ sound =>
    ⟨sound.heap, sound.frame.edit ⟨rfl, rfl, rfl, rfl, rfl, rfl⟩⟩

theorem alike_send (vs : List Value) : Alike (H := H) fusion p u (send vs) (send vs) :=
  alike_modify (fun _ => rfl) fun _ sound => ⟨sound.heap, sound.frame⟩

theorem alike_pop : Alike (H := H) fusion p u pop pop := alike_onFrame Frame.pop_alike

theorem alike_popN (n : Nat) : Alike (H := H) fusion p u (popN n) (popN n) :=
  alike_onFrame (Frame.popN_alike n)

theorem alike_popTwo : Alike (H := H) fusion p u popTwo popTwo :=
  alike_pop.bind fun _ => alike_pop.bind fun _ => alike_pure _

theorem alike_thenNext {op op' : Exec H Unit} (alike : Alike fusion p u op op') :
    Alike fusion p u (thenNext op) (thenNext op') := alike.bind fun _ => alike_pure _

theorem alike_unary {op : Value → Exec H Value} (alike : ∀ v, Alike fusion p u (op v) (op v)) :
    Alike fusion p u (unary op) (unary op) :=
  alike_pop.bind fun v => (alike_consuming [v] (alike v)).bind alike_push

theorem alike_binary {op : Value → Value → Exec H Value}
    (alike : ∀ a b, Alike fusion p u (op a b) (op a b)) :
    Alike fusion p u (binary op) (binary op) :=
  alike_popTwo.bind fun (a, b) => (alike_consuming [a, b] (alike a b)).bind alike_push

theorem alike_storeLocal (slot : Nat) (v : Value) :
    Alike (H := H) fusion p u (storeLocal slot v) (storeLocal slot v) := by
  intro c sound
  apply Effect.Mirrors.get_bind
  rw [show (c.recompiledAt fusion p).frame = c.frame.recompiledAt fusion p from rfl,
    Frame.recompiledAt_swapLocal]
  cases swapped : c.frame.swapLocal slot v with
  | error e => exact .bind (alike_letGo [v] c sound) fun _ _ sound => .of_throw sound e
  | ok result =>
    obtain ⟨old, g⟩ := result
    have runs := sound.frame.edit (Frame.swapLocal_edited swapped)
    exact .of_modify (recompiledAt_letGo [old] { c with frame := g })
      (sound_letGo [old] ⟨sound.heap, runs⟩)

theorem alike_storeGlobal (path : String) :
    Alike (H := H) fusion p u (storeGlobal path) (storeGlobal path) := by
  refine alike_pop.bind fun v c sound => ?_
  apply Effect.Mirrors.get_bind
  rw [show (c.recompiledAt fusion p).globals = c.globals from rfl]
  cases c.globals.store path v with
  | error e => exact .bind (alike_letGo [v] c sound) fun _ _ sound => .of_throw sound e
  | ok result =>
    obtain ⟨old, globals⟩ := result
    exact .of_modify (recompiledAt_letGo old.toList { c with globals })
      (sound_letGo old.toList ⟨sound.heap, sound.frame⟩)

theorem alike_branch (wanted : Bool) (target : Nat) :
    Alike (H := H) fusion p u (branch wanted target) (branch wanted target) :=
  alike_pop.bind fun v => (alike_consuming [v] (alike_liftM v.truthy)).bind fun _ => alike_pure _

/-! ## Closures and calls -/

theorem alike_place {c : Context H} (sound : Context.Sound u c) {h : Heap H} (soundHeap : h.Sound)
    {o : Object H} (new : o.Sound) :
    Effect.Mirrors (Context.recompiledAt fusion p) (Context.Sound u)
      (modify (fun c => { c with heap := (h.alloc o).2 }) >>= fun _ => push (h.alloc o).1 :
        Exec H Unit)
      (modify (fun c => { c with
          heap := ((h.recompiled fusion).alloc (o.recompiled fusion)).2 }) >>= fun _ =>
        push ((h.recompiled fusion).alloc (o.recompiled fusion)).1) c := by
  rw [Heap.recompiled_alloc]
  refine .bind (.of_modify rfl ⟨soundHeap.alloc new, sound.frame⟩) fun _ t sound => ?_
  exact alike_push _ t sound

theorem alike_makeClosure {units : UnitTable} (compiled : units.Sound) (name : String) (n : Nat) :
    Alike (H := H) fusion p u (makeClosure units name n)
      (makeClosure (units.recompiled fusion) name n) := by
  intro c sound
  unfold makeClosure
  rw [UnitTable.recompiled_get?]
  cases found : SortedMap.get? units name with
  | none =>
    apply Effect.Mirrors.get_bind
    rw [show (c.recompiledAt fusion p).frame = c.frame.recompiledAt fusion p from rfl,
      Frame.recompiledAt_malformed]
    exact .of_throw sound _
  | some unit =>
    refine .bind (alike_popN n c sound) fun captured t sound => ?_
    apply Effect.Mirrors.get_bind
    let pools := { t.heap.pools with values := (t.heap.pools.values.checkout n).2 }
    exact alike_place sound (sound.heap.withPools pools)
      (show Object.Sound (.callable (.script unit
        ((t.heap.pools.values.checkout n).1.append captured))) from compiled name unit found)

theorem alike_loadCapture (slot : Nat) :
    Alike (H := H) fusion p u (loadCapture slot) (loadCapture slot) := by
  intro c sound
  apply Effect.Mirrors.get_bind
  refine .liftM_bind (Callable.recompiled fusion)
    (Heap.recompiled_callableOf fusion c.heap c.frame.closure) sound ?_
  intro callable _
  rw [show (c.recompiledAt fusion p).frame = c.frame.recompiledAt fusion p from rfl,
    Frame.recompiledAt_malformed]
  cases callable with
  | host path function => exact .of_throw sound _
  | script unit captures =>
    simp only [Callable.recompiled]
    cases captures.items[slot]? with
    | none => exact .of_throw sound _
    | some v => exact alike_push v.share c sound

theorem alike_sendTop (n : Nat) (flow : Flow) :
    Alike (H := H) fusion p u (sendTop n flow) (sendTop n flow) :=
  (alike_popN n).bind fun vs => (alike_send vs).bind fun _ => alike_pure flow

theorem alike_callValue (n : Nat) : Alike (H := H) fusion p u (callValue n) (callValue n) :=
  (alike_popN n).bind fun args => alike_pop.bind fun _ => (alike_send args).bind fun _ =>
    alike_pure _

theorem alike_callTarget (target : CallTarget) (n : Nat) :
    Alike (H := H) fusion p u (callTarget target n) (callTarget target n) :=
  (alike_popN n).bind fun args => (alike_send args).bind fun _ => alike_pure _

theorem alike_callMethod (name : String) (n : Nat) :
    Alike (H := H) fusion p u (callMethod name n) (callMethod name n) := by
  refine (alike_popN n).bind fun args => alike_pop.bind fun receiver c sound => ?_
  have refuse : ∀ e : Error, Effect.Mirrors (Context.recompiledAt fusion p) (Context.Sound u)
      (modify (letGo (args ++ [receiver])) >>= fun _ => throw e : Exec H Flow)
      (modify (letGo (args ++ [receiver])) >>= fun _ => throw e) c :=
    fun e => .bind (alike_letGo _ c sound) fun _ _ sound => .of_throw sound e
  apply Effect.Mirrors.get_bind
  rw [show (c.recompiledAt fusion p).heap = c.heap.recompiled fusion from rfl,
    Heap.recompiled_getChild]
  cases c.heap.getChild receiver (.str name) with
  | error e => exact refuse e
  | ok method =>
    by_cases missing : method.isNull = true
    · simp only [missing, if_true]
      exact refuse _
    · simp only [missing, Bool.false_eq_true, if_false]
      exact .bind (alike_send args c sound) fun _ _ sound => .of_pure sound _

/-! ## Structures -/

theorem alike_fetch (target key : Value) :
    Alike (H := H) fusion p u (fetch target key) (fetch target key) := by
  unfold fetch
  split
  · exact alike_heap (Heap.readStructure_alike target _ _)
      fun _ => Heap.readStructure_keeps Object.Sound.stable target _ _
  · exact alike_readHeap fun h => Heap.recompiled_getChild h target key

theorem alike_getKey : Alike (H := H) fusion p u getKey getKey :=
  alike_popTwo.bind fun (target, key) =>
    (alike_consuming _ (alike_fetch target key)).bind alike_push

theorem alike_getField (name : String) :
    Alike (H := H) fusion p u (getField name) (getField name) :=
  alike_pop.bind fun target => (alike_consuming _ (alike_fetch target _)).bind alike_push

theorem alike_setChild (target key value : Value) :
    Alike fusion p u (liftM (Heap.setChild (H := H) target key value) : Exec H Unit)
      (liftM (Heap.setChild (H := H) target key value)) :=
  alike_heap (Heap.setChild_alike target key value)
    fun _ => Heap.setChild_keeps Object.Sound.stable target key value

theorem alike_setKey : Alike (H := H) fusion p u setKey setKey :=
  alike_pop.bind fun value => alike_popTwo.bind fun (target, key) =>
    alike_consuming _ (alike_setChild target key value)

theorem alike_setField (name : String) :
    Alike (H := H) fusion p u (setField name) (setField name) :=
  alike_popTwo.bind fun (target, value) => alike_consuming _ (alike_setChild target _ value)

theorem alike_deleteKey : Alike (H := H) fusion p u deleteKey deleteKey :=
  alike_popTwo.bind fun (target, _) =>
    (alike_consuming _ (alike_heap (Heap.readStructure_alike target _ _)
      fun _ => Heap.readStructure_keeps Object.Sound.stable target _ _)).bind alike_push

theorem alike_hasKey : Alike (H := H) fusion p u hasKey hasKey :=
  alike_popTwo.bind fun (target, key) =>
    (alike_consuming _ (alike_readHeap fun h => Heap.recompiled_hasChild h target key)).bind
      fun found => alike_push (.bool found)

theorem alike_append (front : Bool) :
    Alike (H := H) fusion p u (append front) (append front) :=
  alike_popTwo.bind fun (target, value) =>
    alike_consuming _ (alike_heap (Heap.append_alike target value front)
      fun _ => Heap.append_keeps Object.Sound.stable target value front)

theorem alike_allocated {alloc : Heap H → Value × Heap H}
    (blind : ∀ h, alloc (h.recompiled fusion) = ((alloc h).1, (alloc h).2.recompiled fusion))
    (keeps : ∀ h, h.Sound → (alloc h).2.Sound) :
    Alike fusion p u (allocated alloc) (allocated alloc) := by
  intro c sound
  apply Effect.Mirrors.get_bind
  rw [show (c.recompiledAt fusion p).heap = c.heap.recompiled fusion from rfl, blind]
  exact .bind (.of_modify rfl ⟨keeps c.heap sound.heap, sound.frame⟩)
    fun _ t sound => alike_push _ t sound

theorem recompiled_allocStructure (n : Nat) (h : Heap H) :
    (h.recompiled fusion).allocStructure n =
      ((h.allocStructure n).1, (h.allocStructure n).2.recompiled fusion) := by
  unfold Heap.allocStructure
  exact Heap.recompiled_alloc fusion
    { h with pools := { h.pools with structures := (Structure.new h.pools.structures n).2 } }
    (.struct (Structure.new h.pools.structures n).1)

theorem recompiled_allocQueue (n : Nat) (h : Heap H) :
    (h.recompiled fusion).allocQueue n =
      ((h.allocQueue n).1, (h.allocQueue n).2.recompiled fusion) := by
  unfold Heap.allocQueue
  exact Heap.recompiled_alloc fusion
    { h with pools := { h.pools with structures := (Structure.queue h.pools.structures n).2 } }
    (.struct (Structure.queue h.pools.structures n).1)

theorem sound_allocStructure {h : Heap H} (sound : h.Sound) (n : Nat) :
    (h.allocStructure n).2.Sound := (sound.withPools _).alloc trivial

theorem sound_allocQueue {h : Heap H} (sound : h.Sound) (n : Nat) :
    (h.allocQueue n).2.Sound := (sound.withPools _).alloc trivial

/-! ## Deferred blocks and iterators -/

theorem alike_checkDefer (k target : Nat) :
    Alike (H := H) fusion p u (checkDefer k target) (checkDefer k target) := by
  intro c sound
  apply Effect.Mirrors.get_bind
  refine .bind (.of_set rfl ⟨sound.heap, ?_⟩) fun _ _ sound => .of_pure sound _
  exact sound.frame.edit ⟨rfl, rfl, rfl, rfl, rfl, rfl⟩

theorem alike_endDefer : Alike (H := H) fusion p u endDefer endDefer := by
  intro c sound
  have kept : ∀ f : Frame, c.frame.Edited f → Context.Sound u { c with frame := f } :=
    fun f edit => ⟨sound.heap, sound.frame.edit edit⟩
  apply Effect.Mirrors.get_bind
  rw [show (c.recompiledAt fusion p).frame.pendingError = c.frame.pendingError from rfl,
    show (c.recompiledAt fusion p).frame.pendingReturn = c.frame.pendingReturn from rfl]
  cases c.frame.pendingError with
  | some e =>
    exact .bind (.of_set rfl (kept _ ⟨rfl, rfl, rfl, rfl, rfl, rfl⟩)) fun _ _ sound =>
      .of_throw sound e
  | none =>
    cases c.frame.pendingReturn with
    | none => exact .of_pure sound _
    | some pending =>
      cases pending with
      | values vs =>
        exact .bind (.of_set rfl (kept _ ⟨rfl, rfl, rfl, rfl, rfl, rfl⟩)) fun _ t sound =>
          .bind (alike_send vs t sound) fun _ _ sound => .of_pure sound _
      | locals mask =>
        exact .bind (.of_set rfl (kept _ ⟨rfl, rfl, rfl, rfl, rfl, rfl⟩)) fun _ _ sound =>
          .of_pure sound _

theorem alike_iterNext (exhausted : Nat) :
    Alike (H := H) fusion p u (iterNext exhausted) (iterNext exhausted) := by
  refine alike_pop.bind fun it => ?_
  refine (alike_consuming _ (alike_heap (Heap.advanceIterator_alike it)
    fun _ => Heap.advanceIterator_keeps Object.Sound.stable it)).bind fun advanced => ?_
  cases advanced <;> exact alike_pure _

/-! ## All instructions -/

theorem single_alike {units : UnitTable} (compiled : units.Sound) (r : Resolved)
    (target : r.ins.scan?.isSome → u.Boundary r.jump) :
    Alike (H := H) fusion p u (single units r) (single (units.recompiled fusion) r) := by
  unfold single
  cases op : r.ins.op <;> simp only [op]
  case nop => exact alike_pure _
  case pushNull | pushInt | pushFloat | pushString | pushBool | pushEnum =>
    exact alike_thenNext (alike_push _)
  case pop => exact alike_thenNext (alike_pop.bind fun v => alike_letGo [v])
  case dup => exact alike_thenNext ((alike_readFrame fun _ => by simp).bind fun v => alike_push v.share)
  case swap =>
    exact alike_thenNext (alike_popTwo.bind fun (a, b) => (alike_push b).bind fun _ => alike_push a)
  case autoConvert => exact alike_thenNext (alike_changeFrame (Frame.updateTop_alike _))
  case loadLocal =>
    exact alike_thenNext ((alike_readFrame fun _ => by simp).bind fun v => alike_push v.share)
  case moveLocal =>
    exact alike_thenNext ((alike_onFrame (Frame.takeLocal_alike _)).bind alike_push)
  case storeLocal => exact alike_thenNext (alike_pop.bind fun v => alike_storeLocal _ v)
  case shadowSave => exact alike_thenNext (alike_changeFrame (Frame.saveShadow_alike _))
  case shadowRestore =>
    exact alike_thenNext ((alike_onFrame (Frame.restoreShadow_alike _)).bind fun v => alike_letGo [v])
  case loadGlobal => exact alike_thenNext fun c sound => .get_bind (alike_push _ c sound)
  case storeGlobal => exact alike_thenNext (alike_storeGlobal _)
  case eq | ne | lt | le | gt | ge =>
    exact alike_thenNext (alike_binary fun _ _ => alike_pure _)
  case add | sub | mul | div | mod =>
    exact alike_thenNext (alike_binary fun _ _ => alike_liftM _)
  case neg => exact alike_thenNext (alike_unary fun _ => alike_liftM _)
  case not =>
    exact alike_thenNext (alike_unary fun _ => (alike_liftM _).bind fun _ => alike_pure _)
  case and | or => exact alike_thenNext (alike_binary fun _ _ => alike_liftM _)
  case jump | jumpBack => exact alike_pure _
  case jumpIfFalse | jumpIfTrue => exact alike_branch _ _
  case makeClosure => exact alike_thenNext (alike_makeClosure compiled _ _)
  case loadCapture => exact alike_thenNext (alike_loadCapture _)
  case loadThis => exact alike_thenNext fun c sound => .get_bind (alike_push _ c sound)
  case call => exact alike_callValue _
  case callDirect | callName => exact alike_callTarget _ _
  case callMethod => exact alike_callMethod _ _
  case ret | yield => exact alike_sendTop _ _
  case returnLocals => exact alike_pure _
  case newStruct =>
    exact alike_thenNext (alike_allocated (recompiled_allocStructure _)
      fun _ sound => sound_allocStructure sound _)
  case newQueue =>
    exact alike_thenNext (alike_allocated (recompiled_allocQueue _)
      fun _ sound => sound_allocQueue sound _)
  case getKey => exact alike_thenNext alike_getKey
  case getField => exact alike_thenNext (alike_getField _)
  case setKey => exact alike_thenNext alike_setKey
  case setField => exact alike_thenNext (alike_setField _)
  case deleteKey => exact alike_thenNext alike_deleteKey
  case hasKey => exact alike_thenNext alike_hasKey
  case length =>
    refine alike_thenNext (alike_unary fun v => ?_)
    exact (alike_readHeap fun h => Heap.recompiled_length h v).bind fun _ => alike_pure _
  case append | prepend => exact alike_thenNext (alike_append _)
  case popFront | popBack =>
    exact alike_thenNext (alike_unary fun _ => alike_heap (Heap.readStructure_alike _ _ _)
      fun _ => Heap.readStructure_keeps Object.Sound.stable _ _ _)
  case firstKey | lastKey =>
    exact alike_thenNext (alike_unary fun _ => alike_heap (Heap.readStructure_alike _ _ _)
      fun _ => Heap.readStructure_keeps Object.Sound.stable _ _ _)
  case deepCopy =>
    exact alike_thenNext (alike_unary fun _ => alike_heap (Heap.deepCopy_alike _)
      fun _ => Heap.deepCopy_keeps Object.Sound.stable _)
  case shallowCopy =>
    exact alike_thenNext (alike_unary fun _ => alike_heap (Heap.shallowCopy_alike _)
      fun _ => Heap.shallowCopy_keeps Object.Sound.stable _)
  case release =>
    exact alike_thenNext (alike_pop.bind fun v => alike_heap (Heap.release_alike v)
      fun _ => Heap.release_keeps v)
  case trapSet =>
    refine alike_thenNext (alike_modify (fun _ => rfl) fun c sound => ⟨sound.heap, ?_⟩)
    obtain ⟨unit, compiled, slots, cursor, _, onExhaust⟩ := sound.frame
    refine ⟨unit, compiled, slots, cursor, fun q trap => ?_, onExhaust⟩
    cases trap
    exact target (by simp [Instruction.scan?, op, Opcode.scan?])
  case trapClear =>
    refine alike_thenNext (alike_modify (fun _ => rfl) fun c sound => ⟨sound.heap, ?_⟩)
    obtain ⟨unit, compiled, slots, cursor, _, onExhaust⟩ := sound.frame
    exact ⟨unit, compiled, slots, cursor, fun q trap => (by cases trap), onExhaust⟩
  case throw => exact alike_pop.bind fun v => alike_throw _
  case fatal => exact alike_throw _
  case deferArm => exact alike_thenNext (alike_changeFrame (Frame.armDefer_alike _))
  case deferCheck => exact alike_checkDefer _ _
  case deferEnd => exact alike_endDefer
  case iterNew =>
    exact alike_thenNext (alike_pop.bind fun v => (alike_heap (Heap.openIterator_alike v)
      fun _ => Heap.openIterator_keeps Object.Sound.stable v).bind alike_push)
  case iterNext => exact alike_iterNext _
  case iterKey | iterValue =>
    exact alike_thenNext (alike_unary fun v =>
      alike_readHeap fun h => Heap.recompiled_currentEntry h v _)
  case finalize => exact alike_pure _

end

end Exec

end ScriptMachine
