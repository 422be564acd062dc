import ScriptMachine.Proofs.Exec.Conservation
import ScriptMachine.Proofs.Exec.Underflow
import ScriptMachine.Proofs.Heap.Orderly

/-!
# Reading through temporaries

An instruction that reads an entry lets its operands go afterwards, and with them all that they
lead to. What it pushes refers to the object that it read of, so the object has to stay. A structure
that the operand owns hands the entry over, and the new owner keeps the object. Iterators hand
nothing over: if the iterator on the stack leads to the object, as one does that walks a structure
of its own or that holds what a generator yielded, then the object is gone and the value that was
pushed is stale.
-/

set_option autoImplicit false

namespace ScriptMachine

variable {H : Type}

/-- A share refers to what the value refers to. -/
@[simp] theorem Value.ref?_share (v : Value) : v.share.ref? = v.ref? := by
  obtain ⟨content, flags⟩ := v
  cases content <;> rfl

theorem Value.ref?_of_owned {v : Value} {ref : HeapRef} (owned : v.owned? = some ref) :
    v.ref? = some ref := by
  unfold owned? at owned
  unfold ref?
  split at owned <;> simp_all

theorem Structure.not_overflows_name (s : Structure) {name : String} {k : Key}
    (stands : Key.ofValue (.str name) = .ok k) : s.overflows [.read k] = false := by
  have named : k = .str name := by
    by_cases empty : name = ""
    · rw [empty] at stands
      cases stands
    · have same : Key.ofValue (.str name) = .ok (.str name) := if_neg empty
      exact Except.ok.inj (stands.symm.trans same)
  obtain ⟨storage, migrations⟩ := s
  cases storage <;> simp [named, overflows, Ring.overflows, Key.int?]

namespace Heap

variable {h : Heap H} {v target key : Value} {x : Handle} {s : Structure} {k : Key} {e : Value}

theorem currentEntry_eq {it : Iterator} (refers : v.ref? = some ⟨.iterator, x⟩)
    (found : h.object? x = some (.iterator it)) (keyed : Bool) :
    h.currentEntry v keyed =
      .ok (if keyed then it.key.share else (it.current.head?.map Value.share).getD .null) := by
  simp [currentEntry, iteratorHandle, handleOf, refers, iteratorAt_of_object? found, bind,
    Except.bind, pure, Except.pure]

theorem structureFor_lookup (found : h.structureOf target = .ok s)
    (stands : Key.ofValue key = .ok k) (safe : s.overflows [.read k] = false) :
    (h.structureFor target fun _ => lookupUses key) = .ok s :=
  structureFor_eq_ok.mpr ⟨found, by rwa [lookupUses, stands]⟩

theorem getChild_eq (found : h.structureOf target = .ok s) (stands : Key.ofValue key = .ok k)
    (safe : s.overflows [.read k] = false) (entry : s.get? k = some e) :
    h.getChild target key = .ok e.share := by
  simp [getChild, structureFor_lookup found stands safe, stands, entry, bind, Except.bind, pure,
    Except.pure]

theorem ensures_deleteChild (valid : h.All fun _ o => o.Valid)
    (found : h.structureOf target = .ok s) (stands : Key.ofValue key = .ok k)
    (safe : s.overflows [.read k] = false) (entry : s.get? k = some e) :
    (deleteChild target key).Ensures h (fun v _ => v = Structure.detach e) fun _ _ => False := by
  unfold deleteChild readStructure
  have reads := structureFor_lookup found stands safe
  refine ensures_changeStructure (fun e missing => ?_) fun x s' _ found' object => ?_
  · rw [reads] at missing
    cases missing
  · cases reads.symm.trans found'
    have valid : s.storage.Valid := valid.object? object
    have looked : s.get? k = SortedMap.lookup k s.entries := valid.get?_eq k
    obtain ⟨-, -, removed, -⟩ := Structure.delete_spec valid k
    simp [stands, removed, ← looked, entry]

end Heap

namespace Exec

variable {c : Context H} {ins : Instruction} {operands : List Value} {handsOver : Bool}
  {e : Value} {ref : HeapRef}

/-- The instruction reads the entry `e` by its operands, which are on the stack in this order; it
hands the entry over or shares it. An iterator reads its key, the entry of the structure that it has
come to, as long as that is what it has put up, or the first value that its generator yielded. -/
inductive Reads (c : Context H) (ins : Instruction) : List Value → Bool → Value → Prop
  | getKey {key target : Value} {rest : List Value} {s : Structure} {k : Key} {e : Value}
      (op : ins.op = .getKey) (stack : c.frame.stack = key :: target :: rest)
      (found : c.heap.structureOf target = .ok s) (stands : Key.ofValue key = .ok k)
      (safe : s.overflows [.read k] = false) (entry : s.get? k = some e) :
      Reads c ins [key, target] target.owns e
  | getField {target : Value} {rest : List Value} {s : Structure} {k : Key} {e : Value}
      (op : ins.op = .getField) (stack : c.frame.stack = target :: rest)
      (found : c.heap.structureOf target = .ok s) (stands : Key.ofValue (.str ins.name) = .ok k)
      (entry : s.get? k = some e) : Reads c ins [target] target.owns e
  | iterKey {v : Value} {rest : List Value} {x : Handle} {it : Iterator}
      (op : ins.op = .iterKey) (stack : c.frame.stack = v :: rest)
      (refers : v.ref? = some ⟨.iterator, x⟩) (found : c.heap.object? x = some (.iterator it)) :
      Reads c ins [v] false it.key
  | walked {v target : Value} {rest : List Value} {x : Handle} {it : Iterator} {s : Structure}
      {k : Key} {e : Value}
      (op : ins.op = .iterValue) (stack : c.frame.stack = v :: rest)
      (refers : v.ref? = some ⟨.iterator, x⟩) (found : c.heap.object? x = some (.iterator it))
      (walks : it.source = .walk target (.after k)) (structure' : c.heap.structureOf target = .ok s)
      (entry : s.get? k = some e) (current : it.current = [e.share]) : Reads c ins [v] false e
  | yielded {v : Value} {rest : List Value} {x : Handle} {it : Iterator} {e : Value}
      {more : List Value}
      (op : ins.op = .iterValue) (stack : c.frame.stack = v :: rest)
      (refers : v.ref? = some ⟨.iterator, x⟩) (found : c.heap.object? x = some (.iterator it))
      (generates : it.isGenerator) (current : it.current = e :: more) : Reads c ins [v] false e

/-- What a reading instruction does: the pushed value refers to what the entry refers to. If the
entry is handed over then the value is an owner as the entry was; otherwise only the operands were
let go. -/
structure Fetched (c : Context H) (operands : List Value) (handsOver : Bool) (e v : Value)
    (d : Context H) : Prop where
  stack : d.frame.stack = v :: c.frame.stack.drop operands.length
  refers : v.ref? = e.ref?
  gone : ∀ x, 0 < tally x operands → d.heap.object? x = none
  owner : handsOver = true → v.owned? = e.owned?
  heap : handsOver = false → d.heap = c.heap.disposeAll operands.reverse

/-! ## The instructions -/

theorem pop_eq {v : Value} {rest : List Value} (stack : c.frame.stack = v :: rest) :
    (pop : Exec H Value) c = .ok v (c.drawn 1) := by
  refine Effect.eq_ok_of_ensures ?_
  simp [pop, onFrame, Frame.pop, stack, Context.drawn]

theorem popTwo_eq {a b : Value} {rest : List Value} (stack : c.frame.stack = b :: a :: rest) :
    (popTwo : Exec H (Value × Value)) c = .ok (a, b) (c.drawn 2) := by
  refine Effect.eq_ok_of_ensures ?_
  simp [popTwo, pop, onFrame, Frame.pop, stack, Context.drawn]

def ReadAs (c : Context H) (handsOver : Bool) (e v : Value) (d : Context H) : Prop :=
  d.frame = c.frame ∧ v.ref? = e.ref? ∧ (handsOver = true → v.owned? = e.owned?) ∧
    (handsOver = false → d.heap = c.heap)

theorem fetch_reads {target key : Value} {s : Structure} {k : Key}
    (valid : c.heap.All fun _ o => o.Valid) (found : c.heap.structureOf target = .ok s)
    (stands : Key.ofValue key = .ok k) (safe : s.overflows [.read k] = false)
    (entry : s.get? k = some e) :
    (fetch target key).Ensures c (ReadAs c target.owns e) fun _ _ => False := by
  unfold fetch
  split
  · rename_i owns
    show (Effect.onPart Context.heap (fun heap c => { c with heap })
      (Heap.deleteChild target key)).Ensures c _ _
    rw [Effect.ensures_onPart]
    refine (Heap.ensures_deleteChild valid found stands safe entry).mono (fun v k same => ?_)
      fun _ _ => id
    subst same
    exact ⟨rfl, rfl, fun _ => rfl, fun plain => by simp [owns] at plain⟩
  · rename_i plain
    simp only [readHeap, Effect.ensures_bind, Effect.ensures_get, Effect.ensures_liftM,
      Heap.getChild_eq found stands safe entry]
    exact ⟨rfl, e.ref?_share, fun owns => absurd owns plain, fun _ => rfl⟩

theorem currentEntry_reads {v : Value} {x : Handle} {it : Iterator} {keyed : Bool}
    (refers : v.ref? = some ⟨.iterator, x⟩) (found : c.heap.object? x = some (.iterator it))
    (same : (if keyed then it.key.share else (it.current.head?.map Value.share).getD .null).ref? =
      e.ref?) :
    (readHeap fun h => h.currentEntry v keyed).Ensures c (ReadAs c false e) fun _ _ => False := by
  simp only [readHeap, Effect.ensures_bind, Effect.ensures_get, Effect.ensures_liftM,
    Heap.currentEntry_eq refers found]
  exact ⟨rfl, same, fun owns => absurd owns Bool.false_ne_true, fun _ => rfl⟩

/-- The operands were taken; they are let go after the reading, and what was read is pushed. -/
theorem fetched_consuming (operands : List Value) {op : Exec H Value}
    (reads : op.Ensures (c.drawn operands.length) (ReadAs (c.drawn operands.length) handsOver e)
      fun _ _ => False) :
    (thenNext (consuming operands.reverse op >>= push)).Ensures (c.drawn operands.length)
      (fun flow d => flow = .next ∧ ∃ v, Fetched c operands handsOver e v d) fun _ _ => False := by
  simp only [thenNext, Effect.ensures_bind, consuming, Effect.ensures_andAlways, push,
    Effect.ensures_modify, Effect.ensures_pure, true_and]
  refine reads.mono (fun v d read => ⟨v, ?_⟩) fun _ _ => id
  obtain ⟨frame, refers, owner, heap⟩ := read
  refine ⟨by simp [letGo, Frame.push, frame, Context.drawn], refers, fun x pos => ?_, owner,
    fun shares => by simp only [letGo, heap shares]; rfl⟩
  exact (Heap.object?_disposeAll _ x).1 (Heap.below_of_tally (by rwa [tally_reverse]))

theorem fetched_unary {op : Value → Exec H Value} {v : Value} {rest : List Value}
    (stack : c.frame.stack = v :: rest)
    (reads : (op v).Ensures (c.drawn 1) (ReadAs (c.drawn 1) handsOver e) fun _ _ => False) :
    (thenNext (unary op)).Ensures c (fun flow d => flow = .next ∧ ∃ w, Fetched c [v] handsOver e w d)
      fun _ _ => False := by
  have rest := fetched_consuming [v] reads
  simp only [thenNext, unary, Effect.ensures_bind, Effect.ensures_of_eq_ok (pop_eq stack)] at rest ⊢
  exact rest

theorem single_fetches (units : UnitTable) {r : Resolved} (valid : c.heap.All fun _ o => o.Valid)
    (reads : Reads c r.ins operands handsOver e) :
    (single units r).Ensures c (fun flow d => flow = .next ∧ ∃ v, Fetched c operands handsOver e v d)
      fun _ _ => False := by
  cases reads with
  | @getKey key target _ _ _ _ op stack found stands safe entry =>
    have rest := fetched_consuming [key, target]
      (fetch_reads (c := c.drawn 2) valid found stands safe entry)
    simp only [single, op, getKey, thenNext, Effect.ensures_bind,
      Effect.ensures_of_eq_ok (popTwo_eq stack)] at rest ⊢
    exact rest
  | @getField target _ s _ _ op stack found stands entry =>
    have rest := fetched_consuming [target]
      (fetch_reads (c := c.drawn 1) valid found stands (s.not_overflows_name stands) entry)
    simp only [single, op, getField, thenNext, Effect.ensures_bind,
      Effect.ensures_of_eq_ok (pop_eq stack)] at rest ⊢
    exact rest
  | iterKey op stack refers found =>
    simp only [single, op]
    exact fetched_unary stack (currentEntry_reads refers found (by simp))
  | walked op stack refers found walks structure' entry current =>
    simp only [single, op]
    exact fetched_unary stack (currentEntry_reads refers found (by simp [current]))
  | yielded op stack refers found generates current =>
    simp only [single, op]
    exact fetched_unary stack (currentEntry_reads refers found (by simp [current]))

/-- A value that is read refers to the object that the entry owns. The object stays if the entry was
handed over, or if the operands that are let go do not lead to it; otherwise the value is stale. -/
theorem single_reads (units : UnitTable) {r : Resolved} {out : List Value} (owned : c.Owned out)
    (reads : Reads c r.ins operands handsOver e) (owner : e.owned? = some ref)
    (live : (c.heap.object? ref.handle).isSome) :
    ∃ v d, single units r c = .ok .next d ∧
      d.frame.stack = v :: c.frame.stack.drop operands.length ∧ v.ref? = some ref ∧
      (∀ x, 0 < tally x operands → d.heap.object? x = none) ∧
      ((d.heap.object? ref.handle).isSome ↔
        handsOver = true ∨ ¬ c.heap.Below operands ref.handle) := by
  have fetches := single_fetches units owned.heap.valid reads
  have keeps := single_conserves units r c out owned
  cases run : single units r c with
  | error e' d => exact ((Effect.ensures_of_eq_error run).mp fetches).elim
  | ok flow d =>
    obtain ⟨rfl, v, fetched⟩ := (Effect.ensures_of_eq_ok run).mp fetches
    have owned' : d.Owned out := (Effect.ensures_of_eq_ok run).mp keeps
    refine ⟨v, d, rfl, fetched.stack, fetched.refers.trans (Value.ref?_of_owned owner),
      fetched.gone, ?_⟩
    cases handsOver with
    | true =>
      have one := Value.owners_eq_one ((fetched.owner rfl).trans owner)
      refine iff_of_true (owned'.heap.live (x := ref.handle) ?_) (.inl rfl)
      simp only [Context.held, Frame.tally_held, fetched.stack, tally_append, tally_cons]
      omega
    | false =>
      obtain ⟨gone, kept⟩ := Heap.object?_disposeAll (h := c.heap) operands.reverse ref.handle
      have same : c.heap.Below operands.reverse ref.handle ↔ c.heap.Below operands ref.handle := by
        simp only [Heap.Below, tally_reverse]
      rw [fetched.heap rfl]
      by_cases below : c.heap.Below operands ref.handle
      · simp [gone (same.mpr below), below]
      · simp [kept (mt same.mp below), live, below]

/-! ## A structure on the stack that owns another one -/

/-- Nothing has run in this context; it has one local slot. -/
def idle : Context Unit :=
  { heap := {}, globals := {}, frame := { locals := [.null], capacity := 0 }, channel := [] }

def afterwards (span : List Resolved) : Context Unit := ((sequence {} span).outcome idle).2

theorem eq_ok_of_toOption {α : Type} {x : Except Error α} {a : α} (found : x.toOption = some a) :
    x = .ok a := by
  cases x with
  | error e => cases found
  | ok b => exact congrArg Except.ok (Option.some.inj found)

theorem afterwards_owned {span : List Resolved}
    (ran : ((sequence {} span).outcome idle).1.toOption = some .next) :
    (afterwards span).Owned [] := by
  have owned : idle.Owned [] := ⟨Heap.owned_empty.recount fun _ => rfl, .nil⟩
  have run := Effect.eq_ok_of_outcome (eq_ok_of_toOption ran)
  exact (Effect.ensures_of_eq_ok run).mp (sequence_conserves {} span idle [] owned)

def outer : Value := .owned ⟨.struct, ⟨0, 0⟩⟩

def inner : HeapRef := ⟨.struct, ⟨1, 0⟩⟩

def nest : List Resolved :=
  [{ ins := { op := .newStruct } }, { ins := { op := .storeLocal } },
    { ins := { op := .loadLocal } }, { ins := { op := .newStruct } },
    { ins := { op := .setField, str := some "a" } }, { ins := { op := .moveLocal } }]

def inside : Value := ⟨.owned inner, { child := true }⟩

theorem outer_holds {c : Context Unit} (held : (c.heap.structureOf outer).toOption.bind
    (·.get? (.str "a")) = some inside) :
    ∃ s, c.heap.structureOf outer = .ok s ∧ s.get? (.str "a") = some inside := by
  obtain ⟨s, found, entry⟩ := Option.bind_eq_some_iff.mp held
  exact ⟨s, eq_ok_of_toOption found, entry⟩

def readField : Resolved := { ins := { op := .getField, str := some "a" } }

/-- The inner structure is handed over when the outer one goes. -/
theorem single_reads_nested : ∃ v d, single {} readField (afterwards nest) = .ok .next d ∧
    d.frame.stack = [v] ∧ v.ref? = some inner ∧ d.heap.object? ⟨0, 0⟩ = none ∧
      (d.heap.object? inner.handle).isSome := by
  have stack : (afterwards nest).frame.stack = [outer] := by decide +kernel
  obtain ⟨s, found, entry⟩ := outer_holds (c := afterwards nest) (by decide +kernel)
  have reads : Reads (afterwards nest) readField.ins [outer] true inside :=
    .getField rfl stack found rfl entry
  obtain ⟨v, d, run, after, refers, gone, stays⟩ :=
    single_reads {} (afterwards_owned (by decide +kernel)) reads rfl (by decide +kernel)
  exact ⟨v, d, run, by simpa [stack] using after, refers, gone _ (by decide),
    stays.mpr (.inl rfl)⟩

/-- Leaves a walk on the stack that owns the outer structure and has come to its entry. -/
def nestWalk : List Resolved :=
  nest ++ [{ ins := { op := .iterNew } }, { ins := { op := .dup } }, { ins := { op := .iterNext } }]

def walker : Value := .owned ⟨.iterator, ⟨2, 0⟩⟩

def readValue : Resolved := { ins := { op := .iterValue } }

def walked? (it : Iterator) : Option (Value × WalkPosition) :=
  match it.source with
  | .walk target position => some (target, position)
  | .generator _ => none

theorem source_of_walked? {it : Iterator} {target : Value} {position : WalkPosition}
    (walks : walked? it = some (target, position)) : it.source = .walk target position := by
  unfold walked? at walks
  cases source : it.source with
  | walk target' position' =>
    rw [source] at walks
    cases walks
    rfl
  | generator frame =>
    rw [source] at walks
    cases walks

theorem nestWalk_reads : Reads (afterwards nestWalk) readValue.ins [walker] false inside := by
  have stack : (afterwards nestWalk).frame.stack = [walker] := by decide +kernel
  obtain ⟨s, structure', entry⟩ := outer_holds (c := afterwards nestWalk) (by decide +kernel)
  have put : ((afterwards nestWalk).heap.iteratorAt ⟨2, 0⟩).toOption.map
      (fun it => (walked? it, it.current)) = some (some (outer, .after (.str "a")), [inside.share]) := by
    decide +kernel
  obtain ⟨it, found, same⟩ := Option.map_eq_some_iff.mp put
  obtain ⟨walks, current⟩ := Prod.mk.inj same
  exact .walked rfl stack rfl (Heap.iteratorAt_eq_ok (eq_ok_of_toOption found))
    (source_of_walked? walks) structure' entry current

/-- The walk goes, the outer structure with it and with that one the inner one, and what was pushed
refers to nothing. -/
theorem temporary_walk_dangles : (afterwards nestWalk).Owned [] ∧
    Reads (afterwards nestWalk) readValue.ins [walker] false inside ∧
    inside.owned? = some inner ∧ ((afterwards nestWalk).heap.object? inner.handle).isSome ∧
    ∃ d, single {} readValue (afterwards nestWalk) = .ok .next d ∧
      d.frame.stack = [.pointer inner] ∧ d.heap.object? inner.handle = none := by
  refine ⟨afterwards_owned (by decide +kernel), nestWalk_reads, rfl, by decide +kernel, ?_⟩
  have ran : ((single {} readValue).outcome (afterwards nestWalk)).1.toOption = some .next := by
    decide +kernel
  have pushed : ((single {} readValue).outcome (afterwards nestWalk)).2.frame.stack =
      [.pointer inner] := by decide +kernel
  have gone : (((single {} readValue).outcome (afterwards nestWalk)).2.heap.object?
      inner.handle).isNone := by decide +kernel
  exact ⟨_, Effect.eq_ok_of_outcome (eq_ok_of_toOption ran), pushed, Option.isNone_iff_eq_none.mp gone⟩

end Exec

end ScriptMachine
