import ScriptMachine.Proofs.Exec.Conservation
import ScriptMachine.Proofs.Heap.Orderly
import ScriptMachine.Proofs.Machine.Deals
import ScriptMachine.Proofs.Structure.Layouts

/-!
# Transfers of control conserve owners

What a job holds is in its frames and in its channel. While frames are taken off a stack one after
the other, those that are still to come are in hand: `Session.Owned` counts no frame, and the ledger
of a session counts the frames of its job. Every transfer of control gives back what it takes, and
so does a tick that does not run out of operands.
-/

set_option autoImplicit false

namespace ScriptMachine

variable {H W : Type}

/-! ## Packing -/

namespace Heap

variable {h : Heap H} {x : Handle} {out : List Value}

theorem setChildKey_owned {s : Structure} {key : Key} {v : Value}
    (owned : h.Owned [] (v :: .owned ⟨.struct, x⟩ :: out)) (found : h.object? x = some (.struct s))
    (plain : s.layout ≠ .ring) :
    (setChildKey (.owned ⟨.struct, x⟩) key v).Ensures h
      (fun _ k => k.Owned [] (.owned ⟨.struct, x⟩ :: out) ∧
        ∃ s, k.object? x = some (.struct s) ∧ s.layout ≠ .ring)
      (fun _ _ => False) := by
  have apart : (v.owns && v.ref? == (Value.owned ⟨.struct, x⟩).ref?) = false := by
    rw [Bool.eq_false_iff]
    intro same
    obtain ⟨owns, refers⟩ := Bool.and_eq_true_iff.mp same
    have one := Value.owners_eq_one (Value.owned?_of_owns owns (beq_iff_eq.mp refers))
    have balance := owned.balance x
    simp only [tally_cons, Value.owners_owned, if_true] at balance one
    unfold due at balance
    split at balance <;> omega
  have reads : (h.structureFor (.owned ⟨.struct, x⟩) fun _ => [.write key]) = .ok s :=
    structureFor_eq_ok.mpr ⟨structureOf_of_object? rfl found,
      Structure.not_overflows_of_not_ring plain _⟩
  have succeeds : (setChildKey (.owned ⟨.struct, x⟩) key v).Ensures h
      (fun _ k => ∀ s, k.object? x = some (.struct s) → s.layout ≠ .ring)
      (fun _ _ => False) := by
    unfold setChildKey
    rw [apart]
    simp only [Bool.false_eq_true, if_false, Effect.ensures_bind, Effect.ensures_get, reads]
    refine ensures_changeStructure (fun e missing => ?_) fun y t refers _ object => ?_
    · rw [reads] at missing
      cases missing
    · cases refers
      cases found.symm.trans object
      intro s' left
      have there := object?_of_disposeAll left
      change (h.setObject x _).object? x = _ at there
      rw [object?_setObject found, if_pos rfl] at there
      cases there
      exact (s.widens_set h.pools.structures key v).not_ring plain
  have evolves := setChildKey_keeps Object.Stable.true (.owned ⟨.struct, x⟩) key v h
    ⟨owned.accounted, fun _ _ _ _ _ => trivial, Evolves.refl h⟩
  have stored := setChildKey_conserves (.owned ⟨.struct, x⟩) key v h (.owned ⟨.struct, x⟩ :: out)
    owned
  refine ((succeeds.and evolves).and stored).mono (fun _ k done => ?_) fun _ _ done => done.1.1
  obtain ⟨⟨shape, later⟩, owned'⟩ := done
  refine ⟨owned', ?_⟩
  have named : 0 < tally x ([] ++ .owned ⟨.struct, x⟩ :: out) := by
    simp only [List.nil_append, tally_cons, Value.owners_owned, if_true]
    omega
  obtain ⟨o, live⟩ := Option.isSome_iff_exists.mp (Owned.live owned' named)
  obtain ⟨o', found', edit⟩ := later.evolves.edited x o (owned.accounted.issued_of_live found) live
  rw [found] at found'
  cases found'
  cases o with
  | struct s' => exact ⟨s', live, shape s' live⟩
  | _ => exact edit.elim

theorem setItems_owned {values : List Value} : ∀ {i : Nat} {h : Heap H} {s : Structure},
    h.Owned [] (values ++ .owned ⟨.struct, x⟩ :: out) → h.object? x = some (.struct s) →
    s.layout ≠ .ring →
    (setItems (.owned ⟨.struct, x⟩) i values).Ensures h
      (fun _ k => k.Owned [] (.owned ⟨.struct, x⟩ :: out)) (fun _ _ => False) := by
  induction values with
  | nil => exact fun owned _ _ => owned
  | cons v rest ih =>
    intro i h s owned found plain
    have first : h.Owned [] (v :: .owned ⟨.struct, x⟩ :: (rest ++ out)) :=
      owned.recount fun y => by
        simp only [List.cons_append, tally_cons, tally_append]
        omega
    rw [setItems, Effect.ensures_bind]
    refine (setChildKey_owned first found plain).mono (fun _ k stored => ?_) fun _ _ never => never
    obtain ⟨owned', s', found', plain'⟩ := stored
    refine ih (owned'.recount fun y => ?_) found' plain'
    simp only [tally_cons, tally_append]
    omega

theorem pack_owned (values : List Value) (owned : h.Owned [] (values ++ out)) :
    (pack values).Ensures h (fun v k => k.Owned [] (v :: out)) (fun _ _ => False) := by
  unfold pack
  simp only [Effect.ensures_bind, Effect.ensures_get, Effect.ensures_set, Effect.ensures_onFailure]
  have made := owned_allocStructure values.length h _ owned
  obtain ⟨x, answer, -, found⟩ := (owned.later.withPools _).accounted.object?_alloc
    (.struct (Structure.new h.pools.structures values.length).1)
  unfold allocStructure at made ⊢
  simp only at made ⊢
  rw [answer] at made ⊢
  refine setItems_owned (made.recount fun y => ?_) ((found x).trans (if_pos rfl))
    fun ring => by cases ring
  simp only [Object.kind, tally_cons, tally_append]
  omega

end Heap

/-! ## Sessions -/

namespace Session

open Effect (Conserves ConservesAt Steady)

variable {keeps : W → List Value} {s : Session H W} {out out' : List Value} {f : Frame}
  {fs : List Frame}

/-- The values of a session outside of the heap, but for those in frames. -/
def held (keeps : W → List Value) (s : Session H W) : List Value :=
  s.job.channel ++ s.machine.globals.values ++ keeps s.machine.world

/-- The owners in a session and in hand account for all objects, and the task that the job waits for
owns none. Frames count as in hand. -/
structure Owned (keeps : W → List Value) (out : List Value) (s : Session H W) : Prop where
  heap : s.machine.heap.Owned [] (s.held keeps ++ out)
  globals : SortedMap.Ascending s.machine.globals.entries.entries
  task : ∀ t, s.job.pending = some t → t.Bare

theorem Owned.recount (owned : s.Owned keeps out) (same : SameOwners out out') :
    s.Owned keeps out' :=
  { owned with heap := owned.heap.recount ((SameOwners.refl _).append same) }

def ledger (keeps : W → List Value) : Ledger (Session H W) where
  Settled out s := s.Owned keeps (s.job.frames.flatMap Frame.held ++ out)
  recount same owned := owned.recount ((SameOwners.refl _).append same)
  Excused _ := False

theorem Owned.setFrames (owned : s.Owned keeps out) (fs : List Frame) :
    Owned keeps out { s with job := { s.job with frames := fs } } :=
  ⟨owned.heap, owned.globals, owned.task⟩

theorem Owned.note (owned : s.Owned keeps out) (topic : Topic) (severity : Severity) :
    Owned keeps out { s with machine := s.machine.note topic severity } :=
  ⟨owned.heap, owned.globals, owned.task⟩

theorem Owned.changeHeap {k : Heap H} (owned : s.Owned keeps out)
    (heap : k.Owned [] (s.held keeps ++ out')) :
    Owned keeps out' { s with machine := { s.machine with heap := k } } :=
  ⟨heap, owned.globals, owned.task⟩

theorem Owned.dispose {vs : List Value} (owned : s.Owned keeps (vs ++ out)) :
    Owned keeps out { s with machine := s.machine.dispose vs } := by
  refine owned.changeHeap (Heap.Owned.disposeAll (owned.heap.recount fun x => ?_))
  simp only [tally_append]
  omega

theorem Owned.drain (owned : s.Owned keeps out) :
    Owned keeps (s.job.channel ++ out) { s with job := { s.job with channel := [] } } := by
  refine ⟨owned.heap.recount fun x => ?_, owned.globals, owned.task⟩
  simp only [held, tally_append, tally_nil]
  omega

theorem Owned.setIterator {x : Handle} {it it' : Iterator} {vs ws : List Value}
    (owned : s.Owned keeps (vs ++ out)) (found : s.machine.heap.object? x = some (.iterator it))
    (deals : SameOwners ((Object.iterator it : Object H).held ++ vs)
      ((Object.iterator it' : Object H).held ++ ws)) :
    Owned keeps (ws ++ out) { s with machine := { s.machine with
      heap := s.machine.heap.setObject x (.iterator it') } } := by
  refine owned.changeHeap (owned.heap.setObject found trivial fun y => ?_)
  have moved := deals y
  simp only [tally_append] at moved ⊢
  omega

theorem Owned.retire (owned : s.Owned keeps (f.held ++ out)) (mask : UInt64) :
    Owned keeps ((s.machine.heap.retire f mask).1 ++ out)
      { s with machine := { s.machine with heap := (s.machine.heap.retire f mask).2 } } := by
  have counted : s.machine.heap.Owned [] (f.held ++ (s.held keeps ++ out)) :=
    owned.heap.recount fun x => by simp only [tally_append]; omega
  refine owned.changeHeap ((counted.retire mask).recount fun x => ?_)
  simp only [tally_append]
  omega

/-! ### Small operations -/

theorem note_steady (topic : Topic) (severity : Severity) :
    Steady (ledger keeps) [] (note topic severity : SessionM H W Unit) fun _ => [] :=
  fun _ _ owned => owned.note topic severity

theorem dispose_steady (vs : List Value) :
    Steady (ledger keeps) vs (dispose vs : SessionM H W Unit) fun _ => [] := by
  intro s rest owned
  have counted : s.Owned keeps (vs ++ (s.job.frames.flatMap Frame.held ++ rest)) :=
    owned.recount fun x => by simp only [tally_append]; omega
  exact counted.dispose

theorem drainChannel_steady :
    Steady (ledger keeps) [] (drainChannel : SessionM H W (List Value)) fun values => values := by
  intro s rest owned
  refine (Owned.drain owned).recount fun x => ?_
  simp only [tally_append, tally_nil]
  omega

theorem clearChannel_steady :
    Steady (ledger keeps) [] (clearChannel : SessionM H W Unit) fun _ => [] :=
  drainChannel_steady.bind_steady dispose_steady

theorem refuse_conserves (vs : List Value) {e : Error} (light : e.carried = []) :
    Conserves (ledger keeps) vs (dispose vs >>= fun _ => throw e : SessionM H W Unit) fun _ => [] :=
  (dispose_steady vs).bind fun _ => .throw fun x => by rw [light]

theorem changeTop_steady {change : Frame → Frame} (same : ∀ g, (change g).held = g.held) :
    Steady (ledger keeps) [] (changeJob fun j => j.changeTop change : SessionM H W Unit)
      fun _ => [] := by
  intro s rest owned
  obtain ⟨machine, frames, channel, pending⟩ := s
  cases frames with
  | nil => exact owned
  | cons top below =>
    refine Owned.setFrames (owned.recount fun x => ?_) (change top :: below)
    simp only [Job.changeTop, List.flatMap_cons, same]

theorem deliver_steady (values : List Value) :
    Steady (ledger keeps) values (deliver values : SessionM H W Unit) fun _ => [] := by
  intro s rest owned
  obtain ⟨machine, frames, channel, pending⟩ := s
  cases frames with
  | nil =>
    refine ⟨owned.heap.recount fun x => ?_, owned.globals, owned.task⟩
    simp only [held, List.flatMap_nil, tally_append, tally_nil]
    omega
  | cons top below =>
    refine ⟨owned.heap.recount fun x => ?_, owned.globals, owned.task⟩
    have pushed := Frame.tally_pushAll (f := top) (if values.isEmpty then [.null] else values) x
    have none : values.isEmpty → tally x values = 0 := fun empty => by
      rw [List.isEmpty_iff.mp empty]
      rfl
    simp only [held, List.flatMap_cons, tally_append, tally_nil, pushed]
    split
    · rename_i empty
      simp only [none empty, tally_cons, tally_nil, Value.owners_null]
      omega
    · omega

/-! ### Frames that are left -/

theorem abandon_owned (owned : s.Owned keeps (f.held ++ out)) :
    (abandon f).Ensures s (fun _ t => t.Owned keeps out) (fun _ _ => False) := by
  have retired := owned.retire 0
  rw [Heap.retire_zero, List.nil_append] at retired
  simp only [abandon, Effect.ensures_bind, ensures_retire]
  cases f.generator with
  | none => exact retired
  | some x => exact retired.changeHeap (retired.heap.exhaust x)

theorem abandonFrames_owned : ∀ {fs : List Frame} {s : Session H W},
    s.Owned keeps (fs.flatMap Frame.held ++ out) →
      (fs.forM abandon).Ensures s (fun _ t => t.Owned keeps out) (fun _ _ => False) := by
  intro fs
  induction fs with
  | nil => exact fun owned => owned
  | cons f fs ih =>
    intro s owned
    refine (Effect.ensures_bind ..).mpr ?_
    have first : s.Owned keeps (f.held ++ (fs.flatMap Frame.held ++ out)) :=
      owned.recount fun x => by simp only [List.flatMap_cons, List.append_assoc]
    exact (abandon_owned first).mono (fun _ _ owned => ih owned) fun _ _ never => never

theorem abandonAll_steady :
    Steady (ledger keeps) [] (abandonAll : SessionM H W Unit) fun _ => [] := by
  intro s rest owned
  unfold abandonAll
  simp only [Effect.ensures_bind, Effect.ensures_get]
  exact (abandonFrames_owned owned).mono (fun _ _ left => left.setFrames [])
    fun _ _ never => never.elim

theorem owners_payload (e : Error) (x : Handle) : e.payload.owners x = tally x e.carried := by
  unfold Error.payload Error.carried Error.thrown?
  cases e.cause with
  | fault f =>
    cases f with
    | thrown v => simp
    | _ => rfl
  | _ => rfl

theorem unwind_owned (e : Error) : ∀ {fs : List Frame} {s : Session H W},
    s.Owned keeps (fs.flatMap Frame.held ++ (e.carried ++ out)) →
      (unwind e fs).Ensures s (fun _ t => (ledger keeps).Settled out t)
        (fun e t => (ledger keeps).Settled (e.carried ++ out) t) := by
  intro fs
  induction fs with
  | nil => exact fun owned => owned.setFrames []
  | cons f fs ih =>
    intro s owned
    unfold unwind
    split
    · rename_i handler _
      simp only [Effect.ensures_bind, ensures_dispose, ensures_note, ensures_changeJob]
      have split : s.Owned keeps (f.stack.reverse ++
          ((f.trapped handler e :: fs).flatMap Frame.held ++ out)) := by
        refine owned.recount fun x => ?_
        simp only [List.flatMap_cons, tally_append, tally_reverse, Frame.tally_held, Frame.trapped,
          Frame.pendingValues, Frame.returnedValues, Frame.thrownValues, tally_cons, tally_nil,
          owners_payload]
        omega
      exact (split.dispose.note .engine .debug).setFrames _
    · rename_i entry _ _
      simp only [Effect.ensures_bind, ensures_dispose, ensures_changeJob]
      have split : s.Owned keeps (f.stack.reverse ++ (f.thrownValues ++ (f.returnedValues ++
          ((f.holdError entry e :: fs).flatMap Frame.held ++ out)))) := by
        refine owned.recount fun x => ?_
        simp only [List.flatMap_cons, tally_append, tally_reverse, Frame.tally_held,
          Frame.holdError, Frame.pendingValues, Frame.returnedValues, Frame.thrownValues, tally_nil,
          Option.bind_some, Error.carried]
        omega
      exact (split.dispose.setFrames (f.holdError entry e :: fs)).dispose.dispose
    · rw [Effect.ensures_bind]
      have first : s.Owned keeps (f.held ++ (fs.flatMap Frame.held ++ (e.carried ++ out))) :=
        owned.recount fun x => by simp only [List.flatMap_cons, List.append_assoc]
      exact (abandon_owned first).mono (fun _ _ owned => ih owned) fun _ _ never => never.elim

theorem raise_conserves (e : Error) :
    Conserves (ledger keeps) e.carried (raise e : SessionM H W Unit) fun _ => [] := by
  refine (clearChannel_steady.beside e.carried).bind fun _ => ?_
  split
  · exact ((note_steady _ _).beside e.carried).bind fun _ =>
      (abandonAll_steady.beside e.carried).bind fun _ => .throw (.refl _)
  · intro s rest owned
    exact (unwind_owned e owned).mono (fun _ _ settled => settled) fun _ _ => .inr

theorem clearTask_steady :
    Steady (ledger keeps) [] (changeJob (fun j => { j with pending := none }) : SessionM H W Unit)
      fun _ => [] :=
  fun _ _ owned => ⟨owned.heap, owned.globals, fun _ waits => by cases waits⟩

theorem teardown_steady :
    Steady (ledger keeps) [] (teardown : SessionM H W Unit) fun _ => [] := by
  have rest : Steady (ledger keeps) [] (abandonAll >>= fun _ =>
      changeJob (fun j => { j with pending := none }) >>= fun _ => clearChannel :
        SessionM H W Unit) fun _ => [] :=
    abandonAll_steady.bind_steady fun _ => clearTask_steady.bind_steady fun _ => clearChannel_steady
  intro s out owned
  unfold teardown
  rw [Effect.ensures_bind, Effect.ensures_get]
  split
  · exact (note_steady _ _).bind_steady (fun _ => rest) s out owned
  · exact rest s out owned

/-! ### Calls -/

theorem gatherArgs_steady (unit : CodeUnit) (args : List Value) :
    Steady (ledger keeps) args (gatherArgs unit args : SessionM H W (List Value))
      fun args => args := by
  unfold gatherArgs
  split
  · intro s rest owned
    rw [Effect.ensures_bind]
    refine (Effect.ensures_onPart ..).mpr ((Effect.ensures_onPart ..).mpr ?_)
    have parts : s.machine.heap.Owned [] (args.drop unit.fixedParams ++ (s.held keeps ++
        (s.job.frames.flatMap Frame.held ++ (args.take unit.fixedParams ++ rest)))) := by
      refine owned.heap.recount fun x => ?_
      have split : tally x args = tally x (args.take unit.fixedParams) +
          tally x (args.drop unit.fixedParams) := by
        rw [← tally_append, List.take_append_drop]
      simp only [tally_append]
      omega
    refine (Heap.pack_owned _ parts).mono (fun v k packed => ?_) fun _ _ never => never
    refine Owned.changeHeap owned (packed.recount fun x => ?_)
    simp only [tally_append, tally_cons, tally_nil]
    omega
  · exact .pure _ args fun args => args

theorem bare_reset (f : Frame) (unit : CodeUnit) : Bare (f.reset unit).held := by
  intro x
  have locals : tally x (List.replicate unit.slots Value.null) = 0 :=
    tally_eq_zero fun v mem => by rw [(List.mem_replicate.mp mem).2, Value.owners_null]
  rw [Frame.tally_held]
  exact locals

theorem bindArgs_deals {f : Frame} (blank : Bare f.held) (args : List Value) (closure this : Value) :
    SameOwners (args ++ [closure, this])
      ((f.bindArgs args).1 ++ { (f.bindArgs args).2 with closure, this }.held) := by
  intro x
  have split : tally x args = tally x (args.take f.locals.length) +
      tally x (args.drop f.locals.length) := by
    rw [← tally_append, List.take_append_drop]
  have locals : tally x f.locals = tally x (f.locals.take args.length) +
      tally x (f.locals.drop args.length) := by
    rw [← tally_append, List.take_append_drop]
  have none := blank x
  simp only [Frame.bindArgs, tally_append, Frame.tally_held, Frame.pendingValues,
    Frame.returnedValues, Frame.thrownValues, tally_cons, tally_nil] at none ⊢
  omega

/-- A frame for a call holds the arguments, the callable and the receiver, and nothing else. -/
theorem newFrame_conserves (unit : CodeUnit) (args : List Value) (closure this : Value) :
    Conserves (ledger keeps) (args ++ [closure, this])
      (newFrame unit args closure this : SessionM H W Frame) Frame.held := by
  intro s rest owned
  refine newFrame_rule (fun panic _ => .inr ?_) fun _ drawn frames _ => ?_
  · have nothing : (Error.ofPanic panic).carried = [] := rfl
    rw [nothing]
    refine Owned.dispose (owned.recount fun x => ?_)
    simp only [List.nil_append, tally_append]
    omega
  have pooled := owned.changeHeap (owned.heap.withPools { s.machine.heap.pools with frames }
      ⟨owned.heap.clean.structures, owned.heap.clean.values⟩)
  refine Owned.dispose (pooled.recount fun x => ?_)
  have deals := bindArgs_deals (bare_reset drawn unit) args closure this x
  simp only [tally_append] at deals ⊢
  omega

theorem bind_deals (f : Frame) (x : Handle) :
    SameOwners ((Object.iterator (.ofFrame f) : Object H).held ++ [])
      ((Object.iterator ((Iterator.ofFrame f).bind x) : Object H).held ++ []) := .refl _

/-- A frame goes onto the stack, or into an iterator that owns what the frame holds. -/
theorem activate_steady (unit : CodeUnit) (f : Frame) :
    Steady (ledger keeps) f.held (activate unit f : SessionM H W Unit) fun _ => [] := by
  intro s rest owned
  refine activate_rule owned.heap.accounted (fun _ => ?_) fun _ x answer _ found => ?_
  · refine Owned.setFrames (Owned.recount (owned.note _ _) fun x => ?_) (f :: s.job.frames)
    simp only [List.flatMap_cons, tally_append, tally_nil]
    omega
  · have counted : s.machine.heap.Owned [] ((Object.iterator (.ofFrame f) : Object H).held ++
        (s.held keeps ++ (s.job.frames.flatMap Frame.held ++ rest))) := owned.heap.recount fun x => by
      simp only [Heap.held_iterator, Iterator.ofFrame, Heap.sourceHeld, tally_append, tally_cons,
        tally_nil, Value.owners_null]
      omega
    have made := counted.alloc trivial
    rw [answer] at made
    have placed : Owned keeps
        ([] ++ .owned ⟨.iterator, x⟩ :: (s.job.frames.flatMap Frame.held ++ rest))
        { s with machine := { s.machine.note .engine .trace with
          heap := (s.machine.heap.alloc (.iterator (.ofFrame f))).2 } } :=
      (owned.note _ _).changeHeap (made.recount fun y => by
        simp only [held, Machine.note, List.nil_append, tally_cons, tally_append]
        omega)
    refine (deliver_steady [.owned ⟨.iterator, x⟩]) _ rest ?_
    refine (placed.setIterator ((found x).trans (if_pos rfl)) (bind_deals f x)).recount fun y => ?_
    simp only [tally_append, tally_cons, tally_nil]
    omega

theorem enter_conserves (unit : CodeUnit) (closure this : Value) :
    Conserves (ledger keeps) [closure, this] (enter unit closure this : SessionM H W Unit)
      fun _ => [] := by
  refine .get_bind fun s => ?_
  split
  · exact refuse_conserves [closure, this] rfl s
  · refine ((drainChannel_steady.beside [closure, this]).bind fun args => ?_) s
    split
    · exact refuse_conserves (args ++ [closure, this]) rfl
    · exact (((gatherArgs_steady unit args).onFailure _).beside [closure, this]).bind fun args =>
        (newFrame_conserves unit args closure this).bind fun f => (activate_steady unit f).conserves

theorem takeReply_owned {reply : HostReply} {call : HostCall H} {world : W} {rest : List Value}
    (heap : call.heap.Owned [] (call.held ++ reply.carried ++ keeps world ++
      (s.machine.globals.values ++ (s.job.frames.flatMap Frame.held ++ rest))))
    (globals : SortedMap.Ascending s.machine.globals.entries.entries)
    (waits : ∀ t, s.job.pending = some t → t.Bare) (task : ∀ t, reply = .task t → t.Bare) :
    (takeReply (reply, call, world)).Ensures s (fun _ t => (ledger keeps).Settled rest t)
      (fun e t => False ∨ (ledger keeps).Settled (e.carried ++ rest) t) := by
  have finished : call.finish.Owned [] (call.returned ++ s.machine.globals.values ++ keeps world ++
      (s.job.frames.flatMap Frame.held ++ (reply.carried ++ rest))) := by
    refine Heap.Owned.dispose (Heap.Owned.disposeAll (heap.recount fun x => ?_))
    simp only [HostCall.held, tally_append, tally_cons, tally_nil]
    omega
  have taken : (ledger keeps).Settled (reply.carried ++ rest)
      { machine := { s.machine with heap := call.finish, world }
        job := { s.job with channel := call.returned } } := ⟨finished, globals, waits⟩
  unfold takeReply
  rw [Effect.ensures_bind, Effect.ensures_modify]
  cases reply with
  | finished => exact (drainChannel_steady.bind_steady deliver_steady).conserves _ rest taken
  | failed e => exact .inr taken
  | task t =>
    refine ⟨taken.heap, taken.globals, fun t' waits => ?_⟩
    cases waits
    exact task t rfl

section
variable {Q : CodeUnit → Prop} {host : Host H W}

theorem callHost_conserves (linear : host.Linear Q keeps) (path : String) (function : H)
    (this : Value) :
    Conserves (ledger keeps) [this] (callHost host path function this) fun _ => [] := by
  intro s rest owned
  simp only [callHost, Effect.ensures_bind, ensures_drainChannel, Effect.ensures_get]
  refine takeReply_owned ((linear.call ..).owned (owned.heap.recount fun x => ?_)) owned.globals
    owned.task (linear.task function _ _)
  simp only [held, HostCall.held, tally_append, tally_cons, tally_nil]
  omega

theorem invokeValue_conserves (linear : host.Linear Q keeps) (callee this : Value) :
    Conserves (ledger keeps) [callee, this] (invokeValue host callee this) fun _ => [] := by
  refine .get_bind fun s => ?_
  cases found : s.machine.heap.callableOf callee with
  | error e => exact refuse_conserves [callee, this] (Heap.light_callableOf callee e found) s
  | ok callable =>
    cases callable with
    | script unit captures => exact enter_conserves unit callee this s
    | host path function =>
      exact (((dispose_steady [callee]).beside [this]).bind fun _ =>
        callHost_conserves linear path function this) s

theorem invoke_conserves (linear : host.Linear Q keeps) (target : CallTarget) (this : Value) :
    Conserves (ledger keeps) (Flow.call target this).held (invoke host target this)
      fun _ => [] := by
  cases target with
  | value callee => exact invokeValue_conserves linear callee this
  | path path =>
    have chosen : ∀ callee : Value, Bare [callee] → Conserves (ledger keeps) [this]
        (if callee.isNull then dispose [this] >>= fun _ => throw (notCallable path)
          else invokeValue host callee this) fun _ => [] := by
      intro callee bare
      split
      · exact refuse_conserves [this] rfl
      · refine (invokeValue_conserves linear callee this).recount (fun x => ?_) fun _ => .refl _
        have none := bare x
        simp only [tally_cons, tally_nil] at none ⊢
        omega
    exact .get_bind fun s => chosen _ (fun x => by simp [Globals.owners_load]) s
  | unit name =>
    refine .get_bind fun s => ?_
    cases found : SortedMap.get? s.machine.units name with
    | none => exact refuse_conserves [this] rfl s
    | some unit =>
      exact (enter_conserves unit .null this).recount (fun x => by simp [Flow.held])
        (fun _ => .refl _) s

end

/-! ### Returns and generators -/

theorem top_owned {rest : List Value} (owned : (ledger keeps).Settled ([] ++ rest) s)
    (frames : s.job.frames = f :: fs) : s.Owned keeps (f.held ++ (fs.flatMap Frame.held ++ rest)) := by
  refine Owned.recount owned fun x => ?_
  simp only [frames, List.flatMap_cons, List.nil_append, List.append_assoc]

theorem tally_pendingReturn (f : Frame) (pending : PendingReturn) (cursor : Nat) (x : Handle) :
    tally x { f with pendingReturn := some pending, cursor }.held + tally x f.returnedValues =
      tally x f.held + tally x { f with pendingReturn := some pending, cursor }.returnedValues := by
  simp only [Frame.tally_held, Frame.pendingValues, Frame.thrownValues, tally_append]
  omega

theorem holdExit_conserves (entry : Nat) (exit : Exit) (frames : s.job.frames = f :: fs) :
    ConservesAt (ledger keeps) [] (holdExit f fs entry exit) (fun _ => []) s := by
  intro rest owned
  have counted := top_owned owned frames
  cases exit with
  | values =>
    have waiting := counted.drain.setFrames ({ f with
      pendingReturn := some (.values s.job.channel), cursor := entry } :: fs)
    refine Owned.dispose (waiting.recount fun x => ?_)
    have held := tally_pendingReturn f (.values s.job.channel) entry x
    simp only [List.flatMap_cons, tally_append, Frame.returnedValues, tally_nil] at held ⊢
    omega
  | locals mask =>
    have waiting := counted.setFrames ({ f with
      pendingReturn := some (.locals mask), cursor := entry } :: fs)
    refine Owned.dispose (waiting.recount fun x => ?_)
    have held := tally_pendingReturn f (.locals mask) entry x
    simp only [List.flatMap_cons, tally_append, Frame.returnedValues, tally_nil] at held ⊢
    omega

theorem handOver_steady (f : Frame) (returned : List Value) :
    Steady (ledger keeps) returned (handOver f returned : SessionM H W Unit) fun _ => [] := by
  unfold handOver
  cases f.generator with
  | none => exact deliver_steady returned
  | some x =>
    refine (dispose_steady returned).bind_steady fun _ => ?_
    have exhausted : Steady (ledger keeps) []
        (changeHeap (·.exhaust x) : SessionM H W Unit) fun _ => [] :=
      fun _ _ owned => owned.changeHeap (owned.heap.exhaust x)
    refine exhausted.bind_steady fun _ => changeTop_steady fun g => ?_
    cases g.onExhaust <;> rfl

theorem leave_conserves (exit : Exit) :
    Conserves (ledger keeps) [] (leave exit : SessionM H W Unit) fun _ => [] := by
  refine .get_bind fun s => ?_
  cases frames : s.job.frames with
  | nil => exact fun _ owned => .inr owned
  | cons f fs =>
    simp only
    cases diverted : f.diversion with
    | some entry => exact holdExit_conserves entry exit frames
    | none =>
      intro rest owned
      have popped := (top_owned owned frames).setFrames fs
      simp only [Effect.ensures_bind, ensures_changeJob]
      cases exit with
      | values =>
        simp only [Effect.ensures_bind, ensures_drainChannel, ensures_retire, Effect.ensures_pure]
        have drained : Owned keeps (f.held ++ (s.job.channel ++ (fs.flatMap Frame.held ++ rest)))
            { s with job := { s.job with frames := fs, channel := [] } } :=
          popped.drain.recount fun x => by simp only [tally_append]; omega
        have retired := drained.retire 0
        rw [Heap.retire_zero, List.nil_append] at retired
        refine (handOver_steady f s.job.channel).conserves _ rest (retired.recount fun x => ?_)
        simp only [tally_append]
        omega
      | locals mask =>
        simp only [Effect.ensures_bind, ensures_retire]
        refine (handOver_steady f _).conserves _ rest ((popped.retire mask).recount fun x => ?_)
        simp only [tally_append]
        omega

def Awaited (s : Session H W) : Prop :=
  ∀ f ∈ s.job.frames.head?, ∀ x it, f.generator = some x → s.machine.heap.iteratorAt x = .ok it →
    it.isGenerator = true ∧ it.parked = none

theorem park_deals {it : Iterator} (generates : it.isGenerator = true) (away : it.parked = none)
    (f : Frame) (values : List Value) :
    SameOwners ((Object.iterator it : Object H).held ++ (f.held ++ values))
      ((Object.iterator (it.park f values).2 : Object H).held ++ (it.park f values).1) := by
  intro x
  obtain ⟨state, source, key, current, yields⟩ := it
  cases source with
  | walk => cases generates
  | generator frame =>
    cases away
    simp only [Heap.held_iterator, Iterator.park, Iterator.publish, Heap.sourceHeld, tally_append,
      tally_cons, tally_nil, Value.owners_scalar]
    omega

theorem resume_deals {it it' : Iterator} (resumed : it.resume = (some f, it')) :
    SameOwners ((Object.iterator it : Object H).held ++ [])
      ((Object.iterator it' : Object H).held ++ f.held) := by
  intro x
  obtain ⟨state, source, key, current, yields⟩ := it
  cases source with
  | walk => cases resumed
  | generator away =>
    cases away <;> cases state <;> cases resumed <;>
      simp only [Heap.held_iterator, Heap.sourceHeld, tally_append, tally_nil] <;> omega

theorem suspend_conserves (awaited : s.Awaited) :
    ConservesAt (ledger keeps) [] (suspend : SessionM H W Unit) (fun _ => []) s := by
  intro rest owned
  unfold suspend
  rw [Effect.ensures_bind, Effect.ensures_get]
  cases frames : s.job.frames with
  | nil => exact owned
  | cons f fs =>
    simp only
    cases belongs : f.generator with
    | none => exact .inr owned
    | some x =>
      have drained : Owned keeps (f.held ++ s.job.channel ++ (fs.flatMap Frame.held ++ rest))
          { s with job := { s.job with frames := fs, channel := [] } } :=
        ((top_owned owned frames).setFrames fs).drain.recount fun x => by
          simp only [tally_append]
          omega
      simp only [Effect.ensures_bind, ensures_changeJob, ensures_drainChannel, Effect.ensures_get]
      cases found : s.machine.heap.iteratorAt x with
      | ok it =>
        obtain ⟨generates, away⟩ := awaited f (by rw [frames]; rfl) x it belongs found
        simp only [Effect.ensures_bind, ensures_changeHeap, ensures_dispose]
        have parked := drained.setIterator (Heap.iteratorAt_eq_ok found)
          (park_deals generates away f s.job.channel)
        have unmarked : Steady (ledger keeps) [] (changeJob fun j => j.changeTop fun caller =>
            { caller with onExhaust := none } : SessionM H W Unit) fun _ => [] :=
          changeTop_steady fun _ => rfl
        exact unmarked.conserves _ rest parked.dispose
      | error e =>
        simp only [Effect.ensures_bind, ensures_dispose, ensures_retire, Effect.ensures_throw]
        have left : Owned keeps (s.job.channel ++ (f.held ++ (fs.flatMap Frame.held ++ rest)))
            { s with job := { s.job with frames := fs, channel := [] } } :=
          drained.recount fun x => by simp only [tally_append]; omega
        have retired := left.dispose.retire 0
        rw [Heap.retire_zero, List.nil_append] at retired
        refine .inr ?_
        rw [Heap.light_iteratorAt x e found, List.nil_append]
        exact retired

theorem advance_conserves (x : Handle) (exhausted : Nat) :
    Conserves (ledger keeps) [] (advance x exhausted : SessionM H W Unit) fun _ => [] := by
  intro s rest owned
  unfold advance
  rw [Effect.ensures_bind, Effect.ensures_get]
  split
  · exact .inr owned
  simp only [Effect.ensures_bind, Effect.ensures_liftM]
  cases found : s.machine.heap.iteratorAt x with
  | error e => exact .inr (by rwa [Heap.light_iteratorAt x e found])
  | ok it =>
    simp only
    split
    · exact .inr owned
    cases resumed : it.resume with
    | mk away it' =>
      cases away with
      | none =>
        have marked : Steady (ledger keeps) [] (changeJob fun j => j.changeTop fun caller =>
            { caller with cursor := exhausted } : SessionM H W Unit) fun _ => [] :=
          changeTop_steady fun _ => rfl
        exact marked.conserves s rest owned
      | some f =>
        simp only [Effect.ensures_bind, ensures_changeHeap, ensures_changeJob]
        have counted : s.Owned keeps ([] ++ (s.job.frames.flatMap Frame.held ++ rest)) := owned
        have handed := counted.setIterator (Heap.iteratorAt_eq_ok found) (resume_deals resumed)
        have marked : Steady (ledger keeps) [] (changeJob fun j => j.changeTop fun caller =>
            { caller with onExhaust := some exhausted } : SessionM H W Unit) fun _ => [] :=
          changeTop_steady fun _ => rfl
        have below := (ensures_changeJob ..).mp (marked { s with machine := { s.machine with
          heap := s.machine.heap.setObject x (.iterator it') } } (f.held ++ rest)
            (handed.recount fun y => by simp only [tally_append, tally_nil]; omega))
        refine (Owned.setFrames below (f :: _)).recount fun y => ?_
        simp only [List.flatMap_cons, tally_append, tally_nil]
        omega

/-! ### Steps and runs -/

section
variable {Q : CodeUnit → Prop} {host : Host H W} {others : List Frame}

theorem follow_conserves (linear : host.Linear Q keeps) (flow : Flow)
    (awaited : flow = .yield → s.Awaited) :
    ConservesAt (ledger keeps) flow.held (follow host flow) (fun _ => []) s := by
  cases flow with
  | next => exact fun _ owned => owned
  | jump target =>
    have moved : Steady (ledger keeps) [] (changeJob fun j => j.changeTop fun f =>
        { f with cursor := target } : SessionM H W Unit) fun _ => [] := changeTop_steady fun _ => rfl
    exact moved.conserves s
  | call target this => exact invoke_conserves linear target this s
  | ret => exact leave_conserves .values s
  | returnLocals mask => exact leave_conserves (.locals mask) s
  | yield => exact suspend_conserves (awaited rfl)
  | finalize => exact (clearChannel_steady.bind fun _ => leave_conserves .values) s
  | advance x exhausted => exact advance_conserves x exhausted s

theorem apply_conserves (linear : host.Linear Q keeps) (flow : Flow) (next : Nat)
    (loaded : s.job.frames ≠ []) (awaited : flow = .yield → s.Awaited) :
    ConservesAt (ledger keeps) flow.held (apply host flow next) (fun _ => []) s := by
  intro rest owned
  unfold apply
  rw [Effect.ensures_bind, Effect.ensures_get]
  split
  · rename_i empty
    exact absurd (List.isEmpty_iff.mp empty) loaded
  · have placed : Steady (ledger keeps) [] (changeJob fun j => j.changeTop fun f =>
        { f with cursor := next } : SessionM H W Unit) fun _ => [] := changeTop_steady fun _ => rfl
    simp only [Effect.ensures_bind, ensures_changeJob]
    refine follow_conserves linear flow (fun yields => ?_) rest (placed s (flow.held ++ rest) owned)
    have awaited := awaited yields
    obtain ⟨machine, frames, channel, pending⟩ := s
    cases frames with
    | nil => exact absurd rfl loaded
    | cons f fs =>
      intro g top x it belongs found
      cases top
      exact awaited f rfl x it belongs found

structure Ready (others : List Frame) (s : Session H W) : Prop where
  coded : s.machine.heap.Coded CodeUnit.Compiled s.job.frames
  protocol : s.machine.heap.Protocol (s.job.frames ++ others)
  units : s.machine.units.Codes CodeUnit.Compiled

theorem awaited_of_protocol (protocol : s.machine.heap.Protocol (s.job.frames ++ others)) :
    s.Awaited := by
  intro f top x it belongs found
  cases frames : s.job.frames with
  | nil =>
    rw [frames] at top
    cases top
  | cons g fs =>
    rw [frames] at top protocol
    cases top
    obtain ⟨generates, -, away, -⟩ := protocol.running belongs (Heap.iteratorAt_eq_ok found)
    exact ⟨generates, away⟩

def Underflows (s : Session H W) : Prop :=
  ∃ f fs unit step e c, s.job.frames = f :: fs ∧ f.unit = some unit ∧
    unit.stepAt? f.cursor = some step ∧ ¬ step.action.Rethrows ∧ Error.Underflow e ∧
    Exec.action s.machine.units step.action (context f s) = .error e c

theorem not_underflows {unit : CodeUnit} {step : Step} {flow : Flow} {c : Context H}
    (frames : s.job.frames = f :: fs) (runs : f.unit = some unit)
    (found : unit.stepAt? f.cursor = some step)
    (ran : Exec.action s.machine.units step.action (context f s) = .ok flow c) : ¬ s.Underflows := by
  rintro ⟨g, gs, unit', step', e, c', frames', runs', found', -, -, failed⟩
  rw [frames] at frames'
  cases frames'
  rw [runs] at runs'
  cases runs'
  rw [found] at found'
  cases found'
  rw [ran] at failed
  cases failed

/-- An instruction sees all that the session holds but for the frames below and the outer world. -/
theorem context_owned {rest : List Value} (owned : (ledger keeps).Settled ([] ++ rest) s)
    (frames : s.job.frames = f :: fs) :
    (context f s).Owned ([] ++ (keeps s.machine.world ++ (fs.flatMap Frame.held ++ rest))) := by
  refine ⟨(top_owned owned frames).heap.recount fun x => ?_, owned.globals⟩
  simp only [held, context, Context.held, List.nil_append, tally_append]
  omega

theorem withContext_settled {c : Context H} {vs rest : List Value}
    (owned : c.Owned (vs ++ (keeps s.machine.world ++ (fs.flatMap Frame.held ++ rest))))
    (frames : s.job.frames = f :: fs) (task : ∀ t, s.job.pending = some t → t.Bare) :
    (ledger keeps).Settled (vs ++ rest) (withContext c s) := by
  obtain ⟨machine, js, channel, pending⟩ := s
  cases frames
  refine ⟨owned.heap.recount fun x => ?_, owned.globals, task⟩
  simp only [held, withContext, Job.changeTop, Context.held, List.flatMap_cons, tally_append]
  omega

/-- Instructions leave generators alone, so the iterator of the running frame still waits for it. -/
theorem awaited_withContext {c : Context H} (ready : s.Ready others)
    (calm : c.Calm CodeUnit.Compiled s.machine.heap f) (frames : s.job.frames = f :: fs) :
    (withContext c s).Awaited := by
  have protocol : c.heap.Protocol (c.frame :: fs ++ others) :=
    (ready.protocol.grows calm.heap).of_generators (by simp [frames, calm.generator])
  obtain ⟨machine, js, channel, pending⟩ := s
  cases frames
  exact awaited_of_protocol protocol

theorem executeStep_conserves (linear : host.Linear Q keeps) (ready : s.Ready others)
    (frames : s.job.frames = f :: fs) (enough : ¬ s.Underflows) :
    ConservesAt (ledger keeps) [] (executeStep host f) (fun _ => []) s := by
  intro rest owned
  unfold executeStep
  cases runs : f.unit with
  | none => exact .inr owned
  | some unit =>
    simp only
    cases found : unit.stepAt? f.cursor with
    | none =>
      simp only
      split
      · exact apply_conserves linear .ret f.cursor (by simp [frames]) (fun never => by cases never)
          rest owned
      · exact .inr owned
    | some step =>
      simp only [Effect.ensures_bind, Effect.ensures_get, Effect.ensures_onPart]
      have compiled : unit.Compiled := ready.coded.frames f (by simp [frames]) unit runs
      obtain ⟨fusion, compiled⟩ := compiled
      obtain ⟨targets, laid⟩ := CodeUnit.laid_of_compile compiled
      have acts := Exec.action_conserves s.machine.units (laid.folds (laid.mem_of_stepAt? found).1)
        (context f s) _ (context_owned owned frames)
      have calm := Exec.action_keeps (h := s.machine.heap) (f := f) ready.units step.action
        (context f s) ⟨ready.coded.here, rfl, rfl⟩
      cases ran : Exec.action s.machine.units step.action (context f s) with
      | error e c =>
        rw [Effect.ensures_of_eq_error ran] at acts ⊢
        rcases acts with ⟨underflow, own⟩ | acts
        · exact absurd ⟨f, fs, unit, step, e, c, frames, runs, found, own, underflow, ran⟩ enough
        · exact .inr (withContext_settled acts frames owned.task)
      | ok flow c =>
        rw [Effect.ensures_of_eq_ok ran] at acts calm ⊢
        exact apply_conserves linear flow _ (by simp [withContext, Job.changeTop, frames])
          (fun _ => awaited_withContext ready calm frames) rest
          (withContext_settled acts frames owned.task)

theorem routing_conserves {op : SessionM H W Unit} {takes : List Value}
    (conserves : ConservesAt (ledger keeps) takes op (fun _ => []) s) :
    ConservesAt (ledger keeps) takes (routing op) (fun _ => []) s := by
  intro rest owned
  rw [ensures_routing]
  exact (conserves rest owned).mono (fun _ _ settled => settled) fun e t failed =>
    raise_conserves e t rest (failed.resolve_left id)

theorem settle_conserves {task : HostTask} (bare : task.Bare) :
    Conserves (ledger keeps) [] (settle task : SessionM H W Unit) fun _ => [] := by
  refine clearTask_steady.bind fun _ => ?_
  unfold HostTask.Bare at bare
  cases result : task.result with
  | ok values =>
    rw [result] at bare
    refine drainChannel_steady.bind fun sent => (deliver_steady _).conserves.recount (fun x => ?_)
      fun _ => .refl _
    have none := bare x
    simp only [Effect.handed, tally_append, tally_nil] at none ⊢
    omega
  | error e =>
    rw [result] at bare
    exact (raise_conserves e).recount bare.symm fun _ => .refl _

def tickValues : Tick → List Value
  | .ended outcome => outcome.values
  | .running _ => []

/-- A tick that does not run out of operands gives back what it takes: nothing, but for the values
of a job that is over. -/
theorem tick_conserves (linear : host.Linear Q keeps) (ready : s.Ready others) (mode : Mode)
    (budget : Budget)
    (enough : s.job.pending = none → budget ≠ some 0 → ¬ s.Underflows) :
    ConservesAt (ledger keeps) [] (tick host mode budget) tickValues s := by
  intro rest owned
  refine tick_rule (fun task n waits _ _ => ?_) (fun task waits _ => ?_) (fun _ _ => ?_)
    (fun _ _ => ?_) fun f below idle frames unspent => ?_
  · refine ⟨owned.heap, owned.globals, fun t same => ?_⟩
    cases same
    exact owned.task task waits
  · exact settle_conserves (owned.task task waits) s rest owned
  · exact drainChannel_steady s rest owned
  · cases mode <;> exact owned
  · exact routing_conserves (executeStep_conserves linear ready frames (enough idle unspent)) rest
      owned

theorem uncaught_owned {h : Heap H} {e : Error} (owned : h.Owned [] (e.carried ++ out)) :
    (h.uncaught e).2.Owned [] out ∧ (h.uncaught e).1.carried = [] := by
  unfold Heap.uncaught
  unfold Error.carried Error.thrown? at owned
  cases cause : e.cause with
  | fault f =>
    cases f with
    | thrown v =>
      simp only [cause] at owned ⊢
      exact ⟨owned.dispose, rfl⟩
    | _ =>
      simp only [cause] at owned ⊢
      exact ⟨owned, rfl⟩
  | _ =>
    simp only [cause] at owned ⊢
    exact ⟨owned, by simp [Error.carried, Error.thrown?, cause]⟩

theorem conclude_conserves (linear : host.Linear Q keeps) (outcome : Except Error Outcome) :
    Conserves (ledger keeps) (Effect.handed Outcome.values outcome) (conclude host outcome)
      Outcome.values := by
  cases outcome with
  | ok outcome =>
    cases outcome with
    | completed values =>
      exact ((note_steady .engine .debug).beside values).bind fun _ => .pure (.refl _)
    | _ => exact .pure (.refl _)
  | error e =>
    refine (teardown_steady.beside e.carried).bind fun _ => .get_bind fun s rest owned => ?_
    simp only [Effect.ensures_bind, ensures_changeHeap, ensures_note, Effect.ensures_get]
    have counted : s.machine.heap.Owned [] (e.carried ++ (s.held keeps ++
        (s.job.frames.flatMap Frame.held ++ rest))) := owned.heap.recount fun x => by
      simp only [List.nil_append, tally_append]
      omega
    obtain ⟨told, light⟩ := uncaught_owned counted
    have noted := (Owned.changeHeap owned told).note .engine .warn
    split
    · refine ⟨noted.heap.recount fun x => ?_, noted.globals, noted.task⟩
      have same := linear.report (s.machine.heap.uncaught e).1 s.machine.world x
      simp only [held, Machine.note, Outcome.values, tally_append, tally_nil] at same ⊢
      omega
    · refine .inr ?_
      rw [light]
      exact noted

theorem start_conserves {call : SessionM H W Unit} {takes : List Value}
    (conserves : Conserves (ledger keeps) takes call fun _ => []) (args : List Value) :
    Conserves (ledger keeps) (args ++ takes) (start args call) fun _ => [] := by
  have sent : Steady (ledger keeps) (args ++ takes)
      (changeJob fun j => { j with channel := j.channel ++ args } : SessionM H W Unit)
        fun _ => takes := by
    refine fun s rest owned => ⟨owned.heap.recount fun x => ?_, owned.globals, owned.task⟩
    simp only [held, tally_append]
    omega
  have letGo : ∀ rest (s : Session H W), (ledger keeps).Settled ([] ++ rest) s →
      (ledger keeps).Settled rest (clearChannel.outcome s).2 := fun _ _ owned => owned.drain.dispose
  exact sent.bind fun _ => conserves.onFailure letGo

theorem startValue_conserves (linear : host.Linear Q keeps) (callee : Value) (args : List Value) :
    Conserves (ledger keeps) (args ++ [callee]) (startValue host callee args) fun _ => [] :=
  (start_conserves (invoke_conserves linear (.value callee) .null) args).recount
    (fun x => by simp [Flow.held]) fun _ => .refl _

theorem startUnit_conserves (unit : CodeUnit) (args : List Value) :
    Conserves (ledger keeps) args (startUnit unit args : SessionM H W Unit) fun _ => [] :=
  (start_conserves (enter_conserves unit .null .null) args).recount (fun x => by simp)
    fun _ => .refl _

theorem startPath_conserves (linear : host.Linear Q keeps) (path : String) (args : List Value) :
    Conserves (ledger keeps) args (startPath host path args) fun _ => [] := by
  have started : ∀ target : CallTarget, (∀ v, target ≠ .value v) →
      Conserves (ledger keeps) args (start args (invoke host target .null)) fun _ => [] := by
    intro target plain
    refine (start_conserves (invoke_conserves linear target .null) args).recount (fun x => ?_)
      fun _ => .refl _
    cases target with
    | value v => exact (plain v rfl).elim
    | _ => simp [Flow.held]
  refine .get_bind fun s => ?_
  simp only
  split
  · exact started _ (fun _ => by simp) s
  split
  · exact started _ (fun _ => by simp) s
  · exact refuse_conserves args rfl s

end

end Session

end ScriptMachine
