import ScriptMachine.Machine.Run
import ScriptMachine.Proofs.Exec.Recompiled

/-!
# Transfers of control do not look at the steps of code

`Session.recompiled` compiles all code of a session again. Every transfer of control, every routing
of an error and every start of a job does on the recompiled session what it does on the session
itself, and keeps sessions sound, provided that host functions do not tell compiled forms apart.
-/

set_option autoImplicit false

namespace ScriptMachine

variable {H W : Type}

def Machine.recompiled (fusion : Bool) (m : Machine H W) : Machine H W :=
  { m with
    heap := m.heap.recompiled fusion
    units := m.units.recompiled fusion
    config := { m.config with fusion } }

def Job.recompiled (fusion : Bool) (j : Job) : Job :=
  { j with frames := j.frames.map (Frame.recompiled fusion) }

def Session.recompiled (fusion : Bool) (s : Session H W) : Session H W :=
  ⟨s.machine.recompiled fusion, s.job.recompiled fusion⟩

def HostCall.recompiled (fusion : Bool) (c : HostCall H) : HostCall H :=
  { c with heap := c.heap.recompiled fusion }

/-- Heap, units and frames of a session have code that can run. -/
structure Session.Sound (s : Session H W) : Prop where
  heap : s.machine.heap.Sound
  units : s.machine.units.Sound
  frames : ∀ f ∈ s.job.frames, f.Sound

/-- Host functions do not tell compiled forms of the same code apart, and leave sound heaps sound.
-/
structure Host.Opaque (host : Host H W) : Prop where
  blind : ∀ fusion function c w, c.heap.Sound →
    host.call function (c.recompiled fusion) w =
      ((host.call function c w).1, (host.call function c w).2.1.recompiled fusion,
        (host.call function c w).2.2)
  keeps : ∀ function c w, c.heap.Sound → (host.call function c w).2.1.heap.Sound

namespace Frame

variable (fusion : Bool) (f : Frame)

@[simp] theorem recompiled_malformed (reason : String) :
    (f.recompiled fusion).malformed reason = f.malformed reason :=
  recompiledAt_malformed fusion f.cursor f reason

@[simp] theorem recompiled_diversion : (f.recompiled fusion).diversion = f.diversion := by
  obtain ⟨unit, locals, stack, shadows, cursor, trap, defers, pendingReturn, pendingError, this,
    closure, generator, onExhaust, capacity⟩ := f
  cases unit <;> simp [recompiled, diversion, hasArmedDefers, deferEntry]

theorem recompiled_reset (u : CodeUnit) :
    f.reset (u.recompiled fusion) = (f.reset u).recompiled fusion := by
  simp [reset, recompiled]

theorem recompiled_bindArgs (args : List Value) :
    (f.recompiled fusion).bindArgs args =
      ((f.bindArgs args).1, (f.bindArgs args).2.recompiled fusion) := by
  rw [bindArgs]
  rfl

theorem Sound.edit {f g : Frame} (sound : f.Sound) (edit : f.Edited g) : g.Sound := by
  obtain ⟨u, runs⟩ := sound
  exact ⟨u, runs.edit edit⟩

theorem Sound.bound {f : Frame} (sound : f.Sound) (x : Handle) :
    { f with generator := some x }.Sound := by
  obtain ⟨u, runs⟩ := sound
  exact ⟨u, runs.unit, runs.compiled, runs.slots, runs.cursor, runs.trap, runs.onExhaust⟩

/-- Deferred blocks start at a boundary. -/
theorem Runs.boundary_diversion {u : CodeUnit} {f : Frame} (runs : f.Runs u) {entry : Nat}
    (diverted : f.diversion = some entry) : u.Boundary entry := by
  obtain ⟨fusion, compiled⟩ := runs.compiled
  obtain ⟨targets, laid⟩ := CodeUnit.laid_of_compile compiled
  unfold diversion deferEntry at diverted
  rw [runs.unit] at diverted
  split at diverted
  · exact laid.boundary_deferEntry diverted
  · cases diverted

/-- A frame that is prepared for a call can run. -/
theorem sound_reset {u : CodeUnit} (compiled : u.Compiled) (args : List Value)
    (closure this : Value) :
    { ((f.reset u).bindArgs args).2 with closure, this }.Sound := by
  obtain ⟨fusion, compile⟩ := compiled
  obtain ⟨targets, laid⟩ := CodeUnit.laid_of_compile compile
  refine ⟨u, rfl, ⟨fusion, compile⟩, ?_, laid.boundary_zero, fun _ trap => (by cases trap),
    fun _ exhausted => (by cases exhausted)⟩
  simp only [reset, bindArgs, List.length_append, List.length_take, List.length_drop,
    List.length_replicate]
  omega

end Frame

namespace Iterator

variable (fusion : Bool) (it : Iterator)

theorem recompiled_park (frame : Frame) (values : List Value) :
    (it.recompiled fusion).park (frame.recompiled fusion) values =
      ((it.park frame values).1, (it.park frame values).2.recompiled fusion) := by
  obtain ⟨state, source, key, current, yields⟩ := it
  cases source <;> rfl

theorem recompiled_resume :
    (it.recompiled fusion).resume =
      (it.resume.1.map (Frame.recompiled fusion), it.resume.2.recompiled fusion) := by
  obtain ⟨state, source, key, current, yields⟩ := it
  cases source with
  | walk => rfl
  | generator frame => cases frame <;> cases state <;> rfl

theorem sound_park {frame : Frame} (sound : frame.Sound) (values : List Value) :
    ∀ f, (it.park frame values).2.parked = some f → f.Sound := by
  intro f parked
  obtain ⟨state, source, key, current, yields⟩ := it
  cases source with
  | walk => cases parked
  | generator => exact Option.some.inj parked ▸ sound

theorem resume_parked {it it' : Iterator} {frame : Frame} (resumed : it.resume = (some frame, it')) :
    it.parked = some frame ∧ it'.parked = none := by
  obtain ⟨state, source, key, current, yields⟩ := it
  cases source with
  | walk => cases resumed
  | generator away => cases away <;> cases state <;> cases resumed <;> exact ⟨rfl, rfl⟩

end Iterator

namespace Session

section
variable {α β : Type} (fusion : Bool)

def Alike (op op' : SessionM H W α) : Prop :=
  ∀ s, Session.Sound s → op.Mirrors (Session.recompiled fusion) Session.Sound op' s

end

section
variable {α β : Type} {fusion : Bool}

theorem Alike.bind {op op' : SessionM H W α} {next next' : α → SessionM H W β}
    (first : Alike fusion op op') (second : ∀ a, Alike fusion (next a) (next' a)) :
    Alike fusion (op >>= next) (op' >>= next') :=
  fun s sound => .bind (first s sound) fun a t sound => second a t sound

theorem alike_pure (a : α) : Alike (H := H) (W := W) fusion (pure a) (pure a) :=
  fun _ sound => .of_pure sound a

theorem alike_throw (e : Error) : Alike (H := H) (W := W) (α := α) fusion (throw e) (throw e) :=
  fun _ sound => .of_throw sound e

/-- What comes after a failure does not matter. -/
theorem alike_throw_bind (e : Error) (next next' : α → SessionM H W β) :
    Alike fusion (throw e >>= next) (throw e >>= next') :=
  fun _ sound => .of_throw sound e

theorem alike_modify {f : Session H W → Session H W}
    (commutes : ∀ s, f (s.recompiled fusion) = (f s).recompiled fusion)
    (keeps : ∀ s : Session H W, s.Sound → (f s).Sound) : Alike fusion (modify f) (modify f) :=
  fun s sound => .of_modify (commutes s) (keeps s sound)

theorem alike_heap {op : HeapM H α} (alike : Heap.Alike fusion op op)
    (keeps : ∀ base, op.Keeps (Heap.Later (fun _ o => o.Sound) [] base)) :
    Alike fusion (liftM op : SessionM H W α) (liftM op) := by
  intro s sound
  have onHeap := (alike s.machine.heap).strengthen
    (Heap.keeps_sound keeps s.machine.heap sound.heap)
  have onMachine : Effect.Mirrors (Machine.recompiled fusion)
      (fun m => m.heap.Sound ∧ m.units.Sound) (liftM op : MachineM H W α) (liftM op) s.machine :=
    .onPart onHeap rfl fun heap soundHeap => ⟨rfl, soundHeap, sound.units⟩
  exact .onPart onMachine rfl fun m soundMachine =>
    ⟨rfl, soundMachine.1, soundMachine.2, sound.frames⟩

theorem alike_note (topic : Topic) (severity : Severity) :
    Alike (H := H) (W := W) fusion (note topic severity) (note topic severity) :=
  alike_modify (fun _ => rfl) fun _ sound => ⟨sound.heap, sound.units, sound.frames⟩

theorem recompiled_withHeap (s : Session H W) {h h' : Heap H} (same : h' = h.recompiled fusion) :
    (⟨{ s.machine.recompiled fusion with heap := h' }, s.job.recompiled fusion⟩ : Session H W) =
      Session.recompiled fusion ⟨{ s.machine with heap := h }, s.job⟩ := by
  rw [same]
  rfl

theorem alike_changeHeap {f f' : Heap H → Heap H}
    (commutes : ∀ h, f' (h.recompiled fusion) = (f h).recompiled fusion)
    (keeps : ∀ h, h.Sound → (f h).Sound) :
    Alike (W := W) fusion (changeHeap f) (changeHeap f') := by
  intro s sound
  exact .of_modify (recompiled_withHeap s (commutes s.machine.heap))
    ⟨keeps _ sound.heap, sound.units, sound.frames⟩

theorem alike_dispose (vs : List Value) :
    Alike (H := H) (W := W) fusion (dispose vs) (dispose vs) := by
  have changes : Alike (H := H) (W := W) fusion (changeHeap (·.disposeAll vs))
      (changeHeap (·.disposeAll vs)) :=
    alike_changeHeap (fun h => Heap.recompiled_disposeAll fusion h vs)
      fun _ sound => sound.disposeAll vs
  exact changes

/-- A change of the job that leaves the frames to a change of its own. -/
theorem alike_changeJob {f f' : Job → Job}
    (commutes : ∀ j, f' (j.recompiled fusion) = (f j).recompiled fusion)
    (keeps : ∀ j, (∀ g ∈ j.frames, Frame.Sound g) → ∀ g ∈ (f j).frames, Frame.Sound g) :
    Alike (H := H) (W := W) fusion (changeJob f) (changeJob f') := by
  intro s sound
  refine .of_modify ?_ ⟨sound.heap, sound.units, keeps s.job sound.frames⟩
  show (⟨_, f' (s.job.recompiled fusion)⟩ : Session H W) = _
  rw [commutes]
  rfl

theorem mirrors_changeTop {f f' : Frame → Frame} {s : Session H W} (sound : s.Sound)
    (commutes : ∀ g, f' (g.recompiled fusion) = (f g).recompiled fusion)
    (keeps : ∀ g, s.job.frames.head? = some g → (f g).Sound) :
    (changeJob (fun j => j.changeTop f) : SessionM H W Unit).Mirrors (Session.recompiled fusion)
      Session.Sound (changeJob fun j => j.changeTop f') s := by
  obtain ⟨machine, frames, channel, pending⟩ := s
  cases frames with
  | nil => exact .of_modify rfl ⟨sound.heap, sound.units, sound.frames⟩
  | cons top rest =>
    refine .of_modify ?_ ⟨sound.heap, sound.units, ?_⟩
    · simp [Job.changeTop, Job.recompiled, recompiled, commutes]
    · exact List.forall_mem_cons.mpr
        ⟨keeps top rfl, (List.forall_mem_cons.mp sound.frames).2⟩

theorem alike_changeTop {f f' : Frame → Frame}
    (commutes : ∀ g, f' (g.recompiled fusion) = (f g).recompiled fusion)
    (keeps : ∀ g, Frame.Sound g → (f g).Sound) :
    Alike (H := H) (W := W) fusion (changeJob fun j => j.changeTop f)
      (changeJob fun j => j.changeTop f') := by
  intro s sound
  exact mirrors_changeTop sound commutes fun g top =>
    keeps g (sound.frames g (List.mem_of_mem_head? top))

theorem alike_setFrames {frames : List Frame} (sound : ∀ g ∈ frames, g.Sound) :
    Alike (H := H) (W := W) fusion (changeJob fun j => { j with frames })
      (changeJob fun j => { j with frames := frames.map (Frame.recompiled fusion) }) :=
  alike_changeJob (fun _ => rfl) fun _ _ => sound

theorem alike_drainChannel : Alike (H := H) (W := W) fusion drainChannel drainChannel := by
  intro s sound
  exact .get_bind (.bind (alike_changeJob (by intro j; rfl) (by intro j frames; exact frames) s sound)
    fun _ _ sound => .of_pure sound _)

theorem alike_clearChannel : Alike (H := H) (W := W) fusion clearChannel clearChannel :=
  alike_drainChannel.bind alike_dispose

theorem alike_deliver (values : List Value) :
    Alike (H := H) (W := W) fusion (deliver values) (deliver values) := by
  have pushed : ∀ (vs : List Value) (g : Frame), (g.recompiled fusion).pushAll vs =
      (g.pushAll vs).recompiled fusion ∧ g.Edited (g.pushAll vs) := by
    intro vs
    induction vs with
    | nil => exact fun g => ⟨rfl, rfl, rfl, rfl, rfl, rfl, rfl⟩
    | cons v vs ih =>
      intro g
      obtain ⟨unit, slots, cursor, trap, onExhaust, generator⟩ := (ih (g.push v)).2
      exact ⟨(ih (g.push v)).1, unit, slots, cursor, trap, onExhaust, generator⟩
  apply alike_changeJob
  · rintro ⟨frames, channel, pending⟩
    cases frames with
    | nil => rfl
    | cons top rest =>
      simp only [Job.recompiled, List.map_cons]
      rw [(pushed _ top).1]
  · rintro ⟨frames, channel, pending⟩ sound g mem
    cases frames with
    | nil => exact sound g mem
    | cons top rest =>
      rcases List.mem_cons.mp mem with rfl | mem
      · exact (sound top List.mem_cons_self).edit (pushed _ top).2
      · exact sound g (List.mem_cons_of_mem _ mem)

theorem alike_retire (frame : Frame) (mask : UInt64) :
    Alike (H := H) (W := W) fusion (retire frame mask)
      (retire (frame.recompiled fusion) mask) := by
  intro s sound
  apply Effect.Mirrors.get_bind
  rw [show (s.recompiled fusion).machine.heap = s.machine.heap.recompiled fusion from rfl,
    Heap.recompiled_retire]
  refine .bind (.of_set rfl ?_) fun _ _ sound => .of_pure sound _
  exact ⟨sound.heap.retire frame mask, sound.units, sound.frames⟩

theorem alike_exhaust (x : Handle) :
    Alike (H := H) (W := W) fusion (changeHeap (·.exhaust x)) (changeHeap (·.exhaust x)) :=
  alike_changeHeap (fun h => Heap.recompiled_exhaust h x) fun _ sound => sound.exhaust x

theorem alike_abandon (frame : Frame) :
    Alike (H := H) (W := W) fusion (abandon frame) (abandon (frame.recompiled fusion)) := by
  refine (alike_retire frame 0).bind fun _ => ?_
  rw [show (frame.recompiled fusion).generator = frame.generator from rfl]
  cases frame.generator with
  | none => exact alike_pure _
  | some x => exact alike_exhaust x

/-! ## Routing of errors -/

theorem alike_unwind (e : Error) {frames : List Frame} :
    (∀ f ∈ frames, Frame.Sound f) →
      Alike (H := H) (W := W) fusion (unwind e frames)
        (unwind e (frames.map (Frame.recompiled fusion))) := by
  induction frames with
  | nil => exact fun _ => (alike_setFrames (by simp)).bind fun _ => alike_throw e
  | cons frame rest ih =>
    intro sound
    obtain ⟨soundFrame, soundRest⟩ := List.forall_mem_cons.mp sound
    rw [List.map_cons, unwind, unwind, Frame.recompiled_diversion,
      show (frame.recompiled fusion).trap = frame.trap from rfl]
    cases trap : frame.trap with
    | some handler =>
      have trapped : (frame.trapped handler e).Sound := by
        obtain ⟨u, runs⟩ := soundFrame
        exact ⟨u, runs.unit, runs.compiled, runs.slots, runs.trap handler trap,
          fun _ none => (by cases none), runs.onExhaust⟩
      exact (alike_dispose frame.stack.reverse).bind fun _ => (alike_note _ _).bind fun _ =>
        alike_setFrames (List.forall_mem_cons.mpr ⟨trapped, soundRest⟩)
    | none =>
      cases diverted : frame.diversion with
      | some entry =>
        have held : (frame.holdError entry e).Sound := by
          obtain ⟨u, runs⟩ := soundFrame
          exact ⟨u, runs.unit, runs.compiled, runs.slots, runs.boundary_diversion diverted,
            runs.trap, runs.onExhaust⟩
        exact (alike_dispose frame.stack.reverse).bind fun _ =>
          (alike_setFrames (List.forall_mem_cons.mpr ⟨held, soundRest⟩)).bind fun _ =>
            (alike_dispose _).bind fun _ => alike_dispose _
      | none => exact (alike_abandon frame).bind fun _ => ih soundRest

theorem alike_abandonFrames (frames : List Frame) :
    Alike (H := H) (W := W) fusion (frames.forM abandon)
      ((frames.map (Frame.recompiled fusion)).forM abandon) := by
  induction frames with
  | nil => exact alike_pure _
  | cons frame rest ih => exact (alike_abandon frame).bind fun _ => ih

theorem alike_abandonAll : Alike (H := H) (W := W) fusion abandonAll abandonAll := by
  intro s sound
  exact .get_bind ((alike_abandonFrames s.job.frames).bind
    (fun _ => alike_setFrames (by simp)) s sound)

theorem alike_raise (e : Error) : Alike (H := H) (W := W) fusion (raise e) (raise e) := by
  refine alike_clearChannel.bind fun _ => ?_
  split
  · exact (alike_note _ _).bind fun _ => alike_abandonAll.bind fun _ => alike_throw e
  · exact fun s sound => .get_bind (alike_unwind e sound.frames s sound)

theorem alike_teardown : Alike (H := H) (W := W) fusion teardown teardown := by
  have rest : Alike (H := H) (W := W) fusion
      (abandonAll >>= fun _ => changeJob (fun j => { j with pending := none }) >>= fun _ =>
        clearChannel)
      (abandonAll >>= fun _ => changeJob (fun j => { j with pending := none }) >>= fun _ =>
        clearChannel) :=
    alike_abandonAll.bind fun _ =>
      (alike_changeJob (by intro j; rfl) (by intro j frames; exact frames)).bind
        fun _ => alike_clearChannel
  intro s sound
  apply Effect.Mirrors.get_bind
  rw [show (s.recompiled fusion).job.frames.isEmpty = s.job.frames.isEmpty from by
    simp [recompiled, Job.recompiled]]
  split
  · exact ((alike_note _ _).bind fun _ => rest) s sound
  · exact rest s sound

/-! ## Calls -/

theorem setItems_alike (target : Value) (values : List Value) :
    ∀ i, Heap.Alike (H := H) fusion (Heap.setItems target i values)
      (Heap.setItems target i values) := by
  induction values with
  | nil => exact fun _ h => .of_pure trivial _
  | cons v rest ih =>
    exact fun i h => .bind (Heap.setChildKey_alike target _ v h) fun _ k _ => ih (i + 1) k

theorem pack_alike (values : List Value) :
    Heap.Alike (H := H) fusion (Heap.pack values) (Heap.pack values) := by
  intro h
  apply Effect.Mirrors.get_bind
  rw [Exec.recompiled_allocStructure]
  refine .bind (.of_set rfl trivial) fun _ k _ => ?_
  refine .bind (.onFailure (setItems_alike _ values 0 k) ?_) fun _ _ _ => .of_pure trivial _
  exact fun k _ => ⟨Heap.recompiled_dispose fusion k _, trivial⟩

theorem setItems_keeps {P : Handle → Object H → Prop} {lent : List Nat} {base : Heap H}
    (stable : Object.Stable P) (target : Value) (values : List Value) :
    ∀ i, (Heap.setItems target i values).Keeps (Heap.Later P lent base) := by
  induction values with
  | nil => exact fun _ _ later => later
  | cons v rest ih =>
    exact fun i => (Heap.setChildKey_keeps stable target _ v).bind fun _ => ih (i + 1)

theorem pack_keeps {P : Handle → Object H → Prop} {lent : List Nat} {base : Heap H}
    (stable : Object.Stable P) (values : List Value) :
    (Heap.pack values).Keeps (Heap.Later P lent base) := by
  intro h later
  unfold Heap.pack
  simp only [Effect.ensures_bind, Effect.ensures_get, Effect.ensures_set,
    Effect.ensures_onFailure, Effect.ensures_pure]
  have made : Heap.Later P lent base (h.allocStructure values.length).2 :=
    (later.withPools _).alloc fun x => stable.struct x _
  exact (setItems_keeps stable _ values 0 _ made).mono (fun _ _ later => later)
    fun _ _ later => later.dispose _

theorem alike_gatherArgs (unit : CodeUnit) (args : List Value) :
    Alike (H := H) (W := W) fusion (gatherArgs unit args)
      (gatherArgs (unit.recompiled fusion) args) := by
  have fixed : (unit.recompiled fusion).fixedParams = unit.fixedParams := by
    simp [CodeUnit.fixedParams]
  unfold gatherArgs
  rw [CodeUnit.recompiled_variadic, CodeUnit.recompiled_params, fixed]
  split
  · exact (alike_heap (pack_alike _) fun _ => pack_keeps Object.Sound.stable _).bind
      fun _ => alike_pure _
  · exact alike_pure _

theorem alike_activate {unit : CodeUnit} {frame : Frame} (sound : frame.Sound) :
    Alike (H := H) (W := W) fusion (activate unit frame)
      (activate (unit.recompiled fusion) (frame.recompiled fusion)) := by
  refine (alike_note _ _).bind fun _ => ?_
  rw [CodeUnit.recompiled_generator]
  split
  · intro s soundSession
    have parkedSound : ∀ f, (Iterator.ofFrame frame).parked = some f → f.Sound := by
      intro f parked
      cases parked
      exact sound
    obtain ⟨x, answer, _, found⟩ :=
      soundSession.heap.accounted.alloc_fresh (.iterator (.ofFrame frame))
    have soundHeap := soundSession.heap.alloc
      (show (Object.iterator (.ofFrame frame)).Sound from parkedSound)
    have made := Heap.recompiled_alloc fusion s.machine.heap (.iterator (.ofFrame frame))
    apply Effect.Mirrors.get_bind
    rw [show (s.recompiled fusion).machine.heap.alloc
      (.iterator (.ofFrame (frame.recompiled fusion))) = _ from made]
    generalize s.machine.heap.alloc (.iterator (.ofFrame frame)) = placed at *
    obtain ⟨it, k⟩ := placed
    subst answer
    have bound := Heap.recompiled_setObject fusion k x
      (.iterator ((Iterator.ofFrame frame).bind x))
    refine .modify_bind rfl (.modify_bind ?_ (alike_deliver _ _ ?_))
    · exact recompiled_withHeap s bound
    · refine ⟨soundHeap.setObject found ?_, soundSession.units, soundSession.frames⟩
      intro f parked
      cases parked
      exact sound.bound x
  · exact alike_changeJob (fun _ => rfl) fun j frames =>
      List.forall_mem_cons.mpr ⟨sound, frames⟩

theorem alike_newFrame_activate {unit : CodeUnit} (compiled : unit.Compiled) (args : List Value)
    (closure this : Value) :
    Alike (H := H) (W := W) fusion (newFrame unit args closure this >>= activate unit)
      (newFrame (unit.recompiled fusion) args closure this >>=
        activate (unit.recompiled fusion)) := by
  intro s sound
  unfold newFrame
  rw [CodeUnit.recompiled_misfit?]
  split
  · simp only [bind_assoc]
    exact ((alike_dispose _).bind fun _ => alike_throw_bind _ _ _) s sound
  simp only [bind_assoc, pure_bind]
  apply Effect.Mirrors.get_bind
  simp only [CodeUnit.recompiled_frameCapacity]
  rw [show (s.recompiled fusion).machine.heap.pools = s.machine.heap.pools from rfl]
  generalize s.machine.heap.pools.frames.checkout unit.frameCapacity = drawn
  obtain ⟨frame, frames⟩ := drawn
  have reset := frame.recompiled_reset fusion unit
  refine .bind ((alike_changeHeap (by intro h; rfl) (by intro h sound; exact sound.withPools _))
    s sound) fun _ s sound => ?_
  simp only [reset, Frame.recompiled_bindArgs]
  refine .bind (alike_dispose _ s sound) fun _ s sound => ?_
  exact alike_activate (frame.sound_reset compiled args closure this) s sound

theorem recompiled_atDepthLimit (s : Session H W) :
    (s.recompiled fusion).atDepthLimit = s.atDepthLimit := by
  have depth : (s.recompiled fusion).job.depth = s.job.depth := List.length_map ..
  unfold atDepthLimit
  rw [depth]
  rfl

theorem alike_enter {unit : CodeUnit} (compiled : unit.Compiled) (closure this : Value) :
    Alike (H := H) (W := W) fusion (enter unit closure this)
      (enter (unit.recompiled fusion) closure this) := by
  have fixed : (unit.recompiled fusion).fixedParams = unit.fixedParams := by
    simp [CodeUnit.fixedParams]
  have accepts : ∀ n, (unit.recompiled fusion).accepts n = unit.accepts n := by
    simp [CodeUnit.accepts, fixed]
  intro s sound
  unfold enter
  apply Effect.Mirrors.get_bind
  rw [recompiled_atDepthLimit]
  simp only [accepts, fixed, CodeUnit.recompiled_name]
  have build : ∀ args, Alike (H := H) (W := W) fusion
      ((gatherArgs unit args).onFailure (fun s =>
          { s with machine := s.machine.dispose (args.take unit.fixedParams ++ [closure, this]) })
        >>= fun args => newFrame unit args closure this >>= activate unit)
      ((gatherArgs (unit.recompiled fusion) args).onFailure (fun s =>
          { s with machine := s.machine.dispose (args.take unit.fixedParams ++ [closure, this]) })
        >>= fun args => newFrame (unit.recompiled fusion) args closure this >>=
          activate (unit.recompiled fusion)) := by
    intro args s sound
    refine .bind (.onFailure (alike_gatherArgs unit args s sound) fun t sound => ?_)
      fun args t sound => alike_newFrame_activate compiled args closure this t sound
    refine ⟨?_, sound.heap.disposeAll _, sound.units, sound.frames⟩
    exact recompiled_withHeap t (Heap.recompiled_disposeAll fusion t.machine.heap _)
  split
  · exact ((alike_dispose _).bind fun _ => alike_throw_bind _ _ _) s sound
  · refine alike_drainChannel.bind (fun args => ?_) s sound
    split
    · exact (alike_dispose _).bind fun _ => alike_throw_bind _ _ _
    · exact build args

theorem recompiled_finish (c : HostCall H) :
    (c.recompiled fusion).finish = c.finish.recompiled fusion := by
  unfold HostCall.finish
  rw [show (c.recompiled fusion).heap = c.heap.recompiled fusion from rfl,
    show (c.recompiled fusion).args = c.args from rfl,
    show (c.recompiled fusion).this = c.this from rfl, Heap.recompiled_disposeAll,
    Heap.recompiled_dispose]

theorem alike_takeReply (reply : HostReply) {call : HostCall H} (world : W)
    (sound : call.heap.Sound) :
    Alike fusion (takeReply (reply, call, world))
      (takeReply (reply, call.recompiled fusion, world)) := by
  have taken : Alike fusion
      (modify fun s : Session H W =>
        { machine := { s.machine with heap := call.finish, world }
          job := { s.job with channel := call.returned } })
      (modify fun s : Session H W =>
        { machine := { s.machine with heap := (call.recompiled fusion).finish, world }
          job := { s.job with channel := (call.recompiled fusion).returned } }) := by
    intro s soundSession
    refine .of_modify ?_ ⟨(sound.disposeAll _).dispose _, soundSession.units, soundSession.frames⟩
    rw [recompiled_finish]
    rfl
  refine taken.bind fun _ => ?_
  cases reply with
  | finished => exact alike_drainChannel.bind alike_deliver
  | failed e => exact alike_throw e
  | task task =>
    exact (alike_changeJob (by intro j; rfl) (by intro j frames; exact frames)).bind fun _ =>
      alike_note _ _

theorem alike_callHost {host : Host H W} (blackBox : host.Opaque) (path : String) (function : H)
    (this : Value) :
    Alike fusion (callHost host path function this) (callHost host path function this) := by
  refine alike_drainChannel.bind fun args s sound => .get_bind ?_
  have cursor : ((s.recompiled fusion).job.frames.head?.map Frame.cursor).getD 0 =
      (s.job.frames.head?.map Frame.cursor).getD 0 := by
    simp only [recompiled, Job.recompiled, List.head?_map, Option.map_map]
    rfl
  let call : HostCall H :=
    ⟨path, (s.job.frames.head?.map Frame.cursor).getD 0, this, args, s.machine.heap, []⟩
  rw [cursor]
  show Effect.Mirrors _ _ (takeReply (host.call function call s.machine.world))
    (takeReply (host.call function (call.recompiled fusion) s.machine.world)) s
  rw [blackBox.blind fusion function call s.machine.world sound.heap]
  exact alike_takeReply _ _ (blackBox.keeps function call s.machine.world sound.heap) s sound

theorem alike_invokeValue {host : Host H W} (blackBox : host.Opaque) (callee this : Value) :
    Alike fusion (invokeValue host callee this) (invokeValue host callee this) := by
  intro s sound
  apply Effect.Mirrors.get_bind
  rw [show (s.recompiled fusion).machine.heap = s.machine.heap.recompiled fusion from rfl,
    Heap.recompiled_callableOf]
  cases found : s.machine.heap.callableOf callee with
  | error e => exact ((alike_dispose _).bind fun _ => alike_throw e) s sound
  | ok callable =>
    cases callable with
    | script unit captures =>
      exact alike_enter (sound.heap.callable found) callee this s sound
    | host path function =>
      exact ((alike_dispose _).bind fun _ => alike_callHost blackBox path function this) s sound

theorem alike_invoke {host : Host H W} (blackBox : host.Opaque) (target : CallTarget)
    (this : Value) :
    Alike fusion (invoke host target this) (invoke host target this) := by
  cases target with
  | value callee => exact alike_invokeValue blackBox callee this
  | path path =>
    have chosen : ∀ callee : Value, Alike fusion
        (if callee.isNull then dispose [this] >>= fun _ => throw (notCallable path)
          else invokeValue host callee this)
        (if callee.isNull then dispose [this] >>= fun _ => throw (notCallable path)
          else invokeValue host callee this) := by
      intro callee
      split
      · exact (alike_dispose _).bind fun _ => alike_throw _
      · exact alike_invokeValue blackBox callee this
    exact fun s sound => .get_bind (chosen (s.machine.globals.load path) s sound)
  | unit name =>
    intro s sound
    apply Effect.Mirrors.get_bind
    rw [show (s.recompiled fusion).machine.units = s.machine.units.recompiled fusion from rfl,
      UnitTable.recompiled_get?]
    cases found : SortedMap.get? s.machine.units name with
    | none => exact ((alike_dispose _).bind fun _ => alike_throw _) s sound
    | some unit => exact alike_enter (sound.units name unit found) .null this s sound

/-! ## Returns and generators -/

theorem alike_holdExit {frame : Frame} {rest : List Frame} {entry : Nat}
    (diverted : frame.diversion = some entry) (sound : frame.Sound) (soundRest : ∀ f ∈ rest, f.Sound)
    (exit : Exit) :
    Alike (H := H) (W := W) fusion (holdExit frame rest entry exit)
      (holdExit (frame.recompiled fusion) (rest.map (Frame.recompiled fusion)) entry exit) := by
  have held : ∀ pending : PendingReturn,
      { frame with pendingReturn := some pending, cursor := entry }.Sound := by
    intro pending
    obtain ⟨u, runs⟩ := sound
    exact ⟨u, runs.unit, runs.compiled, runs.slots, runs.boundary_diversion diverted, runs.trap,
      runs.onExhaust⟩
  cases exit with
  | values =>
    exact alike_drainChannel.bind fun values => (alike_pure _).bind fun pending =>
      (alike_setFrames (List.forall_mem_cons.mpr ⟨held pending, soundRest⟩)).bind fun _ =>
        alike_dispose _
  | locals mask =>
    exact (alike_pure _).bind fun pending =>
      (alike_setFrames (List.forall_mem_cons.mpr ⟨held pending, soundRest⟩)).bind fun _ =>
        alike_dispose _

theorem alike_endGenerator (handle : Handle) (returned : List Value) :
    Alike (H := H) (W := W) fusion (endGenerator handle returned)
      (endGenerator handle returned) := by
  refine (alike_dispose _).bind fun _ => (alike_exhaust handle).bind fun _ => ?_
  apply alike_changeTop
  · intro g
    cases exhausted : g.onExhaust <;> simp [Frame.recompiled, exhausted]
  · intro g sound
    cases exhausted : g.onExhaust with
    | none => exact sound
    | some position =>
      obtain ⟨u, runs⟩ := sound
      exact ⟨u, runs.unit, runs.compiled, runs.slots, runs.onExhaust position exhausted, runs.trap,
        fun _ none => (by cases none)⟩

theorem alike_leave (exit : Exit) :
    Alike (H := H) (W := W) fusion (leave exit) (leave exit) := by
  intro s sound
  apply Effect.Mirrors.get_bind
  rw [show (s.recompiled fusion).job.frames = s.job.frames.map (Frame.recompiled fusion) from rfl]
  cases frames : s.job.frames with
  | nil => exact .of_throw sound _
  | cons frame rest =>
    have listed := sound.frames
    rw [frames] at listed
    obtain ⟨soundFrame, soundRest⟩ := List.forall_mem_cons.mp listed
    simp only [List.map_cons, Frame.recompiled_diversion]
    cases diverted : frame.diversion with
    | some entry => exact alike_holdExit diverted soundFrame soundRest exit s sound
    | none =>
      have handed : ∀ returned, Alike (H := H) (W := W) fusion (handOver frame returned)
          (handOver (frame.recompiled fusion) returned) := by
        intro returned
        unfold handOver
        rw [show (frame.recompiled fusion).generator = frame.generator from rfl]
        cases frame.generator with
        | some handle => exact alike_endGenerator handle returned
        | none => exact alike_deliver returned
      refine .bind (alike_setFrames soundRest s sound) fun _ t sound => ?_
      cases exit with
      | values =>
        exact (alike_drainChannel.bind fun values => (alike_retire frame 0).bind fun _ =>
          handed values) t sound
      | locals mask => exact ((alike_retire frame mask).bind handed) t sound

theorem recompiled_setIterator (s : Session H W) (x : Handle) (it : Iterator) :
    (⟨{ s.machine.recompiled fusion with
        heap := (s.machine.heap.recompiled fusion).setObject x (.iterator (it.recompiled fusion)) },
      s.job.recompiled fusion⟩ : Session H W) =
      Session.recompiled fusion
        ⟨{ s.machine with heap := s.machine.heap.setObject x (.iterator it) }, s.job⟩ :=
  recompiled_withHeap s (Heap.recompiled_setObject fusion s.machine.heap x (.iterator it))

theorem sound_setIterator {x : Handle} {it it' : Iterator} {s : Session H W} (sound : s.Sound)
    (found : s.machine.heap.iteratorAt x = .ok it)
    (parked : ∀ f, it'.parked = some f → f.Sound) :
    Session.Sound
      ⟨{ s.machine with heap := s.machine.heap.setObject x (.iterator it') }, s.job⟩ :=
  ⟨sound.heap.setObject (Heap.iteratorAt_eq_ok found) parked, sound.units, sound.frames⟩

theorem alike_suspend : Alike (H := H) (W := W) fusion suspend suspend := by
  intro s sound
  apply Effect.Mirrors.get_bind
  rw [show (s.recompiled fusion).job.frames = s.job.frames.map (Frame.recompiled fusion) from rfl]
  cases frames : s.job.frames with
  | nil => exact .of_pure sound _
  | cons frame rest =>
    have listed := sound.frames
    rw [frames] at listed
    obtain ⟨soundFrame, soundRest⟩ := List.forall_mem_cons.mp listed
    simp only [List.map_cons, Frame.recompiled_malformed]
    rw [show (frame.recompiled fusion).generator = frame.generator from rfl]
    cases frame.generator with
    | none => exact .of_throw sound _
    | some handle =>
      have reached : Alike (H := H) (W := W) fusion
          (changeJob fun j => j.changeTop fun caller => { caller with onExhaust := none })
          (changeJob fun j => j.changeTop fun caller => { caller with onExhaust := none }) := by
        apply alike_changeTop
        · exact fun _ => rfl
        · rintro g ⟨u, runs⟩
          exact ⟨u, runs.unit, runs.compiled, runs.slots, runs.cursor, runs.trap,
            fun _ none => (by cases none)⟩
      refine .bind (alike_setFrames soundRest s sound) fun _ s sound => ?_
      refine .bind (alike_drainChannel s sound) fun values s sound => .get_bind ?_
      rw [show (s.recompiled fusion).machine.heap = s.machine.heap.recompiled fusion from rfl,
        Heap.recompiled_iteratorAt]
      cases found : s.machine.heap.iteratorAt handle with
      | error e =>
        exact ((alike_dispose _).bind fun _ => (alike_retire frame 0).bind fun _ =>
          alike_throw_bind e _ _) s sound
      | ok it =>
        simp only [Except.map, Iterator.recompiled_park]
        have placed := sound_setIterator sound found (it.sound_park soundFrame values)
        exact .modify_bind (recompiled_setIterator s handle _)
          (((alike_dispose _).bind fun _ => reached) _ placed)

/-- Control of the running frame may go to a position. -/
def Reaches (s : Session H W) (p : Nat) : Prop :=
  ∀ f u, s.job.frames.head? = some f → f.unit = some u → u.Boundary p

theorem Reaches.sound {s : Session H W} {p : Nat} (reaches : s.Reaches p) (sound : s.Sound)
    {f : Frame} (top : s.job.frames.head? = some f) : { f with cursor := p }.Sound := by
  obtain ⟨u, runs⟩ := sound.frames f (List.mem_of_mem_head? top)
  exact ⟨u, runs.unit, runs.compiled, runs.slots, reaches f u top runs.unit, runs.trap,
    runs.onExhaust⟩

/-- Running a generator needs a position to go on at once the generator has ended. -/
theorem alike_advance (handle : Handle) {exhausted : Nat} {s : Session H W} (sound : s.Sound)
    (reaches : s.Reaches exhausted) :
    (advance handle exhausted : SessionM H W Unit).Mirrors (Session.recompiled fusion) Session.Sound
      (advance handle exhausted) s := by
  apply Effect.Mirrors.get_bind
  rw [recompiled_atDepthLimit]
  split
  · exact alike_throw_bind _ _ _ s sound
  · refine .liftM_bind (Iterator.recompiled fusion)
      (Heap.recompiled_iteratorAt fusion s.machine.heap handle) sound fun it found => ?_
    simp only [show (it.recompiled fusion).state = it.state from rfl, Iterator.recompiled_resume]
    split
    · exact alike_throw_bind _ _ _ s sound
    · cases resumed : it.resume with
      | mk handed it' =>
        cases handed with
        | none => exact mirrors_changeTop sound (fun _ => rfl) fun _ top => reaches.sound sound top
        | some frame =>
          obtain ⟨parked, away⟩ := Iterator.resume_parked resumed
          have soundFrame := sound.heap.parked found parked
          have gone : ∀ f, it'.parked = some f → f.Sound := by
            intro f some
            rw [away] at some
            cases some
          have placed := sound_setIterator sound found gone
          refine .modify_bind (recompiled_setIterator s handle it')
            (.bind (mirrors_changeTop placed (fun _ => rfl) ?_) ?_)
          · intro g top
            obtain ⟨u, runs⟩ := sound.frames g (List.mem_of_mem_head? top)
            exact ⟨u, runs.unit, runs.compiled, runs.slots, runs.cursor, runs.trap,
              fun p some => Option.some.inj some ▸ reaches g u top runs.unit⟩
          · intro _ t sound
            exact alike_changeJob (by intro j; rfl) (by
              intro j frames
              exact List.forall_mem_cons.mpr ⟨soundFrame, frames⟩) t sound

/-! ## After a step -/

def Lands (u : CodeUnit) : Flow → Prop
  | .jump target => u.Boundary target
  | .advance _ exhausted => u.Boundary exhausted
  | _ => True

def Heads (s : Session H W) (flow : Flow) : Prop :=
  ∀ f u, s.job.frames.head? = some f → f.unit = some u → Lands u flow

theorem alike_follow {host : Host H W} (blackBox : host.Opaque) {flow : Flow} {s : Session H W}
    (sound : s.Sound) (heads : s.Heads flow) :
    (follow host flow).Mirrors (Session.recompiled fusion) Session.Sound (follow host flow) s := by
  cases flow with
  | next => exact .of_pure sound _
  | jump target =>
    have reaches : s.Reaches target := heads
    exact mirrors_changeTop sound (fun _ => rfl) fun _ top => reaches.sound sound top
  | call target this => exact alike_invoke blackBox target this s sound
  | ret => exact alike_leave .values s sound
  | returnLocals mask => exact alike_leave (.locals mask) s sound
  | yield => exact alike_suspend s sound
  | finalize => exact (alike_clearChannel.bind fun _ => alike_leave .values) s sound
  | advance handle exhausted => exact alike_advance handle sound heads

theorem alike_apply {host : Host H W} (blackBox : host.Opaque) {flow : Flow} {next : Nat}
    {s : Session H W} (sound : s.Sound) (reaches : s.Reaches next) (heads : s.Heads flow) :
    (apply host flow next).Mirrors (Session.recompiled fusion) Session.Sound
      (apply host flow next) s := by
  obtain ⟨machine, frames, channel, pending⟩ := s
  cases frames with
  | nil => exact ⟨rfl, sound⟩
  | cons top rest =>
    have moved := reaches.sound sound rfl
    refine .get_bind (.modify_bind rfl (alike_follow blackBox ?_ ?_))
    · exact ⟨sound.heap, sound.units,
        List.forall_mem_cons.mpr ⟨moved, (List.forall_mem_cons.mp sound.frames).2⟩⟩
    · intro f u head unit
      cases head
      exact heads top u rfl unit

/-! ## Starting and ending -/

theorem alike_settle (task : HostTask) :
    Alike (H := H) (W := W) fusion (settle task) (settle task) := by
  refine (alike_changeJob (by intro j; rfl) (by intro j frames; exact frames)).bind fun _ => ?_
  cases task.result with
  | ok values => exact alike_drainChannel.bind fun _ => alike_deliver _
  | error e => exact alike_raise e

theorem alike_await (mode : Mode) (task : HostTask) (budget : Budget) :
    Alike (H := H) (W := W) fusion (await mode task budget) (await mode task budget) := by
  unfold await
  split
  · exact (alike_changeJob (by intro j; rfl) (by intro j frames; exact frames)).bind fun _ =>
      alike_pure _
  · exact (alike_settle task).bind fun _ => alike_pure _
  · exact (alike_settle task).bind fun _ => alike_pure _

theorem recompiled_uncaught (h : Heap H) (e : Error) :
    (h.recompiled fusion).uncaught e = ((h.uncaught e).1, (h.uncaught e).2.recompiled fusion) := by
  unfold Heap.uncaught
  split
  · rw [Heap.recompiled_render, Heap.recompiled_dispose]
  · rfl
  · rfl

theorem sound_uncaught {h : Heap H} (sound : h.Sound) (e : Error) : (h.uncaught e).2.Sound := by
  unfold Heap.uncaught
  split
  · exact sound.dispose _
  · exact sound
  · exact sound

theorem alike_conclude (host : Host H W) (outcome : Except Error Outcome) :
    Alike fusion (conclude host outcome) (conclude host outcome) := by
  have reported : ∀ e : Error, Alike fusion
      (get >>= fun s : Session H W => if s.machine.hooked && e.panic?.isNone then
          modify (fun t : Session H W => { t with machine :=
            { s.machine with world := host.report e s.machine.world } }) >>= fun _ =>
            pure Outcome.aborted
        else throw e)
      (get >>= fun s : Session H W => if s.machine.hooked && e.panic?.isNone then
          modify (fun t : Session H W => { t with machine :=
            { s.machine with world := host.report e s.machine.world } }) >>= fun _ =>
            pure Outcome.aborted
        else throw e) := by
    intro e t sound
    apply Effect.Mirrors.get_bind
    rw [show (t.recompiled fusion).machine.hooked = t.machine.hooked from rfl]
    split
    · exact .modify_bind rfl (.of_pure ⟨sound.heap, sound.units, sound.frames⟩ _)
    · exact .of_throw sound _
  cases outcome with
  | ok outcome =>
    cases outcome with
    | completed values => exact (alike_note _ _).bind fun _ => alike_pure _
    | halted | aborted => exact alike_pure _
  | error e =>
    refine alike_teardown.bind fun _ s sound => .get_bind ?_
    rw [show (s.recompiled fusion).machine.heap = s.machine.heap.recompiled fusion from rfl,
      recompiled_uncaught]
    refine .modify_bind (recompiled_withHeap s rfl) ?_
    exact .bind (alike_note _ _ _ ⟨sound_uncaught sound.heap e, sound.units, sound.frames⟩)
      fun _ t sound => reported (s.machine.heap.uncaught e).1 t sound

theorem alike_start (args : List Value) {call call' : SessionM H W Unit}
    (alike : Alike fusion call call') : Alike fusion (start args call) (start args call') := by
  refine (alike_changeJob (by intro j; rfl) (by intro j frames; exact frames)).bind
    fun _ s sound => .onFailure (alike s sound) fun t sound => ?_
  have cleared : (clearChannel : SessionM H W Unit).Mirrors (Session.recompiled fusion)
    Session.Sound clearChannel t := alike_clearChannel t sound
  refine ⟨?_, ?_⟩
  · rw [Effect.outcome, cleared.same]
    rfl
  · exact cleared.keeps

theorem recompiled_contains (units : UnitTable) (name : String) :
    SortedMap.contains (units.recompiled fusion) name = SortedMap.contains units name := by
  rw [SortedMap.contains, SortedMap.contains, UnitTable.recompiled_get?, Option.isSome_map]

theorem alike_startPath {host : Host H W} (blackBox : host.Opaque) (path : String)
    (args : List Value) :
    Alike fusion (startPath host path args) (startPath host path args) := by
  intro s sound
  apply Effect.Mirrors.get_bind
  have known : (s.recompiled fusion).machine.units.contains path =
      s.machine.units.contains path := recompiled_contains s.machine.units path
  have bound : (s.recompiled fusion).machine.globals.contains path =
      s.machine.globals.contains path := rfl
  simp only [bound, known]
  split
  · exact alike_start args (alike_invoke blackBox _ _) s sound
  · split
    · exact alike_start args (alike_invoke blackBox _ _) s sound
    · exact ((alike_dispose _).bind fun _ => alike_throw _) s sound

theorem alike_startValue {host : Host H W} (blackBox : host.Opaque) (callee : Value)
    (args : List Value) :
    Alike fusion (startValue host callee args) (startValue host callee args) :=
  alike_start args (alike_invoke blackBox _ _)

theorem alike_startUnit {unit : CodeUnit} (compiled : unit.Compiled) (args : List Value) :
    Alike (H := H) (W := W) fusion (startUnit unit args)
      (startUnit (unit.recompiled fusion) args) :=
  alike_start args (alike_enter compiled _ _)

end

end Session

end ScriptMachine
