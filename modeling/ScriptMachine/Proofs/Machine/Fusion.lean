import ScriptMachine.Proofs.Exec.Folding
import ScriptMachine.Proofs.Machine.Driving
import ScriptMachine.Proofs.Machine.Recompiled

/-!
# Fusion preserves meaning

A job on code without fusion takes one tick for each instruction, and a job on fused code one for
each folded run. Whenever the one has made a tick, the other reaches, after as many ticks as the run
has instructions, the session that differs in nothing but the steps of its code.
-/

set_option autoImplicit false

namespace ScriptMachine

namespace Session

variable {H W : Type} {host : Host H W} {mode : Mode} {s t : Session H W}

def Passes (host : Host H W) (s : Session H W) (x : EStateM.Result Error (Session H W) Tick) : Prop :=
  ∃ k, ∀ n, drive host .blocking (n + k + 1) none s = onward host .blocking n x

theorem passes_tick (host : Host H W) (s : Session H W) : Passes host s (tick host .blocking none s) :=
  ⟨0, fun n => drive_succ host .blocking n none s⟩

theorem Passes.later {x : EStateM.Result Error (Session H W) Tick}
    (first : tick host .blocking none s = .ok (.running none) t) (rest : Passes host t x) :
    Passes host s x := by
  obtain ⟨k, passes⟩ := rest
  refine ⟨k + 1, fun n => ?_⟩
  rw [drive_succ, first]
  exact passes n

/-! ## Sessions around an instruction -/

def around (m : Machine H W) (rest : List Frame) (c : Context H) : Session H W :=
  ⟨{ m with heap := c.heap, globals := c.globals }, ⟨c.frame :: rest, c.channel, none⟩⟩

def landed (host : Host H W) (m : Machine H W) (rest : List Frame) (next : Nat) :
    EStateM.Result Error (Context H) Flow → EStateM.Result Error (Session H W) Tick
  | .ok flow c =>
    (routing (apply host flow next) >>= fun _ => pure (.running none)) (around m rest c)
  | .error e c => (raise e >>= fun _ => pure (.running none)) (around m rest c)

variable {m : Machine H W} {rest : List Frame} {c : Context H} {u : CodeUnit} {next : Nat}

theorem bind_eq_bind {σ α β : Type} {op op' : Effect σ α} {s s' : σ} (same : op s = op' s')
    (next : α → Effect σ β) : (op >>= next) s = (op' >>= next) s' := by
  show EStateM.bind op next s = EStateM.bind op' next s'
  simp only [EStateM.bind, same]

def arrived (host : Host H W) (m : Machine H W) (rest : List Frame) (next : Nat) :
    EStateM.Result Error (Context H) Flow → EStateM.Result Error (Session H W) Unit
  | .ok flow c => apply host flow next (around m rest c)
  | .error e c => .error e (around m rest c)

theorem executeStep_eq (host : Host H W) (m : Machine H W) (rest : List Frame) {step : Step}
    (unit : c.frame.unit = some u) (found : u.stepAt? c.frame.cursor = some step) :
    executeStep host c.frame (around m rest c) =
      arrived host m rest (step.start + step.length) (Exec.action m.units step.action c) := by
  have seen : context c.frame (around m rest c) = c := rfl
  simp only [executeStep, unit, found]
  show EStateM.bind (Effect.onPart _ _ (Exec.action m.units step.action)) _ _ = _
  simp only [EStateM.bind, Effect.onPart, seen]
  cases Exec.action m.units step.action c <;> rfl

theorem tick_step (host : Host H W) (m : Machine H W) (rest : List Frame) {step : Step}
    (unit : c.frame.unit = some u) (found : u.stepAt? c.frame.cursor = some step) :
    tick host .blocking none (around m rest c) =
      landed host m rest (step.start + step.length) (Exec.action m.units step.action c) := by
  have ran := executeStep_eq host m rest unit found
  show (routing (executeStep host c.frame) >>= fun _ => pure (Tick.running none))
    (around m rest c) = _
  cases acted : Exec.action m.units step.action c with
  | ok flow c' =>
    rw [acted] at ran
    refine bind_eq_bind ?_ _
    unfold routing
    rw [ran]
    rfl
  | error e c' =>
    rw [acted] at ran
    refine bind_eq_bind (show routing _ _ = raise e _ from ?_) _
    unfold routing
    rw [ran]
    rfl

theorem abandon_run (f : Frame) (m : Machine H W) :
    ∃ m', ∀ (p : Nat) (j : Job),
      abandon { f with cursor := p } ⟨m, j⟩ = EStateM.Result.ok () ⟨m', j⟩ := by
  cases generator : f.generator with
  | none =>
    refine ⟨{ m with heap := (m.heap.retire f 0).2 }, fun p j => ?_⟩
    simp only [abandon]
    rfl
  | some x =>
    refine ⟨{ m with heap := (m.heap.retire f 0).2.exhaust x }, fun p j => ?_⟩
    simp only [abandon]
    rfl

theorem abandonFrames_run (frames : List Frame) :
    ∀ m : Machine H W, ∃ m', ∀ j : Job,
      (frames.forM abandon : SessionM H W PUnit) ⟨m, j⟩ = EStateM.Result.ok ⟨⟩ ⟨m', j⟩ := by
  induction frames with
  | nil => exact fun m => ⟨m, fun _ => rfl⟩
  | cons f rest ih =>
    intro m
    obtain ⟨m', first⟩ := abandon_run f m
    obtain ⟨m'', others⟩ := ih m'
    refine ⟨m'', fun j => ?_⟩
    show EStateM.bind (abandon f) (fun _ => rest.forM abandon) _ = _
    simp only [EStateM.bind, first f.cursor j, others j]

theorem unwind_cons {e : Error} {rest : List Frame}
    (behind : ∀ (gone : List Frame) (m : Machine H W) (j : Job),
      unwind e rest ⟨m, { j with frames := gone }⟩ = unwind e rest ⟨m, j⟩)
    (f : Frame) (p : Nat) (gone : List Frame) (m : Machine H W) (j : Job) :
    unwind e ({ f with cursor := p } :: rest) ⟨m, { j with frames := gone }⟩ =
      unwind e (f :: rest) ⟨m, j⟩ := by
  have held : ∀ entry, ({ f with cursor := p } : Frame).holdError entry e = f.holdError entry e :=
    fun _ => rfl
  have trapped : ∀ handler, ({ f with cursor := p } : Frame).trapped handler e =
    f.trapped handler e := fun _ => rfl
  have diverted : ({ f with cursor := p } : Frame).diversion = f.diversion := rfl
  have left := abandon_run f m
  generalize moved : ({ f with cursor := p } : Frame) = g at *
  obtain ⟨m', first⟩ := left
  have firstMoved := moved ▸ first p
  have trap : g.trap = f.trap := moved ▸ rfl
  have stack : g.stack = f.stack := moved ▸ rfl
  have thrown : g.thrownValues = f.thrownValues := moved ▸ rfl
  have returned : g.returnedValues = f.returnedValues := moved ▸ rfl
  rw [unwind, unwind, diverted, trap, stack, thrown, returned]
  simp only [held, trapped]
  cases f.trap with
  | some handler => rfl
  | none =>
    cases f.diversion with
    | some entry => rfl
    | none =>
      show EStateM.bind (abandon g) (fun _ => unwind e rest) _ =
        EStateM.bind (abandon f) (fun _ => unwind e rest) _
      simp only [EStateM.bind, firstMoved, first f.cursor]
      exact behind gone m' j

/-- Where an error goes depends on the frames that it is routed through, but not on the position of
the first of them. -/
theorem unwind_frames (e : Error) (frames : List Frame) :
    ∀ (gone : List Frame) (m : Machine H W) (j : Job),
      unwind e frames ⟨m, { j with frames := gone }⟩ = unwind e frames ⟨m, j⟩ := by
  induction frames with
  | nil => exact fun _ _ _ => rfl
  | cons f rest ih => exact unwind_cons ih f f.cursor

theorem raise_moved (e : Error) (p : Nat) :
    raise e (around m rest { c with frame := { c.frame with cursor := p } }) =
      raise e (around m rest c) := by
  let cleared : Machine H W :=
    { m with heap := c.heap.disposeAll c.channel, globals := c.globals }
  let job : List Frame → Job := fun frames => ⟨frames, [], none⟩
  unfold raise
  split
  · obtain ⟨m', first⟩ := abandon_run c.frame (cleared.note .engine .warn)
    obtain ⟨m'', others⟩ := abandonFrames_run rest m'
    have all : ∀ p, abandonAll ⟨cleared.note .engine .warn, job ({ c.frame with cursor := p } :: rest)⟩
        = EStateM.Result.ok () ⟨m'', job []⟩ := by
      intro p
      show EStateM.bind (EStateM.bind (abandon _) (fun _ => rest.forM abandon))
        (fun _ => changeJob fun j => { j with frames := [] }) _ = _
      simp only [EStateM.bind, first p, others]
      rfl
    have failed : ∀ p, (abandonAll >>= fun _ => (throw e : SessionM H W Unit))
        ⟨cleared.note .engine .warn, job ({ c.frame with cursor := p } :: rest)⟩ =
          .error e ⟨m'', job []⟩ := by
      intro p
      show EStateM.bind abandonAll _ _ = _
      simp only [EStateM.bind, all p]
      rfl
    exact (failed p).trans (failed c.frame.cursor).symm
  · exact unwind_cons (unwind_frames e rest) c.frame p _ cleared (job (c.frame :: rest))

/-! ## One tick on fused code -/

theorem alike_routing {fusion : Bool} {op op' : SessionM H W Unit}
    (alike : op.Mirrors (Session.recompiled fusion) Session.Sound op' s) :
    (routing op).Mirrors (Session.recompiled fusion) Session.Sound (routing op') s := by
  have same := alike.same
  have keeps := alike.keeps
  unfold routing
  cases run : op s with
  | ok a t =>
    rw [run] at same
    refine ⟨?_, ?_⟩
    · simp only [same, Effect.seen, run]
    · simp only [Effect.Ensures, run]
      exact (Effect.ensures_of_eq_ok run).mp keeps
  | error e t =>
    rw [run] at same
    have routed : (raise e).Mirrors (Session.recompiled fusion) Session.Sound (raise e) t :=
      alike_raise e t ((Effect.ensures_of_eq_error run).mp keeps)
    refine ⟨?_, ?_⟩
    · simp only [same, Effect.seen, run]
      exact routed.same
    · simp only [Effect.Ensures, run]
      exact routed.keeps

def Known (u : CodeUnit) : EStateM.Result Error (Context H) Flow → Prop
  | .ok flow c => c.Sound u ∧ Lands u flow
  | .error _ c => c.Sound u

def Leaves : EStateM.Result Error (Session H W) Tick → Prop
  | .ok _ s => s.Sound
  | .error _ s => s.Sound

theorem leaves_of_ensures {op : SessionM H W Tick}
    (keeps : op.Ensures s (fun _ => Sound) (fun _ => Sound)) : Leaves (op s) := by
  cases run : op s with
  | ok a t => exact (Effect.ensures_of_eq_ok run).mp keeps
  | error e t => exact (Effect.ensures_of_eq_error run).mp keeps

theorem sound_around (units : m.units.Sound) (below : ∀ f ∈ rest, f.Sound) (sound : c.Sound u) :
    (around m rest c).Sound :=
  ⟨sound.heap, units, List.forall_mem_cons.mpr ⟨⟨u, sound.frame⟩, below⟩⟩

theorem thenRunning {op op' : SessionM H W Unit}
    (alike : op.Mirrors (Session.recompiled false) Session.Sound op' s) :
    (op >>= fun _ => pure (Tick.running none)).Mirrors (Session.recompiled false) Session.Sound
      (op' >>= fun _ => pure (Tick.running none)) s :=
  alike.bind fun _ _ sound => .of_pure sound _

/-- On plain code, an instruction has the result that it has on fused code, wherever it stands. -/
theorem landed_recompiled (blackBox : host.Opaque) (units : m.units.Sound)
    (below : ∀ f ∈ rest, f.Sound) (boundary : u.Boundary next) (q : Nat)
    {x : EStateM.Result Error (Context H) Flow} (known : Known u x) :
    landed host (m.recompiled false) (rest.map (Frame.recompiled false)) next
        (Effect.seen (Context.recompiledAt false q) x) =
      Effect.seen (Session.recompiled false) (landed host m rest next x) ∧
    Leaves (landed host m rest next x) := by
  cases x with
  | ok flow c =>
    have sound := sound_around units below known.1
    have unit : c.frame.unit = some u := known.1.frame.unit
    have applied : (apply host flow next).Mirrors (Session.recompiled false) Session.Sound
        (apply host flow next) (around m rest c) := by
      refine alike_apply blackBox sound ?_ ?_
      · intro f v top has
        cases top
        rw [unit] at has
        exact Option.some.inj has ▸ boundary
      · intro f v top has
        cases top
        rw [unit] at has
        exact Option.some.inj has ▸ known.2
    have ticked := thenRunning (alike_routing applied)
    refine ⟨?_, leaves_of_ensures ticked.keeps⟩
    rw [← show _ = Effect.seen _ (landed host m rest next (.ok flow c)) from ticked.same]
    exact bind_eq_bind rfl _
  | error e c =>
    have sound := sound_around units below known
    have ticked := thenRunning (alike_raise e _ sound)
    refine ⟨?_, leaves_of_ensures ticked.keeps⟩
    rw [← show _ = Effect.seen _ (landed host m rest next (.error e c)) from ticked.same]
    refine bind_eq_bind ?_ _
    exact raise_moved (c := c.recompiledAt false c.frame.cursor) e q

theorem known_single (units : m.units.Sound) {targets : List (Option Nat)} {fusion : Bool}
    (laid : u.Laid targets fusion) {r : Resolved} (mem : r ∈ u.resolved) (sound : c.Sound u) :
    Known u (Exec.single m.units r c) := by
  have target : r.ins.scan?.isSome → u.Boundary r.jump := laid.boundary_jump mem
  have alike : Exec.Alike (H := H) false 0 u (Exec.single m.units r) (Exec.single _ r) :=
    Exec.single_alike units r target
  have keeps := (alike c sound).keeps
  have fits := Exec.single_fits m.units r c
  cases run : Exec.single m.units r c with
  | error e c' => exact (Effect.ensures_of_eq_error run).mp keeps
  | ok flow c' =>
    have fit := (Effect.ensures_of_eq_ok run).mp fits
    refine ⟨(Effect.ensures_of_eq_ok run).mp keeps, ?_⟩
    cases flow with
    | jump t => exact fit.2 ▸ target fit.1
    | advance x exhausted => exact fit.2.2 ▸ target fit.2.1
    | _ => trivial

theorem tick_plain (host : Host H W) (rest : List Frame) {targets : List (Option Nat)}
    (plain : (u.recompiled false).Laid targets false) (units : m.units.Sound)
    (jumps : ∀ r ∈ u.resolved, r.ins.scan?.isSome → u.Boundary r.jump)
    {q : Nat} {r : Resolved} (found : u.resolved[q]? = some r) (sound : c.Sound u) :
    tick host .blocking none
        (around (m.recompiled false) (rest.map (Frame.recompiled false)) (c.recompiledAt false q)) =
      landed host (m.recompiled false) (rest.map (Frame.recompiled false)) (q + 1)
        (Effect.seen (Context.recompiledAt false q) (Exec.single m.units r c)) := by
  have inside : q < u.code.length := by
    rw [← CodeUnit.recompiled_code false u, ← plain.length_resolved, CodeUnit.recompiled_resolved]
    exact (List.getElem?_eq_some_iff.mp found).1
  obtain ⟨step, at_, start, length, action⟩ := plain.stepAt?_plain
    (by rw [CodeUnit.recompiled_code]; exact inside)
  have unit : (c.recompiledAt false q).frame.unit = some (u.recompiled false) := by
    show c.frame.unit.map _ = _
    rw [sound.frame.unit]
    rfl
  have alike : Exec.Alike (H := H) false q u (Exec.single m.units r) (Exec.single _ r) :=
    Exec.single_alike units r (jumps r (List.mem_of_getElem? found))
  rw [tick_step host _ _ unit at_, start, length, action, CodeUnit.recompiled_resolved,
    List.getD_eq_getElem?_getD, found]
  exact congrArg _ (alike c sound).same

theorem passes_span (blackBox : host.Opaque) (units : m.units.Sound) (below : ∀ f ∈ rest, f.Sound)
    {targets targets' : List (Option Nat)} {fusion : Bool} (laid : u.Laid targets fusion)
    (plain : (u.recompiled false).Laid targets' false) (boundary : u.Boundary next)
    {span : List Resolved} :
    ∀ {q : Nat} {c : Context H}, span ≠ [] → q + span.length = next →
      (∀ i r, span[i]? = some r → u.resolved[q + i]? = some r) →
      (∀ r ∈ span.dropLast, r.ins.op.transfersControl = false) → c.Sound u →
      Passes host
          (around (m.recompiled false) (rest.map (Frame.recompiled false)) (c.recompiledAt false q))
          (Effect.seen (Session.recompiled false)
            (landed host m rest next (Exec.sequence m.units span c))) ∧
        Leaves (landed host m rest next (Exec.sequence m.units span c)) := by
  induction span with
  | nil => exact fun empty => absurd rfl empty
  | cons r others ih =>
    intro q c _ covers listed transfers sound
    have found : u.resolved[q]? = some r := listed 0 r rfl
    have mem := List.mem_of_getElem? found
    have known := known_single units laid mem sound
    have first := tick_plain host rest plain units
      (fun r mem => laid.boundary_jump mem) found sound
    have passes := passes_tick host
      (around (m.recompiled false) (rest.map (Frame.recompiled false)) (c.recompiledAt false q))
    have same := landed_recompiled blackBox units below boundary q known
    cases others with
    | nil =>
      rw [first, show q + 1 = next from covers, same.1] at passes
      rw [Exec.sequence_last]
      exact ⟨passes, same.2⟩
    | cons r' others =>
      have fits := Exec.single_fits m.units r c
      cases run : Exec.single m.units r c with
      | error e c' =>
        rw [run] at first known same
        rw [Exec.sequence_error m.units run]
        rw [first, show landed host (m.recompiled false) (rest.map (Frame.recompiled false)) (q + 1)
          (Effect.seen (Context.recompiledAt false q) (.error e c')) = _ from same.1] at passes
        exact ⟨passes, same.2⟩
      | ok flow c' =>
        have fit := (Effect.ensures_of_eq_ok run).mp fits
        have stays : r.ins.op.transfersControl = false := transfers r (by simp)
        rw [run] at first known same
        cases flow with
        | next =>
          rw [Exec.sequence_next m.units run]
          have behind : ∀ i r, (r' :: others)[i]? = some r → u.resolved[q + 1 + i]? = some r := by
            intro i r found
            rw [Nat.add_assoc, Nat.add_comm 1]
            exact listed (i + 1) r found
          have length : q + 1 + (r' :: others).length = next := by
            simpa [Nat.add_assoc, Nat.add_comm] using covers
          have later := ih (by simp) length behind (fun r mem => transfers r (by simp [mem])) known.1
          exact ⟨later.1.later first, later.2⟩
        | jump t =>
          rw [Exec.sequence_stop m.units run (by simp)]
          rw [first, show landed host (m.recompiled false) (rest.map (Frame.recompiled false)) (q + 1)
            (Effect.seen (Context.recompiledAt false q) (.ok (.jump t) c')) = _ from same.1] at passes
          exact ⟨passes, same.2⟩
        | _ => simp [Exec.Flow.Fits, stays] at fit

theorem passes_alike {s : Session H W} (same :
    (tick host .blocking none).Mirrors (Session.recompiled false) Session.Sound
      (tick host .blocking none) s) :
    Passes host (s.recompiled false)
        (Effect.seen (Session.recompiled false) (tick host .blocking none s)) ∧
      Leaves (tick host .blocking none s) := by
  refine ⟨?_, leaves_of_ensures same.keeps⟩
  rw [← same.same]
  exact passes_tick host _

/-- A tick on any code leads where plain code comes by after some ticks, and keeps sessions
sound. -/
theorem passes_plain (blackBox : host.Opaque) (sound : s.Sound) :
    Passes host (s.recompiled false)
        (Effect.seen (Session.recompiled false) (tick host .blocking none s)) ∧
      Leaves (tick host .blocking none s) := by
  obtain ⟨m, frames, channel, pending⟩ := s
  cases pending with
  | some task => exact passes_alike (.get_bind (alike_await .blocking task none _ sound))
  | none =>
    cases frames with
    | nil =>
      refine passes_alike (.get_bind ?_)
      exact (alike_drainChannel.bind fun values =>
        alike_pure (Tick.ended (.completed values))) _ sound
    | cons frame rest =>
      obtain ⟨runs, below⟩ := List.forall_mem_cons.mp sound.frames
      obtain ⟨u, runs⟩ := runs
      obtain ⟨fusion, compiled⟩ := runs.compiled
      obtain ⟨targets, laid⟩ := CodeUnit.laid_of_compile compiled
      let c : Context H := ⟨m.heap, m.globals, frame, channel⟩
      have soundContext : c.Sound u := ⟨sound.heap, runs⟩
      obtain ⟨targets', plain⟩ := CodeUnit.laid_of_compile (u := u.recompiled false)
        (by rw [CodeUnit.recompiled_function]; exact Function.compile_recompiled compiled false)
      cases found : u.stepAt? frame.cursor with
      | none =>
        have beyond : u.code.length ≤ frame.cursor :=
          runs.cursor.resolve_left (by simp [found])
        have ran : ∀ (f : Frame) (v : CodeUnit), f.unit = some v → v.stepAt? f.cursor = none →
            v.code.length ≤ f.cursor → executeStep host f = apply host .ret f.cursor := by
          intro f v unit none length
          simp only [executeStep, unit, none, length, if_true]
        have returns := ran frame u runs.unit found beyond
        have returns' := ran (frame.recompiled false) (u.recompiled false)
          (by simp [Frame.recompiled, runs.unit])
          (plain.stepAt?_eq_none (by rw [CodeUnit.recompiled_code]; exact beyond))
          (by rw [CodeUnit.recompiled_code]; exact beyond)
        refine passes_alike (.get_bind ?_)
        show ((routing (executeStep host frame) >>= fun _ => pure (Tick.running none))).Mirrors _ _
          ((routing (executeStep host (frame.recompiled false)) >>= fun _ =>
            pure (Tick.running none))) _
        rw [returns, returns']
        refine .bind (alike_routing (alike_apply blackBox sound ?_ ?_)) fun _ _ sound =>
          .of_pure sound _
        · intro f v top has
          cases top
          exact Option.some.inj (runs.unit.symm.trans has) ▸ runs.cursor
        · exact fun _ _ _ _ => trivial
      | some step =>
        obtain ⟨mem, start⟩ := laid.mem_of_stepAt? found
        obtain ⟨length, positive⟩ := laid.length_span mem
        have sequence := Exec.action_eq_sequence m.units (laid.folds mem) (c := c)
          fun r member loads => by
            rw [show c.frame.locals.length = u.slots from runs.slots]
            exact laid.slot_lt (List.mem_of_mem_drop (List.mem_of_mem_take member)) loads
        have ticked := tick_step host m rest (c := c) runs.unit found
        rw [sequence] at ticked
        show Passes host _ (Effect.seen _ (tick host .blocking none (around m rest c))) ∧
          Leaves (tick host .blocking none (around m rest c))
        rw [ticked]
        refine passes_span blackBox sound.units below laid plain (laid.boundary_next mem)
          (q := frame.cursor) (List.ne_nil_of_length_pos (by omega)) (by omega) ?_ ?_ soundContext
        · exact fun i r found => start ▸ CodeUnit.Laid.resolved_of_span found
        · rw [List.dropLast_eq_take, length]
          exact laid.transfers_last mem

/-! ## Whole runs -/

theorem drive_plain (blackBox : host.Opaque) {n : Nat} {s : Session H W}
    {x : Except Error Outcome × Session H W} (sound : s.Sound)
    (ran : drive host .blocking n none s = some x) :
    (∃ m, drive host .blocking m none (s.recompiled false) = some (x.1, x.2.recompiled false)) ∧
      x.2.Sound := by
  have drives := drives_of_drive ran
  generalize unlimited : (none : Budget) = budget at drives
  clear ran
  induction drives with
  | fails ticked =>
    subst unlimited
    obtain ⟨⟨k, passes⟩, leaves⟩ := passes_plain blackBox sound
    rw [ticked] at passes leaves
    exact ⟨⟨0 + k + 1, passes 0⟩, leaves⟩
  | ends ticked =>
    subst unlimited
    obtain ⟨⟨k, passes⟩, leaves⟩ := passes_plain blackBox sound
    rw [ticked] at passes leaves
    exact ⟨⟨0 + k + 1, passes 0⟩, leaves⟩
  | goes ticked _ ih =>
    subst unlimited
    obtain ⟨⟨k, passes⟩, leaves⟩ := passes_plain blackBox sound
    rw [ticked] at passes leaves
    cases tick_running ticked
    obtain ⟨⟨m, others⟩, sound'⟩ := ih leaves rfl
    exact ⟨⟨m + k + 1, (passes m).trans others⟩, sound'⟩

theorem drive_of_plain (blackBox : host.Opaque) (m : Nat) :
    ∀ {s t' : Session H W} {r : Except Error Outcome}, s.Sound →
      drive host .blocking m none (s.recompiled false) = some (r, t') →
      ∃ n x, drive host .blocking n none s = some x := by
  induction m using Nat.strongRecOn with
  | ind m ih =>
    intro s t' r sound ends
    obtain ⟨⟨k, passes⟩, leaves⟩ := passes_plain blackBox sound
    have one := drive_succ host .blocking 0 none s
    cases ticked : tick host .blocking none s with
    | error e s' =>
      rw [ticked] at one
      exact ⟨_, _, one⟩
    | ok result s' =>
      rw [ticked] at passes leaves one
      cases result with
      | ended outcome => exact ⟨_, _, one⟩
      | running budget =>
        cases tick_running ticked
        rcases Nat.lt_or_ge k m with more | few
        · obtain ⟨n, rfl⟩ : ∃ n, m = n + k + 1 := ⟨m - k - 1, by omega⟩
          obtain ⟨n', x, later⟩ := ih n (by omega) leaves ((passes n).symm.trans ends)
          refine ⟨n' + 1, x, ?_⟩
          rw [drive_succ, ticked]
          exact later
        · -- so little fuel would not even last for the instructions of this step
          have starved := passes 0
          rw [drive_mono (by omega) ends] at starved
          cases starved

theorem run_plain (blackBox : host.Opaque) {fuel : Nat} {s t : Session H W}
    {r : Except Error Outcome} (sound : s.Sound) (ends : run host fuel s = some (r, t)) :
    (∃ fuel', run host fuel' (s.recompiled false) = some (r, t.recompiled false)) ∧ t.Sound := by
  obtain ⟨⟨outcome, s'⟩, driven, concluded⟩ := Option.map_eq_some_iff.mp ends
  obtain ⟨⟨m, plain⟩, sound'⟩ := drive_plain blackBox sound driven
  have alike : Session.Alike false (conclude host outcome) (conclude host outcome) :=
    alike_conclude host outcome
  obtain ⟨same, kept⟩ := (alike s' sound').outcome
  have result : (conclude host outcome).outcome s' = (r, t) := concluded
  rw [result] at same kept
  refine ⟨⟨m, ?_⟩, kept⟩
  show (drive host .blocking m none _).map _ = _
  rw [plain, Option.map_some]
  exact congrArg some same

theorem run_of_plain (blackBox : host.Opaque) {fuel : Nat} {s : Session H W}
    {x : Except Error Outcome × Session H W} (sound : s.Sound)
    (ends : run host fuel (s.recompiled false) = some x) : ∃ fuel' y, run host fuel' s = some y := by
  obtain ⟨⟨outcome, s'⟩, driven, _⟩ := Option.map_eq_some_iff.mp ends
  obtain ⟨n, y, others⟩ := drive_of_plain blackBox fuel sound driven
  exact ⟨n, _, congrArg (Option.map _) others⟩

end Session

/-! ## Jobs on fused code and on plain code -/

/-- How a job is set going: with a call, or from where it stands. -/
inductive Launch where
  | resume
  | path (path : String) (args : List Value)
  | value (callee : Value) (args : List Value)
  | unit (unit : CodeUnit) (args : List Value)

namespace Launch

def recompiled (fusion : Bool) : Launch → Launch
  | .unit u args => .unit (u.recompiled fusion) args
  | other => other

def Compiled : Launch → Prop
  | .unit u _ => u.Compiled
  | _ => True

variable {H W : Type}

def start (host : Host H W) : Launch → SessionM H W Unit
  | .resume => return ()
  | .path name args => Session.startPath host name args
  | .value callee args => Session.startValue host callee args
  | .unit u args => Session.startUnit u args

/-- Sets a job going and runs it to its end. -/
def run (host : Host H W) (fuel : Nat) (l : Launch) : Fueled (Session H W) Outcome := do
  (l.start host : SessionM H W Unit)
  Session.run host fuel

theorem alike_start {host : Host H W} (blackBox : host.Opaque) {l : Launch} (compiled : l.Compiled)
    (fusion : Bool) : Session.Alike fusion (l.start host) ((l.recompiled fusion).start host) := by
  cases l with
  | resume => exact Session.alike_pure _
  | path name args => exact Session.alike_startPath blackBox name args
  | value callee args => exact Session.alike_startValue blackBox callee args
  | unit u args => exact Session.alike_startUnit compiled args

variable {host : Host H W} {l : Launch} {s t : Session H W} {fuel : Nat}

theorem run_eq (l : Launch) (s : Session H W) :
    l.run host fuel s =
      match (l.start host).outcome s with
      | (.ok _, t) => Session.run host fuel t
      | (.error e, t) => some (.error e, t) := by
  unfold run
  simp only [bind, ExceptT.bind, ExceptT.mk, StateT.bind]
  rw [show (liftM (l.start host) : Fueled (Session H W) Unit) s =
    some ((l.start host).outcome s) from rfl, Option.bind_some]
  cases (l.start host).outcome s with
  | mk r t => cases r <;> rfl

theorem run_plain (blackBox : host.Opaque) (compiled : l.Compiled) {r : Except Error Outcome}
    (sound : s.Sound) (ends : l.run host fuel s = some (r, t)) :
    (∃ fuel', (l.recompiled false).run host fuel' (s.recompiled false) =
      some (r, t.recompiled false)) ∧ t.Sound := by
  obtain ⟨same, kept⟩ := (alike_start blackBox compiled false s sound).outcome
  rw [run_eq] at ends
  simp only [run_eq, same]
  cases started : (l.start host).outcome s with
  | mk result s' =>
    rw [started] at ends kept
    cases result with
    | ok _ => exact Session.run_plain blackBox kept ends
    | error e =>
      cases ends
      exact ⟨⟨0, rfl⟩, kept⟩

theorem run_of_plain (blackBox : host.Opaque) (compiled : l.Compiled)
    {x : Except Error Outcome × Session H W} (sound : s.Sound)
    (ends : (l.recompiled false).run host fuel (s.recompiled false) = some x) :
    ∃ fuel' y, l.run host fuel' s = some y := by
  obtain ⟨same, kept⟩ := (alike_start blackBox compiled false s sound).outcome
  rw [run_eq, same] at ends
  simp only [run_eq]
  cases started : (l.start host).outcome s with
  | mk result s' =>
    rw [started] at ends kept
    cases result with
    | ok _ => exact Session.run_of_plain blackBox kept ends
    | error e => exact ⟨0, _, rfl⟩

theorem run_unique {n m : Nat} {x y : Except Error Outcome × Session H W}
    (one : l.run host n s = some x) (two : l.run host m s = some y) : x = y := by
  rw [run_eq] at one two
  cases started : (l.start host).outcome s with
  | mk result s' =>
    rw [started] at one two
    cases result with
    | ok _ => exact Session.run_unique one two
    | error e => exact Option.some.inj (one.symm.trans two)

end Launch

/-- What a host function was called with. -/
structure HostEvent (H : Type) where
  function : H
  path : String
  cursor : Nat
  this : Value
  args : List Value

/-- The embedding program with a record of its calls in the outer world. -/
def Host.recorded {H W : Type} (host : Host H W) : Host H (W × List (HostEvent H)) where
  call function c w :=
    let result := host.call function c w.1
    (result.1, result.2.1, result.2.2, w.2 ++ [⟨function, c.path, c.cursor, c.this, c.args⟩])
  report e w := (host.report e w.1, w.2)

theorem Host.Opaque.recorded {H W : Type} {host : Host H W} (blackBox : host.Opaque) :
    host.recorded.Opaque where
  blind fusion function c w sound := by
    simp only [Host.recorded, blackBox.blind fusion function c w.1 sound]
    rfl
  keeps function c w sound := blackBox.keeps function c w.1 sound

namespace Session

variable {H W : Type}

/-- Sessions that differ in nothing but the steps that their code is cut into. -/
def Congruent (s t : Session H W) : Prop := s.recompiled false = t.recompiled false

/-- Two sessions that differ in how their code is cut into steps, by fusion or without, run alike:
one run ends if and only if the other does, and then with the same outcome, after the same calls of
host functions, and in sessions that again differ in the steps of their code alone. -/
theorem run_congruent (host : Host H W) (blackBox : host.Opaque)
    {s₁ s₂ : Session H (W × List (HostEvent H))} (sound₁ : s₁.Sound) (sound₂ : s₂.Sound)
    (congruent : s₁.Congruent s₂) {l₁ l₂ : Launch} (compiled₁ : l₁.Compiled)
    (compiled₂ : l₂.Compiled) (alike : l₁.recompiled false = l₂.recompiled false) :
    ((∃ fuel x, l₁.run host.recorded fuel s₁ = some x) ↔
      ∃ fuel x, l₂.run host.recorded fuel s₂ = some x) ∧
    ∀ fuel₁ fuel₂ r₁ r₂ t₁ t₂, l₁.run host.recorded fuel₁ s₁ = some (r₁, t₁) →
      l₂.run host.recorded fuel₂ s₂ = some (r₂, t₂) →
      r₁ = r₂ ∧ t₁.Congruent t₂ ∧ t₁.machine.world = t₂.machine.world ∧ t₁.Sound ∧ t₂.Sound := by
  have known := blackBox.recorded
  refine ⟨⟨?_, ?_⟩, ?_⟩
  · rintro ⟨fuel, ⟨r, t⟩, ends⟩
    obtain ⟨⟨fuel', plain⟩, _⟩ := Launch.run_plain known compiled₁ sound₁ ends
    rw [alike, congruent] at plain
    exact Launch.run_of_plain known compiled₂ sound₂ plain
  · rintro ⟨fuel, ⟨r, t⟩, ends⟩
    obtain ⟨⟨fuel', plain⟩, _⟩ := Launch.run_plain known compiled₂ sound₂ ends
    rw [← alike, ← congruent] at plain
    exact Launch.run_of_plain known compiled₁ sound₁ plain
  · intro fuel₁ fuel₂ r₁ r₂ t₁ t₂ ends₁ ends₂
    obtain ⟨⟨_, plain₁⟩, kept₁⟩ := Launch.run_plain known compiled₁ sound₁ ends₁
    obtain ⟨⟨_, plain₂⟩, kept₂⟩ := Launch.run_plain known compiled₂ sound₂ ends₂
    rw [alike, congruent] at plain₁
    have same := Launch.run_unique plain₁ plain₂
    rw [Prod.mk.injEq] at same
    exact ⟨same.1, same.2, congrArg (fun t => t.machine.world) same.2, kept₁, kept₂⟩

/-! A function that adds two to its argument in place, which is a folded run and a return. -/

def addTwo : Function :=
  { name := "addTwo", params := 1
    code :=
      [{ op := .loadLocal }, { op := .pushInt, int := 2 }, { op := .add }, { op := .storeLocal },
       { op := .loadLocal }, { op := .ret, int := 1 }] }

def addTwoUnit (fusion : Bool) : CodeUnit := addTwo.assemble (List.replicate 6 none) fusion

def addTwoCall (fusion : Bool) : Launch := .unit (addTwoUnit fusion) [.int 1]

def fresh : Session Unit (Unit × List (HostEvent Unit)) := ⟨{ world := ((), []) }, {}⟩

theorem compile_addTwo (fusion : Bool) : addTwo.compile fusion = .ok (addTwoUnit fusion) :=
  Function.compile_eq_ok_iff.mpr ⟨rfl, List.replicate 6 none, rfl, rfl⟩

theorem compiled_addTwoCall (fusion : Bool) : (addTwoCall fusion).Compiled :=
  ⟨fusion, compile_addTwo fusion⟩

theorem recompiled_addTwoCall :
    (addTwoCall true).recompiled false = (addTwoCall false).recompiled false := by
  have one := Function.compile_recompiled (compile_addTwo true) false
  have two := Function.compile_recompiled (compile_addTwo false) false
  exact congrArg (fun u => Launch.unit u [.int 1]) (Except.ok.inj (one.symm.trans two))

theorem sound_fresh : fresh.Sound :=
  ⟨Heap.sound_empty, fun _ _ found => (by cases found), fun _ mem => (by cases mem)⟩

theorem run_congruent_addTwo :
    ((addTwoUnit true).steps.length = 3 ∧ (addTwoUnit false).steps.length = 6) ∧
    ((∃ fuel x, (addTwoCall true).run idle.recorded fuel fresh = some x) ↔
      ∃ fuel x, (addTwoCall false).run idle.recorded fuel fresh = some x) ∧
    ∀ fuel₁ fuel₂ r₁ r₂ t₁ t₂, (addTwoCall true).run idle.recorded fuel₁ fresh = some (r₁, t₁) →
      (addTwoCall false).run idle.recorded fuel₂ fresh = some (r₂, t₂) →
      r₁ = r₂ ∧ t₁.Congruent t₂ ∧ t₁.machine.world = t₂.machine.world ∧ t₁.Sound ∧ t₂.Sound :=
  ⟨by decide, run_congruent idle ⟨fun _ _ _ _ _ => rfl, fun _ _ _ sound => sound⟩ sound_fresh
    sound_fresh rfl (compiled_addTwoCall true) (compiled_addTwoCall false) recompiled_addTwoCall⟩

example : ((addTwoCall true).run idle.recorded 4 fresh).map (·.1.toOption) =
    some (some (.completed [.int 3])) := rfl

end Session

end ScriptMachine
