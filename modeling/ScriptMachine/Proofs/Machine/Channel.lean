import ScriptMachine.Proofs.Machine.Lives
import ScriptMachine.Proofs.Machine.Returns

/-!
# The channel of a job

Between two ticks nothing is in the channel of a job but its result, or what a host function has
returned that left a task. So whatever a call finds there was sent by this call, and whatever a
frame is given was returned to it. A caller is below what it called, where no tick reaches it.
-/

set_option autoImplicit false

namespace ScriptMachine

variable {H W : Type}

/-! ## Frames that are out of reach -/

def Level (fs gs : List Frame) : Prop := fs.tail <:+ gs.tail ∨ gs.tail <:+ fs.tail

/-- Frames that stay below the top are not touched. -/
theorem Level.kept {fs gs lower : List Frame} (level : Level fs gs) (under : lower <:+ fs.tail)
    (tall : lower.length < gs.length) : lower <:+ gs.tail := by
  rcases level with grows | shrinks
  · exact under.trans grows
  · refine List.suffix_of_suffix_length_le under shrinks ?_
    rw [List.length_tail]
    omega

def Job.Awaits (host : Host H W) (j : Job) : Prop :=
  ∀ task, j.pending = some task →
    ∃ (function : H) (call after : HostCall H) (w w' : W) (polls : Nat),
    host.call function call w = (.task { task with polls }, after, w') ∧ task.polls ≤ polls ∧
      j.channel = after.returned

theorem Job.awaits_of_none {host : Host H W} {j : Job} (idle : j.pending = none) :
    j.Awaits host := by
  intro task waits
  rw [idle] at waits
  cases waits

namespace Session

variable {host : Host H W} {s t u : Session H W} {f : Frame} {rest : List Frame} {unit : CodeUnit}

structure Sheds (s t : Session H W) : Prop where
  frames : t.job.frames.tail <:+ s.job.frames.tail
  pending : t.job.pending = s.job.pending

/-- Frames have come or gone at the top of the stack. A task that is new belongs to a host function
of which the channel holds what it returned. -/
structure Moves (host : Host H W) (s t : Session H W) : Prop where
  level : Level s.job.frames t.job.frames
  awaits : t.job.pending = s.job.pending ∨ t.job.Awaits host

theorem Sheds.refl (s : Session H W) : s.Sheds s := ⟨List.suffix_refl _, rfl⟩

theorem Sheds.trans (first : s.Sheds t) (second : t.Sheds u) : s.Sheds u :=
  ⟨second.frames.trans first.frames, second.pending.trans first.pending⟩

theorem Sheds.moves (sheds : s.Sheds t) : s.Moves host t := ⟨.inr sheds.frames, .inl sheds.pending⟩

theorem Sheds.changeTop {m m' : Machine H W} {j : Job} (sheds : s.Sheds ⟨m, j⟩)
    (change : Frame → Frame) : s.Sheds ⟨m', j.changeTop change⟩ := by
  obtain ⟨frames, channel, pending⟩ := j
  cases frames <;> exact ⟨sheds.frames, sheds.pending⟩

theorem Sheds.given {m m' : Machine H W} {j : Job} (sheds : s.Sheds ⟨m, j⟩)
    (values : List Value) : s.Sheds ⟨m', j.given values⟩ := by
  obtain ⟨frames, channel, pending⟩ := j
  cases frames <;> exact ⟨sheds.frames, sheds.pending⟩

theorem Receives.moves {args : List Value} (receives : Receives host args s t) :
    s.Moves host t := by
  obtain ⟨m, j⟩ := t
  have drained : s.Sheds ⟨s.machine, { s.job with channel := [] }⟩ := ⟨List.suffix_refl _, rfl⟩
  cases receives with
  | runs _ _ _ job =>
    obtain rfl : j = _ := job
    exact ⟨.inl (List.tail_suffix _), .inl rfl⟩
  | waits _ _ _ _ job | answers _ _ job =>
    obtain rfl : j = _ := job
    exact (drained.given _).moves
  | pends args ran job =>
    obtain rfl : j = _ := job
    refine ⟨.inl (List.suffix_refl _), .inr fun task waits => ?_⟩
    cases waits
    exact ⟨_, _, _, _, _, _, ran, Nat.le_refl _, rfl⟩

/-! ## Transfers of control -/

theorem leave_sheds (exit : Exit) :
    (leave exit).Ensures s (fun _ t => s.Sheds t) (fun _ t => s.Sheds t) := by
  have handed : ∀ (f : Frame) (v : Session H W) (returned : List Value), s.Sheds v →
      (handOver f returned).Ensures v (fun _ t => s.Sheds t) (fun _ t => s.Sheds t) := by
    intro f v returned sheds
    unfold handOver
    split
    · simp only [endGenerator, Effect.ensures_bind, ensures_dispose, ensures_changeHeap,
        ensures_changeJob]
      exact Sheds.changeTop (m := v.machine) (j := v.job) sheds _
    · rw [Effect.ensures_of_eq_ok (deliver_eq returned v.machine v.job)]
      exact sheds.given returned
  unfold leave
  rw [Effect.ensures_bind, Effect.ensures_get]
  cases frames : s.job.frames with
  | nil => exact .refl s
  | cons f rest =>
    have under : rest.tail <:+ s.job.frames.tail := by
      rw [frames]
      exact List.tail_suffix rest
    have same : rest <:+ s.job.frames.tail := by
      rw [frames]
      exact List.suffix_refl rest
    simp only
    cases f.diversion with
    | some entry => cases exit <;> exact ⟨same, rfl⟩
    | none =>
      simp only [Effect.ensures_bind, ensures_changeJob]
      cases exit with
      | values =>
        simp only [Effect.ensures_bind, ensures_drainChannel, ensures_retire, Effect.ensures_pure]
        exact handed _ _ _ ⟨under, rfl⟩
      | locals mask => exact handed _ _ _ ⟨under, rfl⟩

theorem suspend_sheds :
    suspend.Ensures s (fun _ t => s.Sheds t) (fun _ t => s.Sheds t) := by
  unfold suspend
  rw [Effect.ensures_bind, Effect.ensures_get]
  cases frames : s.job.frames with
  | nil => exact .refl s
  | cons f rest =>
    have under : rest.tail <:+ s.job.frames.tail := by
      rw [frames]
      exact List.tail_suffix rest
    simp only
    cases f.generator with
    | none => exact .refl s
    | some x =>
      simp only [Effect.ensures_bind, ensures_changeJob, ensures_drainChannel, Effect.ensures_get]
      split
      · simp only [Effect.ensures_bind, ensures_changeHeap, ensures_dispose, ensures_changeJob]
        exact Sheds.changeTop (m := s.machine) (j := { s.job with frames := rest, channel := [] })
          ⟨under, rfl⟩ _
      · exact ⟨under, rfl⟩

theorem moves_resumed {m m' : Machine H W} (g : Frame) (change : Frame → Frame) (j : Job) :
    Moves host ⟨m, j⟩
      ⟨m', { j.changeTop change with frames := g :: (j.changeTop change).frames }⟩ := by
  obtain ⟨frames, channel, pending⟩ := j
  cases frames with
  | nil => exact ⟨.inl List.nil_suffix, .inl rfl⟩
  | cons f rest => exact ⟨.inl (List.suffix_cons _ _), .inl rfl⟩

theorem advance_moves (x : Handle) (exhausted : Nat) :
    (advance x exhausted).Ensures s (fun _ t => s.Moves host t) (fun _ t => s.Sheds t) := by
  unfold advance
  rw [Effect.ensures_bind, Effect.ensures_get]
  split
  · exact .refl s
  simp only [Effect.ensures_bind, Effect.ensures_liftM]
  cases s.machine.heap.iteratorAt x with
  | error e => exact .refl s
  | ok it =>
    simp only
    split
    · exact .refl s
    split
    · simp only [Effect.ensures_bind, ensures_changeHeap, ensures_changeJob]
      exact moves_resumed _ _ s.job
    · exact (Sheds.changeTop (m := s.machine) (Sheds.refl s) _).moves

theorem unwind_sheds (e : Error) {frames : List Frame} :
    ∀ {s : Session H W}, (unwind e frames).Ensures s
      (fun _ t => t.job.frames.tail <:+ frames.tail ∧ t.job.pending = s.job.pending)
      (fun _ t => t.job.frames.tail <:+ frames.tail ∧ t.job.pending = s.job.pending) := by
  induction frames with
  | nil => exact ⟨List.suffix_refl _, rfl⟩
  | cons f rest ih =>
    intro s
    rw [unwind]
    split
    · exact ⟨List.suffix_refl _, rfl⟩
    · exact ⟨List.suffix_refl _, rfl⟩
    · rw [Effect.ensures_bind]
      rw [Effect.ensures_of_eq_ok (abandon_eq f s.machine s.job)]
      exact ih.mono (fun _ u sheds => ⟨sheds.1.trans (List.tail_suffix rest), sheds.2⟩)
        fun _ u sheds => ⟨sheds.1.trans (List.tail_suffix rest), sheds.2⟩

theorem raise_sheds (e : Error) :
    (raise e).Ensures s (fun _ t => s.Sheds t) (fun _ t => s.Sheds t) := by
  by_cases fatal : e.isFatal = true
  · rw [Effect.ensures_of_eq_error (raise_of_fatal fatal s.machine s.job)]
    exact ⟨List.nil_suffix, rfl⟩
  · unfold Effect.Ensures
    rw [show s = ⟨s.machine, s.job⟩ from rfl, raise_of_not_fatal fatal]
    exact (unwind_sheds e).mono (fun _ _ sheds => ⟨sheds.1, sheds.2⟩) fun _ _ sheds =>
      ⟨sheds.1, sheds.2⟩

/-! ## Steps -/

structure Tops (s t : Session H W) : Prop where
  frames : t.job.frames.tail = s.job.frames.tail
  pending : t.job.pending = s.job.pending

theorem Tops.sheds (tops : s.Tops t) (sheds : t.Sheds u) : s.Sheds u :=
  ⟨tops.frames ▸ sheds.frames, sheds.pending.trans tops.pending⟩

theorem Tops.moves (tops : s.Tops t) (moves : t.Moves host u) : s.Moves host u :=
  ⟨by rw [Level, ← tops.frames]; exact moves.level, tops.pending ▸ moves.awaits⟩

theorem changeTop_tops {m m' : Machine H W} (change : Frame → Frame) (j : Job) :
    Tops ⟨m, j⟩ ⟨m', j.changeTop change⟩ := by
  obtain ⟨frames, channel, pending⟩ := j
  cases frames <;> exact ⟨rfl, rfl⟩

theorem follow_moves (accounted : s.machine.heap.Accounted []) (flow : Flow) :
    (follow host flow).Ensures s (fun _ t => s.Moves host t) (fun _ t => s.Sheds t) := by
  cases flow with
  | next => exact (Sheds.refl s).moves
  | jump target => exact (Sheds.changeTop (m := s.machine) (Sheds.refl s) _).moves
  | call target this =>
    exact (invoke_receives accounted target this).mono (fun _ _ receives => receives.moves)
      fun _ t idles => ⟨idles.1 ▸ List.suffix_refl _, idles.2⟩
  | ret => exact (leave_sheds .values).mono (fun _ _ sheds => sheds.moves) fun _ _ sheds => sheds
  | returnLocals mask =>
    exact (leave_sheds (.locals mask)).mono (fun _ _ sheds => sheds.moves) fun _ _ sheds => sheds
  | yield => exact suspend_sheds.mono (fun _ _ sheds => sheds.moves) fun _ _ sheds => sheds
  | finalize =>
    simp only [follow, clearChannel, Effect.ensures_bind, ensures_drainChannel, ensures_dispose]
    exact (leave_sheds .values).mono (fun _ _ sheds => ⟨.inr sheds.frames, .inl sheds.pending⟩)
      fun _ _ sheds => ⟨sheds.frames, sheds.pending⟩
  | advance x exhausted => exact advance_moves x exhausted

theorem apply_moves (accounted : s.machine.heap.Accounted []) (flow : Flow) (next : Nat) :
    (apply host flow next).Ensures s (fun _ t => s.Moves host t) (fun _ t => s.Sheds t) := by
  unfold apply
  rw [Effect.ensures_bind, Effect.ensures_get]
  split
  · exact .refl s
  rw [Effect.ensures_bind, ensures_changeJob]
  have tops : s.Tops ⟨s.machine, s.job.changeTop fun f => { f with cursor := next }⟩ :=
    changeTop_tops _ _
  exact (follow_moves (s := ⟨s.machine, s.job.changeTop fun f => { f with cursor := next }⟩)
    accounted flow).mono (fun _ _ moves => tops.moves moves) fun _ _ sheds => tops.sheds sheds

theorem withContext_tops (c : Context H) (s : Session H W) : s.Tops (withContext c s) := by
  obtain ⟨m, frames, channel, pending⟩ := s
  cases frames <;> exact ⟨rfl, rfl⟩

theorem stride_tops (f : Frame) (s : Session H W) :
    (stride f).Ensures s (fun _ t => s.Tops t) (fun _ t => s.Tops t) := by
  unfold stride
  split
  · rw [Effect.ensures_bind, Effect.ensures_get, Effect.ensures_onPart]
    unfold Effect.Ensures
    split <;> exact withContext_tops _ s
  · exact ⟨rfl, rfl⟩

theorem executeStep_moves (runs : f.Runs unit) (frames : s.job.frames = f :: rest)
    (accounted : s.machine.heap.Accounted []) (empty : s.job.channel = []) :
    (executeStep host f).Ensures s (fun _ t => s.Moves host t) (fun _ t => s.Sheds t) := by
  rw [executeStep_eq_stride runs, Effect.ensures_bind]
  refine ((stride_tops f s).and (stride_outlives runs frames accounted empty)).mono
    (fun flow t strode => ?_) fun _ t strode =>
      ⟨strode.1.frames ▸ List.suffix_refl _, strode.1.pending⟩
  obtain ⟨tops, outlives, -⟩ := strode
  exact (apply_moves outlives.heap.accounted flow _).mono (fun _ _ moves => tops.moves moves)
    fun _ _ sheds => tops.sheds sheds

/-! ## Acts -/

structure Carries (host : Host H W) (s t : Session H W) : Prop where
  level : Level s.job.frames t.job.frames
  awaits : s.job.Awaits host → t.job.Awaits host

theorem Moves.carries (moves : t.Moves host u) (frames : t.job.frames = s.job.frames)
    (idle : t.job.pending = none) : s.Carries host u :=
  ⟨frames ▸ moves.level, fun _ =>
    moves.awaits.elim (fun same => Job.awaits_of_none (same.trans idle)) id⟩

theorem settle_carries (task : HostTask) :
    (settle task).Ensures s (fun _ t => s.Carries host t) (fun _ t => s.Carries host t) := by
  unfold settle
  rw [Effect.ensures_bind, ensures_changeJob]
  let resumed : Session H W := ⟨s.machine, { s.job with pending := none }⟩
  cases task.result with
  | error e =>
    exact (raise_sheds (s := resumed) e).mono (fun _ _ sheds => sheds.moves.carries rfl rfl)
      fun _ _ sheds => sheds.moves.carries rfl rfl
  | ok values =>
    simp only [Effect.ensures_bind, ensures_drainChannel]
    rw [Effect.ensures_of_eq_ok (deliver_eq _ _ _)]
    have drained : resumed.Sheds ⟨s.machine, ⟨s.job.frames, [], none⟩⟩ := ⟨List.suffix_refl _, rfl⟩
    exact (drained.given _).moves.carries rfl rfl

theorem tick_carries (mode : Mode) (budget : Budget) (sound : s.Sound) (quiet : s.Quiet) :
    (tick host mode budget).Ensures s (fun _ t => s.Carries host t)
      (fun _ t => s.Carries host t) := by
  refine tick_rule (fun task n waits _ unready => ?_) (fun task _ _ => settle_carries task)
    (fun idle _ => ⟨.inl (List.suffix_refl _), fun _ => Job.awaits_of_none idle⟩)
    (fun idle _ => ⟨.inl (List.suffix_refl _), fun _ => Job.awaits_of_none idle⟩)
    fun f rest idle frames _ => ?_
  · refine ⟨.inl (List.suffix_refl _), fun awaits other same => ?_⟩
    cases same
    obtain ⟨function, call, after, w, w', most, ran, fewer, held⟩ := awaits task waits
    exact ⟨function, call, after, w, w', most, ran, by simp; omega, held⟩
  · obtain ⟨u, runs⟩ := sound.frames f (frames ▸ List.mem_cons_self)
    rw [ensures_routing]
    refine (executeStep_moves runs frames sound.heap.accounted
      (quiet (by simp [frames]) idle)).mono (fun _ _ moves => moves.carries rfl idle)
        fun e t shed => ?_
    exact (raise_sheds e).mono (fun _ _ sheds => (shed.trans sheds).moves.carries rfl idle)
      fun _ _ sheds => (shed.trans sheds).moves.carries rfl idle

theorem carries_of_gone (gone : t.job = {}) : s.Carries host t :=
  ⟨.inr (by rw [gone]; exact List.nil_suffix), fun _ => Job.awaits_of_none (by rw [gone])⟩

theorem conclude_carries (outcome : Except Error Outcome) :
    (conclude host outcome).Ensures s (fun _ t => s.Carries host t)
      (fun _ t => s.Carries host t) := by
  cases outcome with
  | ok outcome => cases outcome <;> exact ⟨.inl (List.suffix_refl _), fun awaits => awaits⟩
  | error e =>
    exact (ensures_conclude_error host e s).mono (fun _ _ gone => carries_of_gone gone.1)
      fun _ _ gone => carries_of_gone gone.1

theorem start_moves {call : SessionM H W Unit} (args : List Value)
    (accounted : s.machine.heap.Accounted [])
    (called : ∀ t : Session H W, t.machine.heap.Accounted [] →
      call.Ensures t (fun _ u => Receives host t.job.channel t u) (fun _ u => t.Idles u)) :
    (start args call).Ensures s (fun _ t => s.Moves host t) (fun _ t => s.Moves host t) := by
  unfold start
  rw [Effect.ensures_bind, ensures_changeJob, Effect.ensures_onFailure]
  refine (called ⟨s.machine, { s.job with channel := s.job.channel ++ args }⟩ accounted).mono
    (fun _ t receives => ?_) fun _ t idles => ?_
  · have moves := receives.moves
    exact ⟨moves.level, moves.awaits⟩
  · exact ⟨.inl (idles.1 ▸ List.suffix_refl _), .inl idles.2⟩

end Session

def Act.Suits (job : Job) : Act → Prop
  | tick .. | conclude .. | teardown => True
  | _ => job = {}

namespace Session

variable {host : Host H W} {s t : Session H W}

/-- What an act makes of a job. What the channel holds beside a task is only spoken of if the act
suits the job. -/
structure Proceeds (host : Host H W) (suits : Prop) (s t : Session H W) : Prop where
  level : Level s.job.frames t.job.frames
  awaits : suits → s.job.Awaits host → t.job.Awaits host

theorem Moves.proceeds (moves : s.Moves host t) : s.Proceeds host (s.job = {}) t :=
  ⟨moves.level, fun idle => (moves.carries rfl (by rw [idle])).awaits⟩

theorem Carries.proceeds {suits : Prop} (carries : s.Carries host t) : s.Proceeds host suits t :=
  ⟨carries.level, fun _ => carries.awaits⟩

theorem start_proceeds {call : SessionM H W Unit} (args : List Value)
    (accounted : s.machine.heap.Accounted [])
    (called : ∀ t : Session H W, t.machine.heap.Accounted [] →
      call.Ensures t (fun _ u => Receives host t.job.channel t u) (fun _ u => t.Idles u)) :
    (start args call).Ensures s (fun _ t => s.Proceeds host (s.job = {}) t)
      (fun _ t => s.Proceeds host (s.job = {}) t) :=
  (start_moves args accounted called).mono (fun _ _ moves => moves.proceeds)
    fun _ _ moves => moves.proceeds

theorem act_proceeds (act : Act) (sound : s.Sound) (quiet : s.Quiet) :
    (act.op host).Ensures s (fun _ t => s.Proceeds host (act.Suits s.job) t)
      (fun _ t => s.Proceeds host (act.Suits s.job) t) := by
  have accounted := sound.heap.accounted
  have invoked : ∀ (target : CallTarget) (t : Session H W), t.machine.heap.Accounted [] →
      (invoke host target .null).Ensures t (fun _ u => Receives host t.job.channel t u)
        (fun _ u => t.Idles u) := fun target t accounted => invoke_receives accounted target .null
  cases act with
  | callPath path args =>
    unfold Act.op startPath
    rw [Effect.ensures_bind, Effect.ensures_get]
    simp only
    split
    · exact start_proceeds args accounted (invoked (.path path))
    split
    · exact start_proceeds args accounted (invoked (.unit path))
    · have disposed : s.Sheds ⟨s.machine.dispose args, s.job⟩ := ⟨List.suffix_refl _, rfl⟩
      exact disposed.moves.proceeds
  | callValue callee args => exact start_proceeds args accounted (invoked (.value callee))
  | callUnit unit args =>
    exact start_proceeds args accounted fun t accounted => enter_receives accounted unit .null .null
  | resume x =>
    exact (advance_moves x 0).mono (fun _ _ moves => moves.proceeds)
      fun _ _ sheds => sheds.moves.proceeds
  | tick mode budget =>
    unfold Act.op
    rw [Effect.ensures_bind]
    exact (tick_carries mode budget sound quiet).mono (fun _ _ carries => carries.proceeds)
      fun _ _ carries => carries.proceeds
  | conclude outcome =>
    unfold Act.op
    rw [Effect.ensures_bind]
    exact (conclude_carries outcome).mono (fun _ _ carries => carries.proceeds)
      fun _ _ carries => carries.proceeds
  | teardown =>
    rw [Act.op, Effect.ensures_of_eq_ok (teardown_eq s.machine s.job)]
    exact (carries_of_gone rfl).proceeds

/-! ## Ticks -/

/-- What a tick does that comes to a call instruction. Its operands are off the stack and what it
calls has received those that it passes on, or it fails and no frame is new. -/
inductive Called (host : Host H W) (f : Frame) (rest : List Frame) (ins : Instruction)
    (budget : Budget) : EStateM.Result Error (Session H W) Tick → Prop
  | enters {m : Machine H W} {t : Session H W} : ins.effect.1 ≤ f.stack.length →
      Receives host (f.arguments ins) ⟨m, ⟨f.calling ins :: rest, f.arguments ins, none⟩⟩ t →
      Called host f rest ins budget (.ok (.running budget) t)
  | fails {e : Error} {u : Session H W} : Uncalled f rest u →
      Called host f rest ins budget (goesOn budget (raise e u))

section
variable {host host' : Host H W} {m : Machine H W} {f : Frame} {rest : List Frame} {u : CodeUnit}
  {mode : Mode} {budget : Budget} {ins : Instruction} {e : PendingReturn}

theorem tick_steps (left : budget ≠ some 0) :
    tick host mode budget ⟨m, ⟨f :: rest, [], none⟩⟩ =
      goesOn (budget.map (· - f.cost)) (routing (executeStep host f) ⟨m, ⟨f :: rest, [], none⟩⟩) :=
  (tick_act f rest [] left).trans (act_eq ..)

theorem tick_calls (runs : f.Runs u) (accounted : m.heap.Accounted []) (left : budget ≠ some 0)
    (covered : ins ∈ f.instructions) (calls : ins.op.calls) :
    Called host f rest ins (budget.map (· - f.cost))
      (tick host mode budget ⟨m, ⟨f :: rest, [], none⟩⟩) := by
  have received : (executeStep host f).Ensures ⟨m, ⟨f :: rest, [], none⟩⟩ _ _ :=
    executeStep_receives runs accounted covered calls
  rw [tick_steps left, routing]
  cases ran : executeStep host f ⟨m, ⟨f :: rest, [], none⟩⟩ with
  | ok _ t =>
    obtain ⟨enough, _, receives⟩ := (Effect.ensures_of_eq_ok ran).mp received
    exact .enters enough receives
  | error e t => exact .fails ((Effect.ensures_of_eq_error ran).mp received)

theorem tick_given (runs : f.Runs u) (left : budget ≠ some 0) (exits : f.exit? = some e)
    (undiverted : f.diversion = none) (plain : f.generator = none) :
    ∃ m' : Machine H W, tick host mode budget ⟨m, ⟨f :: rest, [], none⟩⟩ =
      .ok (.running (budget.map (· - f.cost))) ⟨m', Job.given ⟨rest, [], none⟩ (e.brings f)⟩ := by
  obtain ⟨m', ran⟩ : ∃ m' : Machine H W, executeStep host f ⟨m, ⟨f :: rest, [], none⟩⟩ = _ :=
    executeStep_given runs exits undiverted plain
  exact ⟨m', by rw [tick_steps left, routing, ran]; rfl⟩

theorem tick_holds (runs : f.Runs u) (left : budget ≠ some 0) (exits : f.exit? = some e)
    {entry : Nat} (diverted : f.diversion = some entry) :
    ∃ (m' : Machine H W) (g : Frame), g.pendingReturn = some e ∧
      tick host mode budget ⟨m, ⟨f :: rest, [], none⟩⟩ =
        .ok (.running (budget.map (· - f.cost))) ⟨m', ⟨g :: rest, [], none⟩⟩ := by
  obtain ⟨m', g, held, ran⟩ : ∃ (m' : Machine H W) (g : Frame), g.pendingReturn = some e ∧
      executeStep host f ⟨m, ⟨f :: rest, [], none⟩⟩ = _ := executeStep_holds runs exits diverted
  exact ⟨m', g, held, by rw [tick_steps left, routing, ran]; rfl⟩

end

end Session

namespace System

variable {host : Host H W} {deed : Deed} {s t u : System H W} {pl : Place} {i : Nat} {job : Job}
  {callee : Frame} {above lower : List Frame} {ms : List Moment}

/-! ## Turns -/

/-- Calls were made on a job of a system only while it was idle with nothing in its channel. -/
inductive Tended (host : Host H W) (i : Nat) : System H W → Prop
  | start (m : Machine H W) : m.heap = {} → m.units.Sound → Tended host i ⟨m, []⟩
  | turn {deed : Deed} {s t : System H W} : Tended host i s → Turn host deed s t →
      (∀ act job, deed = .act i act → s.jobs[i]? = some job → act.Suits job) → Tended host i t

theorem Tended.underway (tended : Tended host i s) : Underway host s := by
  induction tended with
  | start m empty units => exact .start m empty units
  | turn _ turn _ ih => exact ih.turn turn

theorem Turn.moves (turn : Turn host deed s t)
    (running : s.Running) (quiet : s.Quiet) (found : s.jobs[i]? = some job) :
    ∃ job', t.jobs[i]? = some job' ∧ Level job.frames job'.frames ∧
      ((∀ act, deed = .act i act → act.Suits job) → job.Awaits host → job'.Awaits host) := by
  have inside : i < s.jobs.length := (List.getElem?_eq_some_iff.mp found).1
  have same : Level job.frames job.frames := .inl (List.suffix_refl _)
  cases turn with
  | spawn =>
    exact ⟨job, (List.getElem?_append_left inside).trans found, same, fun _ awaits => awaits⟩
  | embed => exact ⟨job, found, same, fun _ awaits => awaits⟩
  | @act _ j job' act u found' admits result =>
    by_cases here : j = i
    · subst here
      rw [found] at found'
      cases found'
      have mem := List.mem_of_getElem? found
      have moves : (act.op host).Ensures ⟨s.machine, job⟩ _ _ :=
        Session.act_proceeds act (running.session mem) (quiet job mem)
      obtain ⟨level, awaits⟩ := result ▸ moves.outcome
      exact ⟨u.job, List.getElem?_set_self inside, level, fun suits => awaits (suits act rfl)⟩
    · exact ⟨job, (List.getElem?_set_ne here).trans found, same, fun _ awaits => awaits⟩

/-- Whatever task a job waits for, its channel holds what the host function returned. -/
theorem Tended.awaits (plain : host.Plain CodeUnit.Compiled) (tended : Tended host i s) :
    ∀ {job : Job}, s.jobs[i]? = some job → job.Awaits host := by
  induction tended with
  | start => exact fun found => by cases found
  | @turn deed s t tended turn suits ih =>
    intro job found
    have running := tended.underway.running plain
    have quiet := tended.underway.quiet plain
    cases before : s.jobs[i]? with
    | some old =>
      obtain ⟨new, found', -, awaits⟩ := turn.moves running quiet before
      rw [found] at found'
      cases found'
      exact awaits (fun act same => suits act old same before) (ih before)
    | none =>
      cases turn with
      | spawn =>
        rw [List.getElem?_append_right (List.getElem?_eq_none_iff.mp before)] at found
        rw [List.mem_singleton.mp (List.mem_of_getElem? found)]
        exact Job.awaits_of_none rfl
      | embed =>
        rw [before] at found
        cases found
      | act act u found' =>
        rw [List.getElem?_set] at found
        split at found
        · rename_i same
          subst same
          rw [before] at found'
          cases found'
        · rw [before] at found
          cases found

structure Rests (i : Nat) (lower : List Frame) (t : System H W) (pl : Place) : Prop where
  place : pl = .stack i lower.length
  frame : ∃ f, t.frameAt pl = some f ∧ f.generator = none
  below : ∃ job, t.jobs[i]? = some job ∧ lower <:+ job.frames.tail

/-- While a frame that is no generator lives, nothing becomes of the frames below it. -/
theorem Life.rests (plain : host.Plain CodeUnit.Compiled) (underway : Underway host s)
    (found : s.jobs[i]? = some job) (frames : job.frames = above ++ callee :: lower)
    (called : callee.generator = none)
    (life : Life host s (.stack i lower.length) ms t pl) : Rests i lower t pl := by
  generalize from' : Place.stack i lower.length = start at life
  induction life with
  | here =>
    subst from'
    refine ⟨rfl, ⟨callee, ?_, called⟩, job, found, ?_⟩
    · rw [frameAt_stack found, frames]
      simp
    · rw [frames]
      cases above with
      | nil => exact List.suffix_refl _
      | cons f above => exact (List.suffix_cons callee lower).trans (List.suffix_append above _)
  | @turn ms t u pl pl' deed life turn goes ih =>
    obtain ⟨rfl, ⟨f, here, own⟩, old, before, under⟩ := ih
    have reached := life.underway underway
    have running := reached.running plain
    have quiet := reached.quiet plain
    obtain ⟨new, after, level, -⟩ := turn.moves running quiet before
    cases goes with
    | stays _ still =>
      obtain ⟨g, there⟩ := Option.isSome_iff_exists.mp still
      have aged := turn.aged_stack plain running quiet here there
      have tall : lower.length < new.frames.length := by
        rw [frameAt_stack after] at there
        simpa using (List.getElem?_eq_some_iff.mp there).1
      exact ⟨rfl, ⟨g, there, aged.generator.trans own⟩, new, after, level.kept under tall⟩
    | parks parking belongs =>
      rw [here] at parking
      cases parking
      rw [own] at belongs
      cases belongs

/-! ## The discipline -/

/-- How values pass through the channel of a job. -/
structure Disciplined (host : Host H W) (s : System H W) (i : Nat) (job : Job) : Prop where
  quiet : job.channel ≠ [] → job.frames = [] ∨ job.pending.isSome
  result : job.frames = [] → job.pending = none → ∀ (mode : Mode) (budget : Budget),
    Session.tick host mode budget ⟨s.machine, job⟩ =
      .ok (.ended (.completed job.channel)) ⟨s.machine, {}⟩
  awaits : job.Awaits host
  /-- What is called receives the operands of the call, and nothing else is passed on. -/
  calls : ∀ {f : Frame} {rest : List Frame} {ins : Instruction} {mode : Mode} {budget : Budget},
    job.frames = f :: rest → job.pending = none → budget ≠ some 0 → ins ∈ f.instructions →
      ins.op.calls →
        Session.Called host f rest ins (budget.map (· - f.cost))
          (Session.tick host mode budget ⟨s.machine, job⟩) ∧
        ∀ host' : Host H W, host.Agree host' (f.arguments ins) →
          Session.tick host mode budget ⟨s.machine, job⟩ =
            Session.tick host' mode budget ⟨s.machine, job⟩
  exits : ∀ {f : Frame} {rest : List Frame} {e : PendingReturn},
    job.frames = f :: rest → job.pending = none →
      Moment.left (.returns e) ∈ Session.strideMoments f ⟨s.machine, job⟩ → f.exit? = some e
  holds : ∀ {f : Frame} {rest : List Frame} {e : PendingReturn} {entry : Nat} {mode : Mode}
    {budget : Budget}, job.frames = f :: rest → job.pending = none → budget ≠ some 0 →
      f.exit? = some e → f.diversion = some entry →
        ∃ (m : Machine H W) (g : Frame), g.pendingReturn = some e ∧
          Session.tick host mode budget ⟨s.machine, job⟩ =
            .ok (.running (budget.map (· - f.cost))) ⟨m, ⟨g :: rest, [], none⟩⟩
  /-- When a frame returns that was there before, those below it are as they were, but that the
  topmost of them receives what it brings. -/
  returns : ∀ {above lower : List Frame} {callee : Frame} {ms : List Moment} {t : System H W}
    {pl : Place} {f : Frame} {rest : List Frame} {e : PendingReturn} {mode : Mode}
    {budget : Budget}, job.frames = above ++ callee :: lower → callee.generator = none →
      Life host s (.stack i lower.length) ms t pl →
        t.jobs[i]? = some ⟨f :: rest, [], none⟩ → rest.length = lower.length →
          budget ≠ some 0 → f.exit? = some e → f.diversion = none →
            ∃ m : Machine H W,
              Session.tick host mode budget ⟨t.machine, ⟨f :: rest, [], none⟩⟩ =
                .ok (.running (budget.map (· - f.cost)))
                  ⟨m, Job.given ⟨lower, [], none⟩ (e.brings f)⟩
  settles : ∀ {task : HostTask} {values : List Value} {mode : Mode} {budget : Budget},
    job.pending = some task → task.result = .ok values → (mode = .bounded → task.polls = 0) →
      Session.tick host mode budget ⟨s.machine, job⟩ =
        .ok (.running (if mode = .bounded then budget else mode.stretch)) ⟨s.machine,
          Job.given { job with channel := [], pending := none } (job.channel ++ values)⟩

/-- On a job that is called only while it is idle and its channel is empty, the channel holds
nothing between two ticks but a result or the values beside a task. So what is called receives the
operands of the call, and a caller receives what its callee returned. -/
theorem channel_discipline (plain : host.Plain CodeUnit.Compiled) (tended : Tended host i s)
    (found : s.jobs[i]? = some job) : Disciplined host s i job := by
  have underway := tended.underway
  have running := underway.running plain
  have mem := List.mem_of_getElem? found
  have quiet := underway.quiet plain job mem
  have sound := running.session mem
  have accounted := sound.heap.accounted
  -- a job that is about to execute a step has an empty channel, and its frame can run
  have stands : ∀ {f : Frame} {rest : List Frame}, job.frames = f :: rest → job.pending = none →
      job = ⟨f :: rest, [], none⟩ ∧ f.Sound := by
    intro f rest frames idle
    have empty : job.channel = [] := quiet (by simp [frames]) idle
    refine ⟨by rw [← frames, ← idle, ← empty], sound.frames f ?_⟩
    exact frames ▸ List.mem_cons_self
  constructor
  case quiet =>
    intro left
    by_cases done : job.frames = []
    · exact .inl done
    · refine .inr (Option.isSome_iff_ne_none.mpr fun idle => ?_)
      exact left (quiet done idle)
  case awaits => exact tended.awaits plain found
  case result =>
    intro done idle mode budget
    obtain ⟨frames, channel, pending⟩ := job
    cases done
    cases idle
    exact Session.tick_done channel budget
  case calls =>
    intro f rest ins mode budget frames idle left covered calls
    obtain ⟨rfl, u, runs⟩ := stands frames idle
    refine ⟨Session.tick_calls runs accounted left covered calls, fun host' agree => ?_⟩
    rw [Session.tick_steps left, Session.tick_steps left, Session.routing, Session.routing,
      Session.executeStep_congr s.machine rest runs covered calls agree]
  case exits =>
    intro f rest e frames idle issued
    obtain ⟨rfl, u, runs⟩ := stands frames idle
    exact Session.exit?_of_left runs issued
  case holds =>
    intro f rest e entry mode budget frames idle left exits diverted
    obtain ⟨rfl, u, runs⟩ := stands frames idle
    exact Session.tick_holds runs left exits diverted
  case returns =>
    intro above lower callee ms t pl f rest e mode budget frames called life at' height left exits
      undiverted
    obtain ⟨rfl, ⟨g, here, own⟩, job', found', below⟩ :=
      life.rests plain underway found frames called
    rw [at'] at found'
    cases found'
    obtain rfl : lower = rest := below.eq_of_length height.symm
    rw [frameAt_stack at', getElem?_reverse_cons, if_pos rfl] at here
    cases here
    have running' := (life.underway underway).running plain
    obtain ⟨u, runs⟩ :=
      running'.frames _ (List.mem_of_getElem? at') _ List.mem_cons_self
    exact Session.tick_given runs left exits undiverted own
  case settles =>
    intro task values mode budget waits result ready
    rw [Session.tick_settle budget waits ready, Session.settle_given s.machine job result]
    rfl

/-! A call with two operands, of which both come back in the other order. -/

def swapped : Function :=
  { name := "swapped", params := 2
    code := [{ op := .loadLocal, int := 1 }, { op := .loadLocal }, { op := .ret, int := 2 }] }

def asks : Function :=
  { name := "asks"
    code := [{ op := .pushInt, int := 7 }, { op := .pushInt, int := 8 },
      { op := .callDirect, int := 2, str := "swapped" }, { op := .ret, int := 2 }] }

def swappedUnit : CodeUnit := swapped.assemble (List.replicate 3 none) true

def asksUnit : CodeUnit := asks.assemble (List.replicate 4 none) true

theorem compiled_swappedUnit : swappedUnit.Compiled :=
  ⟨true, Function.compile_eq_ok_iff.mpr ⟨rfl, List.replicate 3 none, rfl, rfl⟩⟩

theorem compiled_asksUnit : asksUnit.Compiled :=
  ⟨true, Function.compile_eq_ok_iff.mpr ⟨rfl, List.replicate 4 none, rfl, rfl⟩⟩

def asked (n : Nat) : System Unit Unit :=
  performs Session.idle 0 (.callUnit asksUnit [] :: ticks n)
    ⟨{ units := ⟨[("swapped", swappedUnit)]⟩, world := () }, [{}]⟩

theorem Tended.performs {acts : List Act}
    (suits : ∀ act ∈ acts, ∀ job, act.Admits job ∧ act.Suits job) (tended : Tended host i s)
    (inside : i < s.jobs.length) : Tended host i (s.performs host i acts) := by
  induction acts generalizing s with
  | nil => exact tended
  | cons act acts ih =>
    obtain ⟨first, others⟩ := List.forall_mem_cons.mp suits
    have found : s.jobs[i]? = some s.jobs[i] := List.getElem?_eq_getElem inside
    refine ih others (tended.turn (turn_perform found (first _).1) fun act' job same _ => ?_) ?_
    · cases same
      exact (first job).2
    · simpa [perform, found] using inside

theorem tended_asked (n : Nat) : Tended Session.idle 0 (asked n) := by
  have units : UnitTable.Sound ⟨[("swapped", swappedUnit)]⟩ :=
    UnitTable.codes_single compiled_swappedUnit "swapped"
  let fresh : System Unit Unit :=
    ⟨{ units := ⟨[("swapped", swappedUnit)]⟩, world := () }, [({} : Job)]⟩
  have spawned : Tended Session.idle 0 fresh :=
    .turn (.start _ rfl units) (.spawn _) fun _ _ never => by cases never
  have call : Turn Session.idle (.act 0 (.callUnit asksUnit [])) fresh _ :=
    turn_perform rfl compiled_asksUnit
  have called := spawned.turn call fun act job same found => by
    cases same
    cases found
    rfl
  have driven : ∀ act ∈ ticks n, ∀ job, act.Admits job ∧ act.Suits job := fun act mem job => by
    rw [List.eq_of_mem_replicate mem]
    exact ⟨trivial, trivial⟩
  have ticked := called.performs driven Nat.one_pos
  exact ticked

theorem channel_discipline_asked :
    (∃ job, (asked 1).jobs[0]? = some job ∧ Disciplined Session.idle (asked 1) 0 job) ∧
    (asked 2).jobs.map (fun job => (job.channel, job.frames.map Frame.locals)) =
      [([], [[.int 7, .int 8], []])] ∧
    (asked 5).jobs.map (fun job => (job.channel, job.frames.map Frame.stack)) =
      [([], [[.int 7, .int 8]])] ∧
    (asked 6).jobs.map (fun job => (job.channel, job.frames.length)) =
      [([.int 8, .int 7], 0)] := by
  have loaded : ((asked 1).jobs[0]?).isSome := by decide +kernel
  obtain ⟨job, found⟩ := Option.isSome_iff_exists.mp loaded
  have disciplined := channel_discipline (Session.plain_idle CodeUnit.Compiled) (tended_asked 1)
    found
  exact ⟨⟨job, found, disciplined⟩, by decide +kernel, by decide +kernel, by decide +kernel⟩

end System

end ScriptMachine
