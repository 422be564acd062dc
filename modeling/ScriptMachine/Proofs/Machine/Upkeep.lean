import ScriptMachine.Proofs.Exec.References
import ScriptMachine.Proofs.Machine.Turns

/-!
# What jobs leave alone in their machine

Whatever a job does, the settings and the unit table of its machine stay as they are, and what was
noted once is not forgotten. If the code of the job finds in the table whatever it names, then no
transfer of control misses a unit either; what is left is what the embedding program says, and what
frames hold back.

A `Session.Watch` says what was there before and whether errors are looked at, so that one walk
through the operations of a session serves both.
-/

set_option autoImplicit false

namespace ScriptMachine

variable {H W α β : Type}

/-! ## Settings and notes -/

structure Machine.Lasts (m k : Machine H W) : Prop where
  config : k.config = m.config
  notes : ∀ n ∈ m.journal.notes, n ∈ k.journal.notes

theorem Journal.mem_note {j : Journal} {topic : Topic} {severity : Severity}
    {n : Topic × Severity} (mem : n ∈ j.notes) : n ∈ (j.note topic severity).notes := by
  unfold note
  split
  · exact mem
  · exact List.mem_cons_of_mem _ mem

theorem Machine.Lasts.refl (m : Machine H W) : m.Lasts m := ⟨rfl, fun _ mem => mem⟩

theorem Machine.Lasts.note {m k : Machine H W} (lasts : m.Lasts k) (topic : Topic)
    (severity : Severity) : m.Lasts (k.note topic severity) :=
  ⟨lasts.config, fun n mem => Journal.mem_note (lasts.notes n mem)⟩

/-! ## Errors of missing units -/

/-- The embedding program answers no error of a unit that is not there. -/
def HostReply.Mild : HostReply → Prop
  | .finished => True
  | .failed e => e.lacksUnit = false
  | .task t => ScriptMachine.Mild t.result

def Host.Mild (host : Host H W) : Prop := ∀ function call w, (host.call function call w).1.Mild

theorem Heap.setItems_tame (target : Value) (values : List Value) :
    ∀ i, (setItems target i values : HeapM H Unit).Tame := by
  induction values with
  | nil => exact fun _ => .pure _
  | cons v rest ih => exact fun i => (setChildKey_tame _ _ v).bind fun _ => ih (i + 1)

theorem Heap.pack_tame (values : List Value) : (pack values : HeapM H Value).Tame :=
  .get_bind fun _ => (Effect.Fails.set _).bind fun _ =>
    ((setItems_tame _ values 0).onFailure _).bind fun _ => .pure _

theorem Heap.uncaught_mild (h : Heap H) {e : Error} (mild : e.lacksUnit = false) :
    (h.uncaught e).1.lacksUnit = false := by
  unfold Heap.uncaught
  split
  · rfl
  · rename_i fault _ cause
    have same : e.lacksUnit = (Error.ofFault fault).lacksUnit := by
      unfold Error.lacksUnit
      rw [cause]
      rfl
    exact same ▸ mild
  · exact mild

namespace Session

def Lasts (m : Machine H W) (s : Session H W) : Prop := m.Lasts s.machine

/-- Units are looked up in the table, and the task that the job waits for is mild. -/
structure Uses (units : UnitTable) (s : Session H W) : Prop where
  table : s.machine.units = units
  task : ∀ t, s.job.pending = some t → Mild t.result

def Finds (units : UnitTable) (op : SessionM H W α) : Prop :=
  ∀ s : Session H W, s.Uses units →
    op.Ensures s (fun _ => Uses units) fun e t => e.lacksUnit = false ∧ t.Uses units

/-- The running frame runs a unit that finds what it names, and holds back no bad error. -/
def Equipped (units : UnitTable) (s : Session H W) : Prop :=
  ∀ f ∈ s.job.frames, f.deferral.Mild ∧ ∃ u, f.Runs u ∧ u.Finds units

/-! ## What is watched -/

structure Watch (H W : Type) where
  machine : Machine H W
  units : UnitTable
  /-- No error of a unit that is not there is about. -/
  mild : Prop

namespace Watch

variable {w : Watch H W} {s t : Session H W}

structure Holds (w : Watch H W) (s : Session H W) : Prop where
  lasts : w.machine.Lasts s.machine
  table : s.machine.units = w.units
  task : w.mild → ∀ t, s.job.pending = some t → Mild t.result

theorem Holds.edit (holds : w.Holds s) (config : t.machine.config = s.machine.config)
    (journal : t.machine.journal = s.machine.journal) (units : t.machine.units = s.machine.units)
    (pending : t.job.pending = s.job.pending) : w.Holds t :=
  ⟨⟨config.trans holds.lasts.config, fun n mem => journal ▸ holds.lasts.notes n mem⟩,
    units.trans holds.table, fun mild task waits => holds.task mild task (pending ▸ waits)⟩

def Tends (w : Watch H W) (op : SessionM H W α) : Prop :=
  ∀ s : Session H W, w.Holds s →
    op.Ensures s (fun _ => w.Holds) fun e t => (w.mild → e.lacksUnit = false) ∧ w.Holds t

theorem Tends.pure (a : α) : w.Tends (pure a : SessionM H W α) := fun _ holds => holds

theorem Tends.throw {e : Error} (mild : w.mild → e.lacksUnit = false) :
    w.Tends (throw e : SessionM H W α) := fun _ holds => ⟨mild, holds⟩

theorem Tends.modify {f : Session H W → Session H W} (keeps : ∀ s, w.Holds s → w.Holds (f s)) :
    w.Tends (modify f : SessionM H W PUnit) := keeps

theorem Tends.bind {op : SessionM H W α} {next : α → SessionM H W β} (first : w.Tends op)
    (second : ∀ a, w.Tends (next a)) : w.Tends (op >>= next) := by
  intro s holds
  rw [Effect.ensures_bind]
  exact (first s holds).mono (fun a t holds => second a t holds) fun _ _ failed => failed

theorem Tends.get_bind {next : Session H W → SessionM H W α}
    (rest : ∀ s, w.Holds s → (next s).Ensures s (fun _ => w.Holds)
      fun e t => (w.mild → e.lacksUnit = false) ∧ w.Holds t) : w.Tends (get >>= next) := rest

theorem Tends.onFailure {op : SessionM H W α} (first : w.Tends op)
    {change : Session H W → Session H W} (keeps : ∀ s, w.Holds s → w.Holds (change s)) :
    w.Tends (op.onFailure change) := by
  intro s holds
  rw [Effect.ensures_onFailure]
  exact (first s holds).mono (fun _ _ holds => holds) fun _ t failed => ⟨failed.1, keeps t failed.2⟩

def lasting (m : Machine H W) (units : UnitTable) : Watch H W := ⟨m, units, False⟩

def strict (m : Machine H W) (units : UnitTable) : Watch H W := ⟨m, units, True⟩

theorem holds_lasting {m : Machine H W} (lasts : s.Lasts m) :
    (lasting m s.machine.units).Holds s := ⟨lasts, rfl, False.elim⟩

theorem holds_strict {units : UnitTable} (uses : s.Uses units) :
    (strict s.machine units).Holds s := ⟨.refl _, uses.table, fun _ => uses.task⟩

theorem Holds.uses (holds : w.Holds s) (mild : w.mild) : s.Uses w.units :=
  ⟨holds.table, holds.task mild⟩

theorem keeps_lasts {op : SessionM H W α} {m : Machine H W}
    (tends : ∀ units, (lasting m units).Tends op) : op.Keeps (Lasts m) := fun s lasts =>
  (tends _ s (holds_lasting lasts)).mono (fun _ _ holds => holds.lasts)
    fun _ _ failed => failed.2.lasts

theorem finds {op : SessionM H W α} {units : UnitTable}
    (tends : ∀ m, (strict m units).Tends op) : Finds units op := fun s uses =>
  (tends _ s (holds_strict uses)).mono (fun _ _ holds => holds.uses trivial)
    fun _ _ failed => ⟨failed.1 trivial, failed.2.uses trivial⟩

end Watch

section
variable {w : Watch H W} {host : Host H W} {s : Session H W}

/-! ### Small operations -/

theorem heap_tends {op : HeapM H α} (tame : op.Tame) : w.Tends (liftM op : SessionM H W α) := by
  intro s holds
  refine (Effect.ensures_onPart ..).mpr ((Effect.ensures_onPart ..).mpr ?_)
  exact (tame s.machine.heap).mono (fun _ _ _ => holds.edit rfl rfl rfl rfl)
    fun _ _ tame => ⟨fun _ => (Error.tame_iff.mp tame).1, holds.edit rfl rfl rfl rfl⟩

theorem note_tends (topic : Topic) (severity : Severity) :
    w.Tends (note topic severity : SessionM H W Unit) :=
  .modify fun _ holds => ⟨holds.lasts.note topic severity, holds.table, holds.task⟩

theorem dispose_tends (vs : List Value) : w.Tends (dispose vs : SessionM H W Unit) :=
  .modify fun _ holds => holds.edit rfl rfl rfl rfl

theorem changeHeap_tends (change : Heap H → Heap H) :
    w.Tends (changeHeap change : SessionM H W Unit) :=
  .modify fun _ holds => holds.edit rfl rfl rfl rfl

theorem changeJob_tends {change : Job → Job} (same : ∀ j, (change j).pending = j.pending) :
    w.Tends (changeJob change : SessionM H W Unit) :=
  .modify fun s holds => holds.edit rfl rfl rfl (same s.job)

theorem setFrames_tends (frames : Job → List Frame) :
    w.Tends (changeJob fun j => { j with frames := frames j } : SessionM H W Unit) :=
  changeJob_tends fun _ => rfl

theorem changeTop_tends (change : Frame → Frame) :
    w.Tends (changeJob fun j => j.changeTop change : SessionM H W Unit) :=
  changeJob_tends fun j => by unfold Job.changeTop; split <;> rfl

theorem drainChannel_tends : w.Tends (drainChannel : SessionM H W (List Value)) :=
  fun _ holds => holds.edit rfl rfl rfl rfl

theorem clearChannel_tends : w.Tends (clearChannel : SessionM H W Unit) :=
  drainChannel_tends.bind dispose_tends

theorem deliver_tends (values : List Value) : w.Tends (deliver values : SessionM H W Unit) :=
  changeJob_tends fun j => by split <;> rfl

theorem retire_tends (frame : Frame) (mask : UInt64) :
    w.Tends (retire frame mask : SessionM H W (List Value)) :=
  fun _ holds => holds.edit rfl rfl rfl rfl

theorem refuse_tends (vs : List Value) {e : Error} (mild : w.mild → e.lacksUnit = false) :
    w.Tends (dispose vs >>= fun _ => throw e : SessionM H W α) :=
  (dispose_tends vs).bind fun _ => .throw mild

/-! ### Errors -/

theorem abandon_tends (frame : Frame) : w.Tends (abandon frame : SessionM H W Unit) := by
  refine (retire_tends frame 0).bind fun _ => ?_
  cases frame.generator with
  | none => exact .pure _
  | some x => exact changeHeap_tends _

theorem abandonFrames_tends (frames : List Frame) :
    w.Tends (frames.forM abandon : SessionM H W Unit) := by
  induction frames with
  | nil => exact .pure _
  | cons f rest ih => exact (abandon_tends f).bind fun _ => ih

theorem abandonAll_tends : w.Tends (abandonAll : SessionM H W Unit) :=
  .get_bind fun s holds =>
    ((abandonFrames_tends s.job.frames).bind fun _ => setFrames_tends fun _ => []) s holds

theorem unwind_tends {e : Error} (mild : w.mild → e.lacksUnit = false) (frames : List Frame) :
    w.Tends (unwind e frames : SessionM H W Unit) := by
  induction frames with
  | nil => exact (setFrames_tends fun _ => []).bind fun _ => .throw mild
  | cons f rest ih =>
    unfold unwind
    split
    · exact (dispose_tends _).bind fun _ => (note_tends _ _).bind fun _ => setFrames_tends _
    · exact (dispose_tends _).bind fun _ => (setFrames_tends _).bind fun _ =>
        (dispose_tends _).bind fun _ => dispose_tends _
    · exact (abandon_tends f).bind fun _ => ih

theorem raise_tends {e : Error} (mild : w.mild → e.lacksUnit = false) :
    w.Tends (raise e : SessionM H W Unit) := by
  refine clearChannel_tends.bind fun _ => ?_
  split
  · exact (note_tends _ _).bind fun _ => abandonAll_tends.bind fun _ => .throw mild
  · exact .get_bind fun s holds => unwind_tends mild s.job.frames s holds

theorem teardown_tends : w.Tends (teardown : SessionM H W Unit) := by
  have rest : w.Tends (abandonAll >>= fun _ =>
      changeJob (fun j => { j with pending := none }) >>= fun _ =>
      clearChannel : SessionM H W Unit) :=
    abandonAll_tends.bind fun _ => Watch.Tends.bind
      (.modify fun _ holds => ⟨holds.lasts, holds.table, fun _ _ idle => by cases idle⟩)
      fun _ => clearChannel_tends
  refine .get_bind fun s holds => ?_
  simp only
  split
  · exact ((note_tends _ _).bind fun _ => rest) s holds
  · exact rest s holds

/-! ### Calls -/

theorem gatherArgs_tends (unit : CodeUnit) (args : List Value) :
    w.Tends (gatherArgs unit args : SessionM H W (List Value)) := by
  unfold gatherArgs
  split
  · exact (heap_tends (Heap.pack_tame _)).bind fun _ => .pure _
  · exact .pure _

theorem newFrame_tends (unit : CodeUnit) (args : List Value) (closure this : Value) :
    w.Tends (newFrame unit args closure this : SessionM H W Frame) := by
  unfold newFrame
  split
  · exact refuse_tends _ fun _ => rfl
  · exact .get_bind fun s holds => ((changeHeap_tends _).bind fun _ => (dispose_tends _).bind fun _ =>
      .pure _) s holds

theorem activate_tends (unit : CodeUnit) (frame : Frame) :
    w.Tends (activate unit frame : SessionM H W Unit) := by
  refine (note_tends _ _).bind fun _ => ?_
  split
  · refine .get_bind fun s holds => ?_
    cases s.machine.heap.alloc (.iterator (.ofFrame frame)) with
    | mk it heap =>
      refine (changeHeap_tends fun _ => heap).bind (fun _ => ?_) s holds
      split
      · exact (changeHeap_tends _).bind fun _ => deliver_tends _
      · exact .pure _
  · exact setFrames_tends _

theorem enter_tends (unit : CodeUnit) (closure this : Value) :
    w.Tends (enter unit closure this : SessionM H W Unit) := by
  intro s holds
  refine enter_rule (fun _ => ⟨fun _ => rfl, holds.edit rfl rfl rfl rfl⟩)
    (fun _ => ⟨fun _ => rfl, holds.edit rfl rfl rfl rfl⟩) fun _ => ?_
  refine Effect.Ensures.mono (gatherArgs_tends unit _ _ (holds.edit rfl rfl rfl rfl))
    (fun args t holds => ?_) fun _ t failed => ⟨failed.1, failed.2.edit rfl rfl rfl rfl⟩
  exact (newFrame_tends unit args closure this).bind (fun frame => activate_tends unit frame) t holds

theorem takeReply_tends {reply : HostReply} (mild : w.mild → reply.Mild) (call : HostCall H)
    (world : W) : w.Tends (takeReply (reply, call, world)) := by
  refine Watch.Tends.bind (.modify fun _ holds => holds.edit rfl rfl rfl rfl) fun _ => ?_
  cases reply with
  | finished => exact drainChannel_tends.bind deliver_tends
  | failed e => exact .throw mild
  | task t =>
    refine Watch.Tends.bind (.modify fun _ holds => ⟨holds.lasts, holds.table, ?_⟩)
      fun _ => note_tends _ _
    intro asked t' waits
    cases waits
    exact mild asked

theorem callHost_tends (replies : w.mild → host.Mild) (path : String) (function : H)
    (this : Value) : w.Tends (callHost host path function this) :=
  drainChannel_tends.bind fun _ => .get_bind fun s holds =>
    takeReply_tends (fun asked => replies asked _ _ _) _ _ s holds

theorem invokeValue_tends (replies : w.mild → host.Mild) (callee this : Value) :
    w.Tends (invokeValue host callee this) := by
  refine .get_bind fun s holds => ?_
  cases found : s.machine.heap.callableOf callee with
  | error e =>
    exact refuse_tends _ (fun _ => (s.machine.heap.tame_callableOf callee).mild e found) s holds
  | ok callable =>
    cases callable with
    | script unit captures => exact enter_tends unit callee this s holds
    | host path function =>
      exact ((dispose_tends _).bind fun _ => callHost_tends replies path function this) s holds

/-- A unit that is called by its name is there. -/
theorem invoke_tends (replies : w.mild → host.Mild) {target : CallTarget} (this : Value)
    (there : w.mild → ∀ name, target = .unit name → w.units.contains name) :
    w.Tends (invoke host target this) := by
  cases target with
  | value callee => exact invokeValue_tends replies callee this
  | path path =>
    refine .get_bind fun s holds => ?_
    simp only
    split
    · exact refuse_tends _ (fun _ => rfl) s holds
    · exact invokeValue_tends replies _ this s holds
  | unit name =>
    refine .get_bind fun s holds => ?_
    rw [holds.table]
    cases found : w.units.get? name with
    | some unit => exact enter_tends unit .null this s holds
    | none =>
      have missing : w.units.contains name = false := by
        rw [SortedMap.contains, found]
        rfl
      refine refuse_tends _ (fun asked => ?_) s holds
      simp [missing] at there
      exact absurd asked there

/-! ### Returns and generators -/

theorem holdExit_tends (frame : Frame) (rest : List Frame) (entry : Nat) (exit : Exit) :
    w.Tends (holdExit frame rest entry exit : SessionM H W Unit) := by
  have held : ∀ pending : PendingReturn, w.Tends (changeJob (fun j => { j with
      frames := { frame with pendingReturn := some pending, cursor := entry } :: rest }) >>=
        fun _ => dispose frame.returnedValues : SessionM H W Unit) := fun pending =>
    (setFrames_tends _).bind fun _ => dispose_tends _
  cases exit with
  | values => exact (drainChannel_tends.bind fun _ => .pure _).bind held
  | locals mask => exact (Watch.Tends.pure _).bind held

theorem handOver_tends (frame : Frame) (returned : List Value) :
    w.Tends (handOver frame returned : SessionM H W Unit) := by
  unfold handOver
  split
  · exact (dispose_tends _).bind fun _ => (changeHeap_tends _).bind fun _ => changeTop_tends _
  · exact deliver_tends _

theorem leave_tends (exit : Exit) : w.Tends (leave exit : SessionM H W Unit) := by
  refine .get_bind fun s holds => ?_
  cases s.job.frames with
  | nil => exact ⟨fun _ => rfl, holds⟩
  | cons frame rest =>
    simp only
    cases frame.diversion with
    | some entry => exact holdExit_tends frame rest entry exit s holds
    | none =>
      simp only
      refine Watch.Tends.bind (setFrames_tends fun _ => rest) (fun _ => ?_) s holds
      cases exit with
      | values =>
        exact drainChannel_tends.bind fun _ => (retire_tends _ _).bind fun _ =>
          handOver_tends _ _
      | locals mask => exact (retire_tends _ _).bind fun _ => handOver_tends _ _

theorem suspend_tends : w.Tends (suspend : SessionM H W Unit) := by
  refine .get_bind fun s holds => ?_
  cases s.job.frames with
  | nil => exact holds
  | cons frame rest =>
    simp only
    cases frame.generator with
    | none => exact ⟨fun _ => rfl, holds⟩
    | some x =>
      simp only
      refine Watch.Tends.bind (setFrames_tends fun _ => rest) (fun _ => drainChannel_tends.bind
        fun values => .get_bind fun s holds => ?_) s holds
      cases found : s.machine.heap.iteratorAt x with
      | ok it =>
        simp only
        exact ((changeHeap_tends _).bind fun _ => (dispose_tends _).bind fun _ =>
          changeTop_tends _) s holds
      | error e =>
        exact ⟨fun _ => (s.machine.heap.tame_iteratorAt x).mild e found, holds.edit rfl rfl rfl rfl⟩

theorem advance_tends (x : Handle) (exhausted : Nat) :
    w.Tends (advance x exhausted : SessionM H W Unit) := by
  intro s holds
  unfold advance
  rw [Effect.ensures_bind, Effect.ensures_get]
  split
  · exact ⟨fun _ => rfl, holds⟩
  rw [Effect.ensures_bind, Effect.ensures_liftM]
  cases found : s.machine.heap.iteratorAt x with
  | error e => exact ⟨fun _ => (s.machine.heap.tame_iteratorAt x).mild e found, holds⟩
  | ok it =>
    simp only
    split
    · exact ⟨fun _ => rfl, holds⟩
    cases it.resume with
    | mk away it =>
      cases away with
      | none => exact changeTop_tends _ s holds
      | some frame =>
        exact ((changeHeap_tends _).bind fun _ => (changeTop_tends _).bind fun _ =>
          setFrames_tends _) s holds

/-! ### Steps -/

theorem follow_tends (replies : w.mild → host.Mild) {flow : Flow}
    (finds : w.mild → flow.Finds w.units) : w.Tends (follow host flow) := by
  cases flow with
  | next => exact .pure _
  | jump target => exact changeTop_tends _
  | call target this =>
    exact invoke_tends replies this fun asked name same => finds asked name this (same ▸ rfl)
  | ret => exact leave_tends .values
  | returnLocals mask => exact leave_tends (.locals mask)
  | yield => exact suspend_tends
  | finalize => exact clearChannel_tends.bind fun _ => leave_tends .values
  | advance x exhausted => exact advance_tends x exhausted

theorem apply_tends (replies : w.mild → host.Mild) {flow : Flow}
    (finds : w.mild → flow.Finds w.units) (next : Nat) : w.Tends (apply host flow next) := by
  refine .get_bind fun s holds => ?_
  split
  · exact ⟨fun _ => rfl, holds⟩
  · exact ((changeTop_tends _).bind fun _ => follow_tends replies finds) s holds

/-- If errors are looked at, then the frame has to run a unit that finds what it names. -/
theorem executeStep_tends (replies : w.mild → host.Mild) (holds : w.Holds s) {f : Frame}
    (equipped : w.mild → f.deferral.Mild ∧ ∃ u, f.Runs u ∧ u.Finds w.units) :
    (executeStep host f).Ensures s (fun _ => w.Holds)
      fun e t => (w.mild → e.lacksUnit = false) ∧ w.Holds t := by
  unfold executeStep
  cases unit : f.unit with
  | none =>
    refine ⟨fun asked => ?_, holds⟩
    obtain ⟨-, u, runs, -⟩ := equipped asked
    cases runs.unit.symm.trans unit
  | some u =>
    simp only
    cases found : u.stepAt? f.cursor with
    | none =>
      simp only
      split
      · exact apply_tends replies (fun _ _ _ same => by cases same) _ s holds
      · rename_i inside
        refine ⟨fun asked => ?_, holds⟩
        obtain ⟨-, u', runs, -⟩ := equipped asked
        cases runs.unit.symm.trans unit
        exact absurd (runs.cursor.resolve_left (by simp [found])) inside
    | some step =>
      have acts : (Exec.action s.machine.units step.action).Ensures (context f s)
          (fun flow _ => w.mild → flow.Finds w.units) fun e _ => w.mild → e.lacksUnit = false := by
        by_cases asked : w.mild
        · obtain ⟨held, u', runs, finds⟩ := equipped asked
          cases runs.unit.symm.trans unit
          obtain ⟨targets, fusion, laid⟩ := runs.laid
          rw [holds.table]
          exact (Exec.action_finds laid (laid.mem_of_stepAt? found).1 finds runs held).mono
            (fun _ _ finds _ => finds) fun _ _ mild _ => mild
        · unfold Effect.Ensures
          split <;> exact fun mild => absurd mild asked
      have after : ∀ c : Context H, w.Holds (withContext c s) := fun c => by
        refine holds.edit rfl rfl rfl ?_
        simp only [withContext, Job.changeTop]
        split <;> rfl
      simp only [Effect.ensures_bind, Effect.ensures_get, Effect.ensures_onPart]
      exact acts.mono (fun _ c finds => apply_tends replies finds _ _ (after c))
        fun _ c mild => ⟨mild, after c⟩

theorem settle_tends {task : HostTask} (mild : w.mild → Mild task.result) :
    w.Tends (settle task : SessionM H W Unit) := by
  refine Watch.Tends.bind (.modify fun _ holds => ⟨holds.lasts, holds.table, fun _ _ idle => by
    cases idle⟩) fun _ => ?_
  cases failed : task.result with
  | ok values => exact drainChannel_tends.bind fun _ => deliver_tends _
  | error e => exact raise_tends fun asked => mild asked e failed

theorem tick_tends (replies : w.mild → host.Mild) (mode : Mode) (budget : Budget)
    (holds : w.Holds s) (equipped : w.mild → s.Equipped w.units) :
    (tick host mode budget).Ensures s (fun _ => w.Holds)
      fun e t => (w.mild → e.lacksUnit = false) ∧ w.Holds t := by
  refine tick_rule (fun task n waits _ _ => ?_) (fun task waits _ => ?_) (fun _ _ => ?_)
    (fun _ _ => holds) fun f rest _ frames _ => ?_
  · refine ⟨holds.lasts, holds.table, fun asked t same => ?_⟩
    cases same
    exact holds.task asked task waits
  · exact settle_tends (fun asked => holds.task asked task waits) s holds
  · exact holds.edit rfl rfl rfl rfl
  · rw [ensures_routing]
    refine (executeStep_tends replies holds fun asked => ?_).mono (fun _ _ holds => holds)
      fun e t failed => raise_tends failed.1 t failed.2
    exact equipped asked f (by simp [frames])

/-- Whatever a run came to, telling of it misses a unit only if the run did. -/
theorem conclude_tends (host : Host H W) (outcome : Except Error Outcome) (holds : w.Holds s) :
    (conclude host outcome).Ensures s (fun _ => w.Holds)
      fun e t => (w.mild → Mild outcome → e.lacksUnit = false) ∧ w.Holds t := by
  cases outcome with
  | ok outcome =>
    cases outcome with
    | completed values => exact note_tends .engine .debug s holds
    | _ => exact holds
  | error e =>
    simp only [conclude, Effect.ensures_bind]
    refine (teardown_tends s holds).mono (fun _ t holds => ?_) fun _ _ failed =>
      ⟨fun asked _ => failed.1 asked, failed.2⟩
    simp only [Effect.ensures_get, ensures_changeHeap, ensures_note]
    have noted := holds.lasts.note .engine .warn
    split
    · exact ⟨⟨noted.config, noted.notes⟩, holds.table, holds.task⟩
    · exact ⟨fun _ mild => t.machine.heap.uncaught_mild (mild e rfl), ⟨noted.config, noted.notes⟩,
        holds.table, holds.task⟩

/-! ### Starting a job -/

theorem start_tends (args : List Value) {call : SessionM H W Unit} (tends : w.Tends call) :
    w.Tends (start args call) := by
  refine (changeJob_tends ?_).bind fun _ => Watch.Tends.onFailure tends ?_
  · exact fun _ => rfl
  · exact fun _ holds => holds.edit rfl rfl rfl rfl

theorem startUnit_tends (unit : CodeUnit) (args : List Value) :
    w.Tends (startUnit unit args : SessionM H W Unit) :=
  start_tends args (enter_tends unit .null .null)

theorem startPath_tends (replies : w.mild → host.Mild) (path : String) (args : List Value) :
    w.Tends (startPath host path args) := by
  refine .get_bind fun s holds => ?_
  simp only
  split
  · exact start_tends args (invoke_tends replies .null (by simp)) s holds
  split
  · rename_i listed
    refine start_tends args (invoke_tends replies .null fun _ name same => ?_) s holds
    cases same
    exact holds.table ▸ listed
  · exact refuse_tends args (fun _ => rfl) s holds

end

end Session

end ScriptMachine
