import ScriptMachine.Proofs.Exec.Arity
import ScriptMachine.Proofs.Heap.Packing
import ScriptMachine.Proofs.Machine.Deferred

/-!
# What callees and callers receive

Arguments and results pass through the channel of a job. A call instruction takes its operands off
the stack and leaves them there; what is called finds these and nothing else. A frame that is left
gives what it returns to the frame below, or leaves it as the result of the job.
-/

set_option autoImplicit false

namespace ScriptMachine

variable {H W : Type}

/-- The job with some values for its running frame, where nothing counts as `null`. Without a frame
they are its result. -/
def Job.given (j : Job) (values : List Value) : Job :=
  match j.frames with
  | [] => { j with channel := j.channel ++ values }
  | top :: rest =>
    { j with frames := top.pushAll (if values = [] then [.null] else values) :: rest }

theorem CodeUnit.accepts_iff {u : CodeUnit} {n : Nat} :
    u.accepts n ↔ u.fixedParams ≤ n ∧ (u.variadic = true ∨ n ≤ u.fixedParams) := by
  simp [accepts]

/-- Values are packed in a structure. If what the pools hand out holds nothing, and the values are
not more than there are words, then this is a new structure of just these values, in order. -/
def Heap.Packs (h : Heap H) (values : List Value) (v : Value) (k : Heap H) : Prop :=
  Heap.pack values h = .ok v k ∧
    (h.pools.structures.Clean → values.length ≤ 2 ^ 63 →
      ∃ x, v = .owned ⟨.struct, x⟩ ∧ k.Maps x (Structure.Contents.row values))

theorem Heap.pack_packs {h : Heap H} (accounted : h.Accounted []) (values : List Value) :
    (Heap.pack values : HeapM H Value).Ensures h (fun v k => h.Packs values v k)
      (fun _ _ => True) := by
  unfold Effect.Ensures
  split
  · rename_i v k packed
    refine ⟨packed, fun clean few => ?_⟩
    obtain ⟨x, answer, maps, -⟩ := (Effect.ensures_of_eq_ok packed).mp (maps_pack accounted clean few)
    exact ⟨x, answer, maps⟩
  · trivial

/-- The values that a call puts into the slots of a frame, from the first slot on. A variadic unit
packs those in a structure that are behind its other parameters. If it has no parameter at all then
it drops those that find no slot. -/
inductive CodeUnit.Binds (u : CodeUnit) (h : Heap H) (args : List Value) : List Value → Prop
  | fixed : u.variadic = false → args.length = u.params → Binds u h args args
  | packed {v : Value} {k : Heap H} : u.variadic = true → 0 < u.params →
      u.params - 1 ≤ args.length → h.Packs (args.drop (u.params - 1)) v k →
      Binds u h args (args.take (u.params - 1) ++ [v])
  | surplus : u.variadic = true → u.params = 0 → Binds u h args (args.take u.slots)

structure Frame.Opens (f : Frame) (u : CodeUnit) (values : List Value) : Prop where
  unit : f.unit = some u
  locals : f.locals = values ++ List.replicate (u.slots - values.length) .null
  stack : f.stack = []
  cursor : f.cursor = 0

def Host.Agree (host host' : Host H W) (args : List Value) : Prop :=
  ∀ (function : H) (call : HostCall H) (w : W), call.args = args →
    host.call function call w = host'.call function call w

namespace Session

def Idles (s t : Session H W) : Prop :=
  t.job.frames = s.job.frames ∧ t.job.pending = s.job.pending

inductive Receives (host : Host H W) (args : List Value) (s t : Session H W) : Prop
  | runs {u : CodeUnit} {values : List Value} {f : Frame} : u.generator = false →
      u.Binds s.machine.heap args values → f.Opens u values →
      t.job = { s.job with frames := f :: s.job.frames, channel := [] } → Receives host args s t
  /-- A new frame waits in a new iterator, which the caller gets. -/
  | waits {u : CodeUnit} {values : List Value} {f : Frame} {x : Handle} : u.generator = true →
      u.Binds s.machine.heap args values → f.Opens u values → t.machine.heap.parkedAt x = some f →
      t.job = Job.given { s.job with channel := [] } [.owned ⟨.iterator, x⟩] →
      Receives host args s t
  /-- A host function has ended; the caller gets what it returned. -/
  | answers {function : H} {call after : HostCall H} {w w' : W} : call.args = args →
      host.call function call w = (.finished, after, w') →
      t.job = Job.given { s.job with channel := [] } after.returned → Receives host args s t
  | pends {function : H} {call after : HostCall H} {w w' : W} {task : HostTask} :
      call.args = args → host.call function call w = (.task task, after, w') →
      t.job = { s.job with channel := after.returned, pending := some task } →
      Receives host args s t

variable {host host' : Host H W} {s t : Session H W} {f : Frame} {rest : List Frame}
  {args : List Value} {unit : CodeUnit}

theorem deliver_eq (values : List Value) (m : Machine H W) (j : Job) :
    deliver values ⟨m, j⟩ = .ok () ⟨m, j.given values⟩ := by
  obtain ⟨frames, channel, pending⟩ := j
  cases frames <;> cases values <;> rfl

/-! ## Frames of scripts -/

theorem gatherArgs_binds (accounted : s.machine.heap.Accounted [])
    (accepts : unit.accepts args.length = true) :
    (gatherArgs unit args).Ensures s
      (fun values t => t.job = s.job ∧ unit.Binds s.machine.heap args (values.take unit.slots))
      (fun _ t => t.job = s.job) := by
  have room : unit.params ≤ unit.slots := Nat.le_max_right _ _
  obtain ⟨enough, atMost⟩ := CodeUnit.accepts_iff.mp accepts
  unfold gatherArgs
  split
  · rename_i packs
    simp only [Bool.and_eq_true, decide_eq_true_eq] at packs
    obtain ⟨variadic, some⟩ := packs
    simp only [variadic, if_true, CodeUnit.fixedParams] at enough ⊢
    rw [Effect.ensures_bind]
    refine (Effect.ensures_onPart ..).mpr ((Effect.ensures_onPart ..).mpr ?_)
    refine (Heap.pack_packs accounted _).mono (fun v k packed => ⟨rfl, ?_⟩) fun _ _ _ => rfl
    have all : (args.take (unit.params - 1) ++ [v]).length ≤ unit.slots := by
      rw [List.length_append, List.length_take, List.length_singleton]
      omega
    rw [List.take_of_length_le all]
    exact .packed variadic some enough packed
  · rename_i plain
    refine ⟨rfl, ?_⟩
    cases variadic : unit.variadic with
    | true =>
      have none : unit.params = 0 := by simpa [variadic] using plain
      exact .surplus variadic none
    | false =>
      simp only [CodeUnit.fixedParams, variadic, Bool.false_eq_true, if_false, false_or]
        at enough atMost
      have count : args.length = unit.params := by omega
      rw [List.take_of_length_le (by omega)]
      exact .fixed variadic count

theorem newFrame_opens (values : List Value) (closure this : Value) :
    (newFrame unit values closure this).Ensures s
      (fun f t => t.job = s.job ∧ f.Opens unit (values.take unit.slots))
      (fun e t => t.job = s.job ∧ ∃ panic, unit.misfit? = some panic ∧ e = .ofPanic panic) := by
  refine newFrame_rule (fun panic misfit => ⟨rfl, panic, misfit, rfl⟩) fun _ drawn frames _ => ?_
  refine ⟨rfl, rfl, ?_, rfl, rfl⟩
  simp only [Frame.bindArgs, Frame.reset, List.length_replicate, List.drop_replicate,
    List.length_take]
  congr 2
  omega

theorem activate_job (accounted : s.machine.heap.Accounted []) (unit : CodeUnit) (f : Frame) :
    (activate unit f).Ensures s
      (fun _ t => (unit.generator = false ∧ t.job = { s.job with frames := f :: s.job.frames }) ∨
        (unit.generator = true ∧ ∃ x,
          t.machine.heap.parkedAt x = some { f with generator := some x } ∧
          t.job = s.job.given [.owned ⟨.iterator, x⟩]))
      (fun _ _ => False) := by
  refine activate_rule accounted (fun plain => .inl ⟨plain, rfl⟩) fun generates x _ _ found => ?_
  rw [Effect.ensures_of_eq_ok (deliver_eq _ _ _)]
  refine .inr ⟨generates, x, Heap.parkedAt_eq_some.mpr ⟨(Iterator.ofFrame f).bind x, ?_, rfl⟩, rfl⟩
  exact (Heap.object?_setObject ((found x).trans (if_pos rfl)) x).trans (if_pos rfl)

theorem enter_receives (accounted : s.machine.heap.Accounted []) (unit : CodeUnit)
    (closure this : Value) :
    (enter unit closure this).Ensures s (fun _ t => Receives host s.job.channel s t)
      (fun _ t => s.Idles t) := by
  refine enter_rule (fun _ => ⟨rfl, rfl⟩) (fun _ => ⟨rfl, rfl⟩) fun accepts => ?_
  let drained : Session H W := ⟨s.machine, { s.job with channel := [] }⟩
  have idles : ∀ {t : Session H W}, t.job = { s.job with channel := [] } → s.Idles t := by
    intro t same
    show t.job.frames = s.job.frames ∧ t.job.pending = s.job.pending
    rw [same]
    exact ⟨rfl, rfl⟩
  refine ((gatherArgs_binds (s := drained) accounted accepts).and
    (gatherArgs_stays (s := drained) accounted unit _)).mono (fun values t gathered => ?_)
      fun _ t failed => ?_
  · obtain ⟨⟨job, binds⟩, stays, -⟩ := gathered
    rw [Effect.ensures_bind]
    refine ((newFrame_opens values closure this).and
      (newFrame_fresh stays.heap.accounted unit values closure this)).mono (fun f u made => ?_)
        fun _ u failed => idles (failed.1.1.trans job)
    obtain ⟨⟨same, opens⟩, placed, -⟩ := made
    have job : u.job = { s.job with channel := [] } := same.trans job
    refine (activate_job placed.heap.accounted unit f).mono (fun _ v active => ?_)
      fun _ _ never => never.elim
    rw [job] at active
    rcases active with ⟨plain, runs⟩ | ⟨generates, x, parked, waits⟩
    · exact .runs plain binds opens runs
    · exact .waits (f := { f with generator := some x }) generates binds
        ⟨opens.unit, opens.locals, opens.stack, opens.cursor⟩ parked waits
  · exact idles failed.1

/-! ## Host functions -/

theorem callHost_receives {u : Session H W} (same : u.job = s.job) (path : String) (function : H)
    (this : Value) :
    (callHost host path function this).Ensures u (fun _ t => Receives host s.job.channel s t)
      (fun _ t => s.Idles t) := by
  unfold callHost
  rw [Effect.ensures_bind, ensures_drainChannel, Effect.ensures_bind, Effect.ensures_get, same]
  simp only
  let call : HostCall H :=
    { path, cursor := (s.job.frames.head?.map Frame.cursor).getD 0, this, args := s.job.channel
      heap := u.machine.heap }
  show (takeReply (host.call function call u.machine.world)).Ensures _ _ _
  cases ran : host.call function call u.machine.world with
  | mk reply left =>
    obtain ⟨after, w⟩ := left
    unfold takeReply
    rw [Effect.ensures_bind, Effect.ensures_modify]
    cases reply with
    | finished =>
      rw [Effect.ensures_bind, ensures_drainChannel, Effect.ensures_of_eq_ok (deliver_eq _ _ _)]
      exact .answers rfl ran rfl
    | failed e => exact ⟨rfl, rfl⟩
    | task task => exact .pends rfl ran rfl

theorem invokeValue_receives (accounted : s.machine.heap.Accounted []) (callee this : Value) :
    (invokeValue host callee this).Ensures s (fun _ t => Receives host s.job.channel s t)
      (fun _ t => s.Idles t) := by
  unfold invokeValue
  rw [Effect.ensures_bind, Effect.ensures_get]
  cases s.machine.heap.callableOf callee with
  | error e => exact ⟨rfl, rfl⟩
  | ok callable =>
    cases callable with
    | script unit captures => exact enter_receives accounted unit callee this
    | host path function => exact callHost_receives (by rfl) path function this

/-- Whatever is called gets what is in the channel, and the channel is empty afterwards unless a
task is left. -/
theorem invoke_receives (accounted : s.machine.heap.Accounted []) (target : CallTarget)
    (this : Value) :
    (invoke host target this).Ensures s (fun _ t => Receives host s.job.channel s t)
      (fun _ t => s.Idles t) := by
  cases target with
  | value callee => exact invokeValue_receives accounted callee this
  | path path =>
    unfold invoke
    rw [Effect.ensures_bind, Effect.ensures_get]
    simp only
    split
    · exact ⟨rfl, rfl⟩
    · exact invokeValue_receives accounted _ this
  | unit name =>
    unfold invoke
    rw [Effect.ensures_bind, Effect.ensures_get]
    split
    · exact enter_receives accounted _ .null this
    · exact ⟨rfl, rfl⟩

theorem get_bind_congr {α : Type} {next next' : Session H W → SessionM H W α}
    (same : next s s = next' s s) : (get >>= next) s = (get >>= next') s := same

theorem callHost_congr (agree : host.Agree host' s.job.channel) (path : String) (function : H)
    (this : Value) : callHost host path function this s = callHost host' path function this s := by
  show takeReply (host.call function _ _) _ = takeReply (host'.call function _ _) _
  rw [agree]
  rfl

theorem invokeValue_congr (agree : host.Agree host' s.job.channel) (callee this : Value) :
    invokeValue host callee this s = invokeValue host' callee this s := by
  unfold invokeValue
  refine get_bind_congr ?_
  cases s.machine.heap.callableOf callee with
  | error e => rfl
  | ok callable =>
    cases callable with
    | script unit captures => rfl
    | host path function =>
      exact callHost_congr (s := { s with machine := s.machine.dispose [callee] }) agree ..

theorem invoke_congr (agree : host.Agree host' s.job.channel) (target : CallTarget) (this : Value) :
    invoke host target this s = invoke host' target this s := by
  cases target with
  | value callee => exact invokeValue_congr agree callee this
  | unit name => rfl
  | path path =>
    unfold invoke
    refine get_bind_congr ?_
    by_cases unbound : (s.machine.globals.load path).isNull = true
    · simp only [unbound, if_true]
    · simp only [unbound, Bool.false_eq_true, if_false]
      exact invokeValue_congr agree _ this

end Session

/-! ## Call instructions -/

namespace Exec

variable {units : UnitTable} {c : Context H}

theorem pop_drawn {n : Nat} (enough : n + 1 ≤ c.frame.stack.length) :
    ∃ v, (pop : Exec H Value) (c.drawn n) = .ok v (c.drawn (n + 1)) := by
  obtain ⟨v, ran⟩ := draws_pop.2 (c.drawn n) (by rw [Context.drawn_length]; omega)
  refine ⟨v, ran.trans ?_⟩
  simp [Context.drawn, List.drop_drop]

def Passes (ins : Instruction) (c : Context H) (flow : Flow) (d : Context H) : Prop :=
  (∃ target this, flow = .call target this) ∧ ins.effect.1 ≤ c.frame.stack.length ∧
    d.frame = { c.frame with stack := c.frame.stack.drop ins.effect.1 } ∧
    d.channel = c.channel ++ (c.frame.stack.take ins.count).reverse

theorem single_passes (units : UnitTable) (r : Resolved) (calls : r.ins.op.calls)
    (c : Context H) :
    (single units r).Ensures c (Passes r.ins c)
      (fun _ d => ∃ stack, d.frame = { c.frame with stack }) := by
  have calls := Opcode.calls_iff.mp calls
  by_cases short : c.frame.stack.length < r.ins.effect.1
  · have known : r.ins.op = .makeClosure → (units.get? r.ins.name).isSome := fun closure => by
      simp [closure] at calls
    rw [Effect.ensures_of_eq_error (asks_single units r known c short), Context.remains]
    split
    · exact ⟨_, rfl⟩
    · exact ⟨_, rfl⟩
  have enough := Nat.not_lt.mp short
  have below : r.ins.op = .call ∨ r.ins.op = .callMethod → r.ins.effect.1 = r.ins.count + 1 := by
    rintro (op | op) <;> simp [Instruction.effect, op]
  have alone : r.ins.op = .callDirect ∨ r.ins.op = .callName → r.ins.effect.1 = r.ins.count := by
    rintro (op | op) <;> simp [Instruction.effect, op]
  have args : r.ins.count ≤ c.frame.stack.length := by
    rcases calls with op | op | op | op <;> simp_all <;> omega
  have direct : r.ins.effect.1 = r.ins.count → ∀ target,
      (callTarget target r.ins.count).Ensures c (Passes r.ins c)
        (fun _ d => ∃ stack, d.frame = { c.frame with stack }) := by
    intro all target
    unfold callTarget
    rw [Effect.ensures_bind, Effect.ensures_of_eq_ok (popN_eq args)]
    exact ⟨⟨_, _, rfl⟩, enough, by rw [all]; rfl, rfl⟩
  unfold single
  rcases calls with op | op | op | op <;> simp only [op]
  · have all := below (.inl op)
    obtain ⟨v, took⟩ := pop_drawn (all ▸ enough)
    rw [callValue, Effect.ensures_bind, Effect.ensures_of_eq_ok (popN_eq args),
      Effect.ensures_bind, Effect.ensures_of_eq_ok took]
    exact ⟨⟨_, _, rfl⟩, enough, by rw [all]; rfl, rfl⟩
  · have all := below (.inr op)
    obtain ⟨v, took⟩ := pop_drawn (all ▸ enough)
    rw [callMethod, Effect.ensures_bind, Effect.ensures_of_eq_ok (popN_eq args),
      Effect.ensures_bind, Effect.ensures_of_eq_ok took, Effect.ensures_bind, Effect.ensures_get]
    split
    · exact ⟨_, rfl⟩
    split
    · exact ⟨_, rfl⟩
    · exact ⟨⟨_, _, rfl⟩, enough, by rw [all]; rfl, rfl⟩
  · exact direct (alone (.inl op)) _
  · exact direct (alone (.inr op)) _

end Exec

def Frame.instructions (f : Frame) : List Instruction :=
  match f.unit.bind fun u => (u.stepAt? f.cursor).map u.span with
  | some span => span.map Resolved.ins
  | none => []

def Frame.calling (f : Frame) (ins : Instruction) : Frame :=
  { f with stack := f.stack.drop ins.effect.1, cursor := f.cursor + f.cost }

def Frame.arguments (f : Frame) (ins : Instruction) : List Value := (f.stack.take ins.count).reverse

namespace Session

variable {host host' : Host H W} {f : Frame} {m : Machine H W} {rest : List Frame} {u : CodeUnit}
  {ins : Instruction}

def Uncalled (f : Frame) (rest : List Frame) (t : Session H W) : Prop :=
  (∃ stack cursor, t.job.frames = { f with stack, cursor } :: rest) ∧ t.job.pending = none

theorem stride_passes (m : Machine H W) (rest : List Frame) (runs : f.Runs u)
    (covered : ins ∈ f.instructions) (calls : ins.op.calls) :
    (stride f).Ensures ⟨m, ⟨f :: rest, [], none⟩⟩
      (fun flow t => ∃ c, Exec.Passes ins ⟨m.heap, m.globals, f, []⟩ flow c ∧ t = around m rest c)
      (fun _ t => Uncalled f rest t) := by
  obtain ⟨targets, fusion, laid⟩ := runs.laid
  cases found : u.stepAt? f.cursor with
  | none => simp [Frame.instructions, runs.unit, found] at covered
  | some step =>
    have mem := (laid.mem_of_stepAt? found).1
    have listed : ins ∈ (u.span step).map Resolved.ins := by
      simpa [Frame.instructions, runs.unit, found] using covered
    obtain ⟨r, inside, rfl⟩ := List.mem_map.mp listed
    have same : Exec.action (H := H) m.units step.action = Exec.single m.units r :=
      funext ((laid.action_of_alone mem (by decide) rfl inside calls).2 m.units)
    simp only [stride, runs.unit, Option.bind_some, found, Effect.ensures_bind, Effect.ensures_get,
      Effect.ensures_onPart]
    rw [same]
    refine (Exec.single_passes m.units r calls _).mono (fun flow c passes => ⟨c, passes, rfl⟩)
      fun _ c failed => ?_
    obtain ⟨stack, same⟩ := failed
    exact ⟨⟨stack, f.cursor, congrArg (· :: rest) same⟩, rfl⟩

theorem executeStep_receives (runs : f.Runs u) (accounted : m.heap.Accounted [])
    (covered : ins ∈ f.instructions) (calls : ins.op.calls) :
    (executeStep host f).Ensures ⟨m, ⟨f :: rest, [], none⟩⟩
      (fun _ t => ins.effect.1 ≤ f.stack.length ∧ ∃ m' : Machine H W,
        Receives host (f.arguments ins)
          ⟨m', ⟨f.calling ins :: rest, f.arguments ins, none⟩⟩ t)
      (fun _ t => Uncalled f rest t) := by
  let s : Session H W := ⟨m, ⟨f :: rest, [], none⟩⟩
  rw [executeStep_eq_stride runs, Effect.ensures_bind]
  refine ((stride_passes m rest runs covered calls).and
    (stride_outlives (s := s) runs rfl accounted rfl)).mono (fun flow t strode => ?_)
      fun _ _ failed => failed.1
  obtain ⟨⟨c, ⟨⟨target, this, rfl⟩, enough, frame, channel⟩, rfl⟩, outlives, -⟩ := strode
  let called : Session H W :=
    ⟨{ m with heap := c.heap, globals := c.globals },
      ⟨f.calling ins :: rest, f.arguments ins, none⟩⟩
  have applied : apply host (.call target this) (f.cursor + f.cost) (around m rest c) =
      invoke host target this called := by
    show invoke host target this ⟨_, ⟨{ c.frame with cursor := _ } :: rest, c.channel, none⟩⟩ = _
    rw [frame, channel]
    rfl
  have received : (invoke host target this).Ensures called
      (fun _ t => Receives host (f.arguments ins) called t) (fun _ t => called.Idles t) :=
    invoke_receives (s := called) outlives.heap.accounted target this
  unfold Effect.Ensures
  rw [applied]
  exact received.mono (fun _ t receives => ⟨enough, _, receives⟩)
    fun _ t idles => ⟨⟨_, _, idles.1⟩, idles.2⟩

/-- Nothing else is passed on: whatever the embedding program does with other arguments makes no
difference to the step. -/
theorem executeStep_congr (m : Machine H W) (rest : List Frame) (runs : f.Runs u)
    (covered : ins ∈ f.instructions) (calls : ins.op.calls)
    (agree : host.Agree host' (f.arguments ins)) :
    executeStep host f ⟨m, ⟨f :: rest, [], none⟩⟩ =
      executeStep host' f ⟨m, ⟨f :: rest, [], none⟩⟩ := by
  have passes := stride_passes m rest runs covered calls
  rw [executeStep_eq_stride runs, executeStep_eq_stride runs]
  show EStateM.bind _ _ _ = EStateM.bind _ _ _
  unfold EStateM.bind
  cases strode : stride f ⟨m, ⟨f :: rest, [], none⟩⟩ with
  | error e t => rfl
  | ok flow t =>
    rw [Effect.ensures_of_eq_ok strode] at passes
    obtain ⟨c, ⟨⟨target, this, rfl⟩, -, -, channel⟩, rfl⟩ := passes
    exact invoke_congr (s := ⟨_, ⟨{ c.frame with cursor := _ } :: rest, c.channel, none⟩⟩)
      (channel ▸ agree) target this

end Session

end ScriptMachine
