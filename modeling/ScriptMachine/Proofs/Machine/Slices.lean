import ScriptMachine.Proofs.Machine.Driving
import ScriptMachine.Proofs.Machine.Transfers

/-!
# Slices end within their budget

A tick of a bounded run spends budget unless it takes the result of a task or its frame is not at a
step. Such a frame is left, or sent to its deferred blocks, which start with a step; or its error
takes frames away until one has a trap, which is used up, or deferred blocks. So the budget, the
task that is waited for, and the frames and traps of the stack decrease together, and every bounded
run ends. The steps that it executes fit its budget, but for the last one, which may go past it.
-/

set_option autoImplicit false

namespace ScriptMachine

def stackWeight (fs : List Frame) : Nat := fs.length + fs.countP fun f => f.trap.isSome

def Job.weight (j : Job) : Nat :=
  2 * stackWeight j.frames +
    match j.frames with
    | f :: _ => if f.cost = 0 then 1 else 0
    | [] => 0

theorem stackWeight_cons (f : Frame) (fs : List Frame) :
    stackWeight (f :: fs) = stackWeight fs + 1 + if f.trap.isSome then 1 else 0 := by
  simp only [stackWeight, List.length_cons, List.countP_cons]
  omega

theorem Job.weight_le (j : Job) : j.weight ≤ 2 * stackWeight j.frames + 1 := by
  unfold weight
  split
  · split <;> omega
  · omega

theorem Job.weight_cons {j : Job} {f : Frame} {fs : List Frame} (frames : j.frames = f :: fs) :
    j.weight = 2 * stackWeight (f :: fs) + if f.cost = 0 then 1 else 0 := by
  rw [weight, frames]

namespace Frame

theorem cost_of_diversion {f g : Frame} {entry : Nat} (code : f.Codes CodeUnit.Compiled)
    (diverted : f.diversion = some entry) (unit : g.unit = f.unit) (cursor : g.cursor = entry) :
    g.cost ≠ 0 := by
  unfold diversion deferEntry at diverted
  split at diverted
  · cases runs : f.unit with
    | none => simp [runs] at diverted
    | some u =>
      obtain ⟨fusion, compiled⟩ := code u runs
      obtain ⟨targets, laid⟩ := CodeUnit.laid_of_compile compiled
      simp only [runs, Option.bind_some] at diverted
      obtain ⟨step, found⟩ := Option.isSome_iff_exists.mp (laid.stepAt?_deferEntry diverted)
      have positive := laid.length_pos found
      simp only [cost, unit, runs, cursor, Option.bind_some, found]
      omega
  · cases diverted

theorem stepAt?_of_cost {f : Frame} {u : CodeUnit} (code : f.Codes CodeUnit.Compiled)
    (runs : f.unit = some u) (free : f.cost = 0) : u.stepAt? f.cursor = none := by
  cases found : u.stepAt? f.cursor with
  | none => rfl
  | some step =>
    obtain ⟨fusion, compiled⟩ := code u runs
    obtain ⟨targets, laid⟩ := CodeUnit.laid_of_compile compiled
    have positive := laid.length_pos found
    simp only [cost, runs, Option.bind_some, found] at free
    omega

end Frame

namespace Session

variable {H W : Type} {host : Host H W} {s t : Session H W} {f : Frame} {fs : List Frame}

/-! ## Ticks that cost nothing -/

def Lighter (fs : List Frame) (s : Session H W) : Prop :=
  s.job.pending = none ∧ s.job.weight ≤ 2 * stackWeight fs

/-- A stack that lost a frame or a trap is lighter, wherever its top stands. -/
theorem lighter_of_lt {gs : List Frame} (idle : s.job.pending = none) (frames : s.job.frames = gs)
    (less : stackWeight gs < stackWeight fs) : s.Lighter fs := by
  have bound := s.job.weight_le
  rw [frames] at bound
  exact ⟨idle, by omega⟩

theorem lighter_of_diversion {g : Frame} {entry : Nat} (idle : s.job.pending = none)
    (frames : s.job.frames = g :: fs) (code : f.Codes CodeUnit.Compiled)
    (diverted : f.diversion = some entry) (unit : g.unit = f.unit) (cursor : g.cursor = entry)
    (trap : g.trap = f.trap) : s.Lighter (f :: fs) := by
  refine ⟨idle, ?_⟩
  rw [Job.weight_cons frames, if_neg (Frame.cost_of_diversion code diverted unit cursor),
    stackWeight_cons, stackWeight_cons, trap]
  omega

theorem ensures_unwind_lighter (e : Error) :
    ∀ {fs : List Frame} {s : Session H W}, (∀ f ∈ fs, f.Codes CodeUnit.Compiled) →
      s.job.pending = none →
        (unwind e fs).Ensures s (fun _ => Lighter fs) (fun _ _ => True) := by
  intro fs
  induction fs with
  | nil => exact fun _ _ => trivial
  | cons f fs ih =>
    intro s code idle
    obtain ⟨top, rest⟩ := List.forall_mem_cons.mp code
    unfold unwind
    split
    · rename_i handler trap
      simp only [Effect.ensures_bind, ensures_dispose, ensures_note, ensures_changeJob]
      refine lighter_of_lt idle (show _ = f.trapped handler e :: fs from rfl) ?_
      rw [stackWeight_cons, stackWeight_cons, trap]
      simp [Frame.trapped]
    · rename_i entry _ diverted
      simp only [Effect.ensures_bind, ensures_dispose, ensures_changeJob]
      exact lighter_of_diversion (g := f.holdError entry e) idle rfl top diverted rfl rfl rfl
    · have lighter := stackWeight_cons f fs
      rw [Effect.ensures_bind]
      rw [Effect.ensures_of_eq_ok (abandon_eq f s.machine s.job)]
      refine (ih (s := ⟨s.machine.abandon [f], s.job⟩) rest idle).mono (fun _ t below => ?_)
        fun _ _ _ => trivial
      obtain ⟨idle, light⟩ := below
      exact ⟨idle, by omega⟩

theorem ensures_raise_lighter (e : Error) (code : ∀ f ∈ s.job.frames, f.Codes CodeUnit.Compiled)
    (idle : s.job.pending = none) :
    (raise e).Ensures s (fun _ => Lighter s.job.frames) (fun _ _ => True) := by
  unfold raise
  simp only [Effect.ensures_bind, clearChannel, ensures_drainChannel, ensures_dispose]
  split
  · simp only [Effect.ensures_bind, ensures_note]
    cases run : abandonAll (H := H) (W := W) _ with
    | ok a t => exact (Effect.ensures_of_eq_ok run).mpr trivial
    | error e t => exact (Effect.ensures_of_eq_error run).mpr trivial
  · exact ensures_unwind_lighter e code idle

theorem pushAll_trap (vs : List Value) (f : Frame) : (f.pushAll vs).trap = f.trap := by
  induction vs generalizing f with
  | nil => rfl
  | cons v vs ih => exact ih (f.push v)

theorem ensures_handOver_weight (returned : List Value) (idle : s.job.pending = none) :
    (handOver f returned).Ensures s (fun _ t => t.job.pending = none ∧
      stackWeight t.job.frames = stackWeight s.job.frames) (fun _ _ => False) := by
  obtain ⟨machine, frames, channel, pending⟩ := s
  unfold handOver
  cases f.generator with
  | none =>
    cases frames with
    | nil => exact ⟨idle, rfl⟩
    | cons top rest =>
      refine ⟨idle, ?_⟩
      rw [stackWeight_cons, stackWeight_cons, pushAll_trap]
  | some x =>
    cases frames with
    | nil => exact ⟨idle, rfl⟩
    | cons top rest =>
      refine ⟨idle, ?_⟩
      simp only [Job.changeTop]
      rw [stackWeight_cons, stackWeight_cons]
      cases top.onExhaust <;> rfl

theorem ensures_leave_lighter (frames : s.job.frames = f :: fs) (code : f.Codes CodeUnit.Compiled)
    (idle : s.job.pending = none) :
    (leave .values).Ensures s (fun _ => Lighter (f :: fs)) (fun _ _ => False) := by
  unfold leave
  simp only [Effect.ensures_bind, Effect.ensures_get, frames]
  cases diverted : f.diversion with
  | some entry =>
    exact lighter_of_diversion (g := { f with
      pendingReturn := some (.values s.job.channel), cursor := entry }) idle rfl code diverted rfl
      rfl rfl
  | none =>
    simp only [Effect.ensures_bind, ensures_changeJob, ensures_drainChannel, ensures_retire,
      Effect.ensures_pure]
    refine (ensures_handOver_weight s.job.channel (by exact idle)).mono (fun _ t handed => ?_)
      fun _ _ never => never
    obtain ⟨idle, same⟩ := handed
    refine lighter_of_lt idle rfl ?_
    rw [same, stackWeight_cons]
    show stackWeight fs < _
    omega

/-- A tick that costs nothing leaves the job lighter, unless it ends the run. -/
theorem ensures_step_lighter (frames : s.job.frames = f :: fs)
    (code : ∀ g ∈ f :: fs, g.Codes CodeUnit.Compiled) (idle : s.job.pending = none)
    (free : f.cost = 0) :
    (routing (executeStep host f)).Ensures s (fun _ => Lighter (f :: fs)) (fun _ _ => True) := by
  have top : f.Codes CodeUnit.Compiled := code f (List.mem_cons_self ..)
  have raised : ∀ e : Error, (raise e).Ensures s (fun _ => Lighter (f :: fs)) (fun _ _ => True) :=
    fun e => frames ▸ ensures_raise_lighter e (frames ▸ code) idle
  rw [ensures_routing]
  unfold executeStep
  cases runs : f.unit with
  | none => exact raised _
  | some u =>
    simp only [Frame.stepAt?_of_cost top runs free]
    split
    · -- the frame stands where it is put, so this is the return alone
      obtain ⟨machine, frames', channel, pending⟩ := s
      cases frames
      have left : (leave .values).Ensures _ (fun _ => Lighter (f :: fs)) (fun _ _ => False) :=
        ensures_leave_lighter rfl top idle
      exact left.mono (fun _ _ light => light) fun _ _ never => never.elim
    · exact raised _

/-! ## The measure of a slice -/

def waits (s : Session H W) : Nat := if s.job.pending.isSome then 1 else 0

theorem ensures_settle_idle (task : HostTask)
    (code : ∀ g ∈ s.job.frames, g.Codes CodeUnit.Compiled) :
    (settle task).Ensures s (fun _ t => t.job.pending = none) (fun _ _ => True) := by
  unfold settle
  simp only [Effect.ensures_bind, ensures_changeJob]
  cases task.result with
  | error e =>
    exact (ensures_raise_lighter (s := ⟨s.machine, { s.job with pending := none }⟩) e code
      rfl).mono (fun _ t light => light.1) fun _ _ _ => trivial
  | ok values =>
    simp only [Effect.ensures_bind, ensures_drainChannel]
    obtain ⟨machine, frames, channel, pending⟩ := s
    cases frames <;> rfl

theorem tick_lessens {budget : Nat} {left : Budget}
    (code : ∀ g ∈ s.job.frames, g.Codes CodeUnit.Compiled)
    (ran : tick host .bounded (some budget) s = .ok (.running left) t) :
    ∃ n, left = some n ∧ (n < budget ∨ n = budget ∧ (t.waits < s.waits ∨
      t.waits = s.waits ∧ t.job.weight < s.job.weight)) := by
  have lessens : (tick host .bounded (some budget)).Ensures s (fun result t => ∀ left,
      result = .running left → ∃ n, left = some n ∧ (n < budget ∨ n = budget ∧
        (t.waits < s.waits ∨ t.waits = s.waits ∧ t.job.weight < s.job.weight)))
      (fun _ _ => True) := by
    refine tick_rule (fun _ _ _ _ _ _ same => by cases same) (fun task pending _ => ?_)
      (fun _ _ _ same => by cases same) (fun _ _ _ same => by cases same)
      fun f fs pending frames left => ?_
    · refine (ensures_settle_idle task code).mono (fun _ t idle _ same => ?_) fun _ _ _ => trivial
      cases same
      exact ⟨budget, rfl, .inr ⟨rfl, .inl (by simp [waits, idle, pending])⟩⟩
    · by_cases free : f.cost = 0
      · refine (ensures_step_lighter frames (frames ▸ code) pending free).mono
          (fun _ t light _ same => ?_) fun _ _ _ => trivial
        cases same
        have heavy := Job.weight_cons frames
        rw [if_pos free] at heavy
        have bound := light.2
        exact ⟨budget, by simp [free], .inr ⟨rfl, .inr ⟨by simp [waits, light.1, pending],
          by omega⟩⟩⟩
      · refine (Effect.ensures_true _ s).mono (fun _ t _ _ same => ?_) fun _ _ _ => trivial
        cases same
        have positive : budget ≠ 0 := fun zero => left (congrArg some zero)
        exact ⟨budget - f.cost, rfl, .inl (by omega)⟩
  exact (Effect.ensures_of_eq_ok ran).mp lessens left rfl

/-- The heap, the units and the frames of a session have only code of units with `Q`. -/
structure Coded (Q : CodeUnit → Prop) (s : Session H W) : Prop where
  heap : s.machine.heap.Coded Q s.job.frames
  units : s.machine.units.Codes Q

theorem Coded.tick {Q : CodeUnit → Prop} (coded : s.Coded Q) (plain : host.Plain Q) {mode : Mode}
    {budget : Budget} {result : Tick} (ran : tick host mode budget s = .ok result t) :
    t.Coded Q := by
  have moved := (Effect.ensures_of_eq_ok ran).mp
    (ensures_tick (p := ⟨Q, False, True⟩) plain mode budget ⟨.refl, coded.heap, coded.units⟩
      (Or.inl trivial))
  exact ⟨moved.coded, moved.units⟩

theorem drive_bounded_ends {Q : CodeUnit → Prop} (compiled : ∀ u, Q u → u.Compiled)
    (plain : host.Plain Q) (budget : Nat) (s : Session H W) (coded : s.Coded Q) :
    ∃ fuel x, drive host .bounded fuel (some budget) s = some x := by
  cases ran : tick host .bounded (some budget) s with
  | error e t => exact ⟨1, _, by rw [drive_succ, ran]; rfl⟩
  | ok result t =>
    cases result with
    | ended outcome => exact ⟨1, _, by rw [drive_succ, ran]; rfl⟩
    | running left =>
      obtain ⟨n, rfl, less⟩ := tick_lessens
        (fun g mem u runs => compiled u (coded.heap.frames g mem u runs)) ran
      obtain ⟨fuel, x, ends⟩ := drive_bounded_ends compiled plain n t (coded.tick plain ran)
      exact ⟨fuel + 1, x, by rw [drive_succ, ran]; exact ends⟩
termination_by (budget, s.waits, s.job.weight)
decreasing_by
  simp only [Prod.lex_def]
  exact less

/-! ## The steps of a slice -/

def due (budget : Budget) (s : Session H W) : Option Step :=
  match s.job.pending, s.job.frames with
  | none, f :: _ => if budget = some 0 then none else f.unit.bind (·.stepAt? f.cursor)
  | _, _ => none

def executed (host : Host H W) (mode : Mode) : (fuel : Nat) → Budget → Session H W → List Step
  | 0, _, _ => []
  | fuel + 1, budget, s =>
    (s.due budget).toList ++
      match tick host mode budget s with
      | .ok (.running left) t => executed host mode fuel left t
      | _ => []

theorem due_spent : s.due (some 0) = none := by
  unfold due
  split
  · exact if_pos rfl
  · rfl

theorem budget_of_tick {budget : Nat} {left : Budget}
    (ran : tick host .bounded (some budget) s = .ok (.running left) t) :
    left = some (budget - ((s.due (some budget)).map Step.length).getD 0) := by
  have pays : (tick host .bounded (some budget)).Ensures s (fun result _ => ∀ left,
      result = .running left →
        left = some (budget - ((s.due (some budget)).map Step.length).getD 0))
      (fun _ _ => True) := by
    refine tick_rule (fun _ _ _ _ _ _ same => by cases same) (fun task pending _ => ?_)
      (fun _ _ _ same => by cases same) (fun _ _ _ same => by cases same)
      fun f fs pending frames left => ?_
    all_goals
      refine (Effect.ensures_true _ s).mono (fun _ t _ _ same => ?_) fun _ _ _ => trivial
      cases same
    · simp [due, pending]
    · rw [due, pending, frames]
      simp only [Frame.cost, if_neg left, Option.map_some]
      cases f.unit.bind (·.stepAt? f.cursor) <;> rfl
  exact (Effect.ensures_of_eq_ok ran).mp pays left rfl

theorem executed_succ (host : Host H W) (fuel : Nat) (budget : Budget) (s : Session H W) :
    ∃ rest, executed host .bounded (fuel + 1) budget s = (s.due budget).toList ++ rest ∧
      (rest = [] ∨ ∃ left t, tick host .bounded budget s = .ok (.running left) t ∧
        rest = executed host .bounded fuel left t) := by
  rw [executed]
  cases ran : tick host .bounded budget s with
  | error e t => exact ⟨[], rfl, Or.inl rfl⟩
  | ok result t =>
    cases result with
    | ended outcome => exact ⟨[], rfl, Or.inl rfl⟩
    | running left => exact ⟨_, rfl, Or.inr ⟨left, t, rfl, rfl⟩⟩

/-- Number of instructions that some steps are made of. -/
def covered : List Step → Nat
  | [] => 0
  | step :: steps => step.length + covered steps

theorem covered_executed_lt (fuel : Nat) :
    ∀ (budget : Nat) (s : Session H W), executed host .bounded fuel (some budget) s ≠ [] →
      covered (executed host .bounded fuel (some budget) s).dropLast < budget := by
  induction fuel with
  | zero => exact fun _ _ some => absurd rfl some
  | succ fuel ih =>
    intro budget s
    obtain ⟨rest, steps, onward⟩ := executed_succ host fuel (some budget) s
    have following : rest ≠ [] → covered rest.dropLast <
        budget - ((s.due (some budget)).map Step.length).getD 0 := by
      intro some
      obtain ⟨left, t, ran, rfl⟩ := onward.resolve_left some
      rw [budget_of_tick ran] at some ⊢
      exact ih _ t some
    rw [steps]
    cases now : s.due (some budget) with
    | none =>
      intro some
      have less := following (by simpa using some)
      simp only [now, Option.map_none, Option.getD_none] at less
      simpa using less
    | some step =>
      have positive : 0 < budget := by
        rcases Nat.eq_zero_or_pos budget with rfl | positive
        · rw [due_spent] at now
          cases now
        · exact positive
      intro _
      by_cases last : rest = []
      · subst last
        exact positive
      · have less := following last
        simp only [now, Option.map_some, Option.getD_some] at less
        rw [Option.toList_some, List.singleton_append, List.dropLast_cons_of_ne_nil last, covered]
        omega

theorem mem_executed {Q : CodeUnit → Prop} (plain : host.Plain Q) (fuel : Nat) :
    ∀ (budget : Budget) (s : Session H W), s.Coded Q →
      ∀ step ∈ executed host .bounded fuel budget s, ∃ u p, Q u ∧ u.stepAt? p = some step := by
  induction fuel with
  | zero => exact fun _ _ _ step mem => by cases mem
  | succ fuel ih =>
    intro budget s coded step mem
    obtain ⟨rest, steps, onward⟩ := executed_succ host fuel budget s
    rw [steps, List.mem_append] at mem
    rcases mem with now | later
    · rw [Option.mem_toList] at now
      unfold due at now
      split at now
      · rename_i f _ _ frames
        split at now
        · cases now
        · obtain ⟨u, runs, found⟩ := Option.bind_eq_some_iff.mp now
          refine ⟨u, _, coded.heap.frames f ?_ u runs, found⟩
          rw [frames]
          exact List.mem_cons_self ..
      · cases now
    · rcases onward with rfl | ⟨left, t, ran, rfl⟩
      · cases later
      · exact ih left t (coded.tick plain ran) step later

theorem covered_of_ones {steps : List Step} (ones : ∀ step ∈ steps, step.length = 1) :
    covered steps = steps.length := by
  induction steps with
  | nil => rfl
  | cons step steps ih =>
    obtain ⟨one, ones⟩ := List.forall_mem_cons.mp ones
    rw [covered, ih ones, one, List.length_cons, Nat.add_comm]

theorem plain_idle (Q : CodeUnit → Prop) : idle.Plain Q := fun _ _ _ => ⟨[], by simp, rfl⟩

end Session

end ScriptMachine
