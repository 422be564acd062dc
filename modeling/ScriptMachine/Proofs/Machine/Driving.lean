import ScriptMachine.Machine.Run
import ScriptMachine.Proofs.Effect

/-!
# Ticks and runs

What a tick does, one equation for each of the ways a job can stand: it waits for a task, it is out
of frames, its budget is spent, or it executes a step. A run is a tick and, unless that ended it, a
run; more fuel does not change a run that ends.
-/

set_option autoImplicit false

namespace ScriptMachine.Session

variable {H W : Type} {host : Host H W} {mode : Mode} {s t : Session H W}

/-! ## Ticks -/

def goesOn (budget : Budget) :
    EStateM.Result Error (Session H W) Unit → EStateM.Result Error (Session H W) Tick
  | .ok _ t => .ok (.running budget) t
  | .error e t => .error e t

theorem bind_running (op : SessionM H W Unit) (budget : Budget) (s : Session H W) :
    (op >>= fun _ => pure (Tick.running budget)) s = goesOn budget (op s) := by
  show EStateM.bind _ _ s = _
  simp only [EStateM.bind]
  cases op s <;> rfl

/-- The tick of a job that executes a step. -/
def act (host : Host H W) (frame : Frame) (budget : Budget) : SessionM H W Tick := do
  routing (executeStep host frame)
  return .running (budget.map (· - frame.cost))

theorem tick_poll {m : Machine H W} {j : Job} {task : HostTask} {polls : Nat} (budget : Budget)
    (waits : j.pending = some task) (unready : task.polls = polls + 1) :
    tick host .bounded budget ⟨m, j⟩ =
      .ok (.ended .halted) ⟨m, { j with pending := some { task with polls } }⟩ := by
  obtain ⟨frames, channel, pending⟩ := j
  obtain ⟨polls', result⟩ := task
  subst waits unready
  rfl

/-- A job that waits takes the result of its task, in a bounded run once the task is ready. -/
theorem tick_settle {m : Machine H W} {j : Job} {task : HostTask} (budget : Budget)
    (waits : j.pending = some task) (ready : mode = .bounded → task.polls = 0) :
    tick host mode budget ⟨m, j⟩ =
      goesOn (if mode = .bounded then budget else mode.stretch) (settle task ⟨m, j⟩) := by
  obtain ⟨frames, channel, pending⟩ := j
  obtain ⟨polls, result⟩ := task
  subst waits
  rw [← bind_running]
  cases mode with
  | bounded =>
    cases ready rfl
    rfl
  | _ => cases polls <;> rfl

theorem tick_done {m : Machine H W} (channel : List Value) (budget : Budget) :
    tick host mode budget ⟨m, ⟨[], channel, none⟩⟩ =
      .ok (.ended (.completed channel)) ⟨m, ⟨[], [], none⟩⟩ := by
  cases budget with
  | none => rfl
  | some b => cases b <;> rfl

def pause : Mode → Tick
  | .cooperative interval => .running (Mode.cooperative interval).stretch
  | _ => .ended .halted

theorem tick_spent {m : Machine H W} (frame : Frame) (rest : List Frame) (channel : List Value) :
    tick host mode (some 0) ⟨m, ⟨frame :: rest, channel, none⟩⟩ =
      .ok (pause mode) ⟨m, ⟨frame :: rest, channel, none⟩⟩ := by
  cases mode <;> rfl

theorem tick_act {m : Machine H W} (frame : Frame) (rest : List Frame) (channel : List Value)
    {budget : Budget} (left : budget ≠ some 0) :
    tick host mode budget ⟨m, ⟨frame :: rest, channel, none⟩⟩ =
      act host frame budget ⟨m, ⟨frame :: rest, channel, none⟩⟩ := by
  cases budget with
  | none => rfl
  | some b =>
    cases b with
    | zero => exact absurd rfl left
    | succ b => rfl

theorem act_eq (host : Host H W) (frame : Frame) (budget : Budget) (s : Session H W) :
    act host frame budget s =
      goesOn (budget.map (· - frame.cost)) (routing (executeStep host frame) s) :=
  bind_running ..

theorem ensures_goesOn {op : SessionM H W Unit} {tick : SessionM H W Tick} {budget : Budget}
    {post : Tick → Session H W → Prop} {fail : Error → Session H W → Prop}
    (same : tick s = goesOn budget (op s))
    (ensures : op.Ensures s (fun _ => post (.running budget)) fail) :
    tick.Ensures s post fail := by
  unfold Effect.Ensures at ensures ⊢
  rw [same]
  cases ran : op s <;> rw [ran] at ensures <;> exact ensures

theorem tick_rule {budget : Budget} {post : Tick → Session H W → Prop}
    {fail : Error → Session H W → Prop}
    (polls : ∀ task n, s.job.pending = some task → mode = .bounded → task.polls = n + 1 →
      post (.ended .halted) ⟨s.machine, { s.job with pending := some { task with polls := n } }⟩)
    (settles : ∀ task, s.job.pending = some task → (mode = .bounded → task.polls = 0) →
      (settle task).Ensures s
        (fun _ => post (.running (if mode = .bounded then budget else mode.stretch))) fail)
    (done : s.job.pending = none → s.job.frames = [] →
      post (.ended (.completed s.job.channel)) ⟨s.machine, { s.job with channel := [] }⟩)
    (spent : s.job.pending = none → budget = some 0 → post (pause mode) s)
    (steps : ∀ f rest, s.job.pending = none → s.job.frames = f :: rest → budget ≠ some 0 →
      (routing (executeStep host f)).Ensures s
        (fun _ => post (.running (budget.map (· - f.cost)))) fail) :
    (tick host mode budget).Ensures s post fail := by
  obtain ⟨m, frames, channel, pending⟩ := s
  cases pending with
  | some task =>
    by_cases ready : mode = .bounded → task.polls = 0
    · exact ensures_goesOn (tick_settle budget rfl ready) (settles task rfl ready)
    · obtain ⟨rfl, polled⟩ := Classical.not_imp.mp ready
      obtain ⟨n, polled⟩ := Nat.exists_eq_succ_of_ne_zero polled
      rw [Effect.ensures_of_eq_ok (tick_poll budget rfl polled)]
      exact polls task n rfl rfl polled
  | none =>
    cases frames with
    | nil =>
      rw [Effect.ensures_of_eq_ok (tick_done channel budget)]
      exact done rfl rfl
    | cons f rest =>
      by_cases left : budget = some 0
      · subst left
        rw [Effect.ensures_of_eq_ok (tick_spent f rest channel)]
        exact spent rfl rfl
      · exact ensures_goesOn ((tick_act f rest channel left).trans (act_eq ..))
          (steps f rest rfl rfl left)

/-- A blocking run gets no budget, and ends when no frame is left. -/
theorem tick_blocking {result : Tick} (ran : tick host .blocking none s = .ok result t) :
    result = .running none ∨
      ∃ values, result = .ended (.completed values) ∧ t.job.frames = [] := by
  have goes : (tick host .blocking none).Ensures s (fun result t => result = .running none ∨
      ∃ values, result = .ended (.completed values) ∧ t.job.frames = []) (fun _ _ => True) := by
    refine tick_rule (fun _ _ _ bounded => by cases bounded) (fun _ _ _ => ?_)
      (fun _ empty => .inr ⟨_, rfl, empty⟩) (fun _ spent => by cases spent) fun _ _ _ _ _ => ?_
    all_goals
      exact (Effect.ensures_true _ s).mono (fun _ _ _ => .inl rfl) fun _ _ _ => trivial
  exact (Effect.ensures_of_eq_ok ran).mp goes

theorem tick_running {budget : Budget} (ran : tick host .blocking none s = .ok (.running budget) t) :
    budget = none := by
  rcases tick_blocking ran with same | ⟨_, ended, -⟩
  · exact Tick.running.inj same
  · cases ended

theorem tick_bounded_running {budget : Nat} {left : Budget}
    (ran : tick host .bounded (some budget) s = .ok (.running left) t) : ∃ n, left = some n := by
  have goes : (tick host .bounded (some budget)).Ensures s
      (fun result _ => ∀ left, result = .running left → ∃ n, left = some n) (fun _ _ => True) := by
    refine tick_rule (fun _ _ _ _ _ _ same => by cases same) (fun _ _ _ => ?_)
      (fun _ _ _ same => by cases same) (fun _ _ _ same => by cases same) fun _ _ _ _ _ => ?_
    all_goals
      exact (Effect.ensures_true _ s).mono (fun _ _ _ _ same => ⟨_, (Tick.running.inj same).symm⟩)
        fun _ _ _ => trivial
  exact (Effect.ensures_of_eq_ok ran).mp goes left rfl

/-! ## Runs -/

def onward (host : Host H W) (mode : Mode) (n : Nat) :
    EStateM.Result Error (Session H W) Tick → Option (Except Error Outcome × Session H W)
  | .ok (.ended outcome) s => some (.ok outcome, s)
  | .ok (.running budget) s => drive host mode n budget s
  | .error e s => some (.error e, s)

theorem drive_succ (host : Host H W) (mode : Mode) (n : Nat) (budget : Budget) (s : Session H W) :
    drive host mode (n + 1) budget s = onward host mode n (tick host mode budget s) := by
  rw [drive]
  cases tick host mode budget s with
  | error e t => rfl
  | ok result t => cases result <;> rfl

theorem drive_mono {n m : Nat} (enough : n ≤ m) :
    ∀ {budget : Budget} {s : Session H W} {x : Except Error Outcome × Session H W},
      drive host mode n budget s = some x → drive host mode m budget s = some x := by
  induction n generalizing m with
  | zero =>
    intro budget s x ends
    cases ends
  | succ n ih =>
    intro budget s x ends
    obtain ⟨m, rfl⟩ : ∃ k, m = k + 1 := ⟨m - 1, by omega⟩
    rw [drive_succ] at ends ⊢
    cases ticked : tick host mode budget s with
    | error e t => simpa [onward, ticked] using ends
    | ok result t =>
      rw [ticked] at ends
      cases result with
      | ended outcome => exact ends
      | running budget => exact ih (by omega) ends

theorem drive_unique {n m : Nat} {budget : Budget} {x y : Except Error Outcome × Session H W}
    (one : drive host mode n budget s = some x) (two : drive host mode m budget s = some y) :
    x = y := by
  have most := drive_mono (Nat.le_max_left n m) one
  rw [drive_mono (Nat.le_max_right n m) two] at most
  exact (Option.some.inj most).symm

theorem run_unique {n m : Nat} {x y : Except Error Outcome × Session H W}
    (one : run host n s = some x) (two : run host m s = some y) : x = y := by
  obtain ⟨z, driven, rfl⟩ := Option.map_eq_some_iff.mp one
  obtain ⟨z', driven', rfl⟩ := Option.map_eq_some_iff.mp two
  cases drive_unique driven driven'
  rfl

/-- The ticks of a run that ends: it goes on from each of them but the last, which fails or ends
it. -/
inductive Drives (host : Host H W) (mode : Mode) :
    Budget → Session H W → Except Error Outcome × Session H W → Prop where
  | fails {budget : Budget} {s t : Session H W} {e : Error}
      (ticked : tick host mode budget s = .error e t) : Drives host mode budget s (.error e, t)
  | ends {budget : Budget} {s t : Session H W} {outcome : Outcome}
      (ticked : tick host mode budget s = .ok (.ended outcome) t) :
      Drives host mode budget s (.ok outcome, t)
  | goes {budget left : Budget} {s t : Session H W} {x : Except Error Outcome × Session H W}
      (ticked : tick host mode budget s = .ok (.running left) t) (rest : Drives host mode left t x) :
      Drives host mode budget s x

theorem drives_of_drive {n : Nat} {budget : Budget} {x : Except Error Outcome × Session H W}
    (ran : drive host mode n budget s = some x) : Drives host mode budget s x := by
  induction n generalizing budget s with
  | zero => cases ran
  | succ n ih =>
    rw [drive_succ] at ran
    cases ticked : tick host mode budget s with
    | error e t =>
      rw [ticked] at ran
      cases ran
      exact .fails ticked
    | ok result t =>
      rw [ticked] at ran
      cases result with
      | ended outcome =>
        cases ran
        exact .ends ticked
      | running left => exact .goes ticked (ih ran)

theorem Drives.keeps {I : Session H W → Prop} (ticks : ∀ budget, (tick host mode budget).Keeps I)
    {budget : Budget} {x : Except Error Outcome × Session H W} (drives : Drives host mode budget s x)
    (here : I s) : I x.2 := by
  induction drives with
  | fails ticked => exact (Effect.ensures_of_eq_error ticked).mp (ticks _ _ here)
  | ends ticked => exact (Effect.ensures_of_eq_ok ticked).mp (ticks _ _ here)
  | goes ticked _ ih => exact ih ((Effect.ensures_of_eq_ok ticked).mp (ticks _ _ here))

theorem drive_blocking_ends {n : Nat} {x : Except Error Outcome × Session H W}
    (ran : drive host .blocking n none s = some x) :
    (∃ e, x.1 = .error e) ∨ (∃ values, x.1 = .ok (.completed values)) ∧ x.2.job.frames = [] := by
  have drives := drives_of_drive ran
  generalize unlimited : (none : Budget) = budget at drives
  clear ran
  induction drives with
  | fails => exact .inl ⟨_, rfl⟩
  | ends ticked =>
    subst unlimited
    obtain ⟨values, same, empty⟩ := (tick_blocking ticked).resolve_left nofun
    exact .inr ⟨⟨values, congrArg Except.ok (Tick.ended.inj same)⟩, empty⟩
  | goes ticked _ ih =>
    subst unlimited
    exact ih (tick_running ticked).symm

/-- A host whose functions do nothing. -/
def idle : Host Unit Unit where
  call _ c w := (.finished, c, w)
  report _ w := w

end ScriptMachine.Session

namespace ScriptMachine.Machine

variable {H W : Type}

/-! ## Moving an iterator on -/

def resumed (host : Host H W) (fuel : Nat) (s : Session H W) :
    Option (Except Error Bool × Machine H W) :=
  (Session.run host fuel s).map fun (result, t) =>
    match result with
    | .ok (.completed values) => (.ok true, t.machine.dispose values)
    | .ok _ => (.ok false, t.machine)
    | .error e => (.error e, t.machine)

theorem generator_eq (host : Host H W) (fuel : Nat) (x : Handle) (m : Machine H W) :
    nextValue.generator host fuel x m =
      match Session.advance x 0 ⟨m, {}⟩ with
      | .ok _ s => resumed host fuel s
      | .error e s => some (.error e, s.machine) := by
  unfold nextValue.generator
  simp only [Fueled.bind_apply, inNewJob, Fueled.onLarger, Fueled.lift_apply, Effect.outcome]
  cases Session.advance x 0 ⟨m, {}⟩ with
  | error e s => rfl
  | ok _ s =>
    unfold resumed
    simp only
    cases Session.run host fuel s with
    | none => rfl
    | some r =>
      obtain ⟨result, t⟩ := r
      cases result with
      | error e => rfl
      | ok outcome => cases outcome <;> rfl

def shown (x : Handle) (m : Machine H W) : Except Error (Option Value) :=
  (m.heap.iteratorAt x).map fun it =>
    if it.state = .active then some ((it.current.head?.map Value.share).getD .null) else none

theorem bind_shown (op : Fueled (Machine H W) Bool) (x : Handle) (m : Machine H W) :
    (op >>= fun more =>
      if more = true then do
        let it ← (← get).heap.iteratorAt x
        return if it.state = .active then some ((it.current.head?.map Value.share).getD .null)
          else none
      else return none) m =
      (op m).map fun (result, m') =>
        (result.bind fun more => if more then shown x m' else .ok none, m') := by
  rw [Fueled.bind_apply]
  cases op m with
  | none => rfl
  | some r =>
    obtain ⟨result, m'⟩ := r
    cases result with
    | error e => rfl
    | ok more =>
      cases more with
      | false => rfl
      | true =>
        simp only [if_true, Fueled.bind_apply, Fueled.get_apply, Fueled.liftExcept_apply]
        unfold shown
        simp only [Option.map_some, Except.bind, if_true]
        cases m'.heap.iteratorAt x <;> rfl

theorem nextValue_eq (host : Host H W) (fuel : Nat) (v : Value) (m : Machine H W) :
    nextValue host fuel v m =
      match (Heap.iteratorHandle v).bind fun x => (m.heap.iteratorAt x).map (x, ·) with
      | .error e => some (.error e, m)
      | .ok (x, it) =>
        if it.state = .exhausted then some (.ok none, m)
        else
          ((if it.isGenerator then nextValue.generator host fuel x else nextValue.walk x) m).map
            fun (result, m') =>
              (result.bind fun more => if more then shown x m' else .ok none, m') := by
  unfold nextValue
  rw [Fueled.bind_apply, Fueled.liftExcept_apply]
  cases Heap.iteratorHandle v with
  | error e => rfl
  | ok x =>
    simp only [Fueled.bind_apply, Fueled.liftExcept_apply, Fueled.get_apply, Except.bind]
    cases m.heap.iteratorAt x with
    | error e => rfl
    | ok it =>
      simp only [Except.map]
      split
      · rfl
      · split
        · exact bind_shown ..
        · exact bind_shown ..

end ScriptMachine.Machine
