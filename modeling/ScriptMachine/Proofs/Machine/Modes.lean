import ScriptMachine.Proofs.Machine.Driving

/-!
# The ways to run a job agree

A blocking run, a bounded run and a cooperative run tick alike but for their budgets and for what
they do about a task that is not ready. So a job that a blocking run brings to an end comes to the
same end in slices of any sizes, and with any interval. All progress is in the job: a slice that
halts leaves a job from which a blocking run still comes to that end, with less fuel, or with the
same fuel after a poll.
-/

set_option autoImplicit false

namespace ScriptMachine.Session

variable {H W : Type} {host : Host H W} {s : Session H W}
  {x : Except Error Outcome × Session H W}

/-- Bounded runs one after the other, with the budgets of a sequence, until one does not halt. -/
def runSlices (host : Host H W) (fuel : Nat) :
    (budgets : Nat → Nat) → (calls : Nat) → Fueled (Session H W) Outcome
  | _, 0 => Fueled.starved
  | budgets, calls + 1 => fun s =>
    match runBounded host fuel (budgets 0) s with
    | some (.ok .halted, s) => runSlices host fuel (fun i => budgets (i + 1)) calls s
    | result => result

def polls (s : Session H W) : Nat := (s.job.pending.map HostTask.polls).getD 0

/-! ## Blocking runs -/

theorem drive_ne_halted {n : Nat} (ran : drive host .blocking n none s = some x) :
    x.1 ≠ .ok .halted := by
  rcases drive_blocking_ends ran with ⟨e, failed⟩ | ⟨⟨values, done⟩, -⟩
  · simp [failed]
  · simp [done]

theorem conclude_ne_halted {r : Except Error Outcome} (h : r ≠ .ok .halted) (s : Session H W) :
    ((conclude host r).outcome s).1 ≠ .ok .halted := by
  have answers : (conclude host r).Answers (· ≠ .halted) := by
    unfold conclude
    match r, h with
    | .ok (.completed values), _ => exact Effect.Answers.bind fun _ => .pure (by simp)
    | .ok .aborted, _ => exact .pure (by simp)
    | .error e, _ =>
      refine Effect.Answers.bind fun _ => Effect.Answers.bind fun t => ?_
      generalize t.machine.heap.uncaught e = told
      refine Effect.Answers.bind fun _ => Effect.Answers.bind fun _ => Effect.Answers.bind fun u => ?_
      dsimp only
      split
      · exact Effect.Answers.bind fun _ => .pure (by simp)
      · exact .throw _
  intro halted
  unfold Effect.outcome at halted
  cases ran : conclude host r s with
  | ok outcome t =>
    rw [ran] at halted
    cases halted
    exact (Effect.ensures_of_eq_ok ran).mp (answers s) rfl
  | error e t =>
    rw [ran] at halted
    cases halted

/-- What a tick in some mode makes of a job that a blocking run with fuel `n + 1` brings to the end
`x`: the same end, or a job that a blocking run brings to it. A tick that pauses changes nothing,
and a poll only how many more are needed. -/
inductive Ticked (host : Host H W) (mode : Mode) (budget : Budget) (n : Nat)
    (x : Except Error Outcome × Session H W) (s : Session H W) : Prop where
  | ends (last : drive host mode 1 budget s = some x)
  | goes (left : Budget) (t : Session H W) (first : tick host mode budget s = .ok (.running left) t)
      (rest : drive host .blocking n none t = some x)
  | pauses (spent : budget = some 0) (first : tick host mode budget s = .ok (pause mode) s)
  | polls (t : Session H W) (bounded : mode = .bounded)
      (first : tick host mode budget s = .ok (.ended .halted) t) (fewer : t.polls < s.polls)
      (rest : drive host .blocking (n + 1) none t = some x)

theorem ticked_of_goesOn {n : Nat} {budget left : Budget} {mode : Mode}
    {result : EStateM.Result Error (Session H W) Unit}
    (ends : onward host .blocking n (goesOn none result) = some x)
    (same : tick host mode budget s = goesOn left result) : Ticked host mode budget n x s := by
  cases result with
  | ok _ t => exact .goes left t same ends
  | error e t => exact .ends (by rw [drive_succ, same]; exact ends)

theorem ticked_of_blocking (mode : Mode) (budget : Budget) {n : Nat}
    (ends : drive host .blocking (n + 1) none s = some x) : Ticked host mode budget n x s := by
  obtain ⟨m, frames, channel, pending⟩ := s
  have whole := ends
  rw [drive_succ] at ends
  cases pending with
  | some task =>
    rw [tick_settle none rfl (by simp)] at ends
    by_cases ready : mode = .bounded → task.polls = 0
    · exact ticked_of_goesOn ends (tick_settle budget rfl ready)
    · obtain ⟨rfl, polled⟩ := Classical.not_imp.mp ready
      obtain ⟨p, polled⟩ := Nat.exists_eq_succ_of_ne_zero polled
      refine .polls _ rfl (tick_poll budget rfl polled) (by simp [polls, polled]) ?_
      rw [drive_succ, tick_settle none rfl (by simp)]
      exact ends
  | none =>
    cases frames with
    | nil =>
      rw [tick_done] at ends
      exact .ends (by rw [drive_succ, tick_done]; exact ends)
    | cons f rest =>
      by_cases left : budget = some 0
      · subst left
        exact .pauses rfl (tick_spent f rest channel)
      · rw [tick_act _ _ _ (by simp), act_eq] at ends
        exact ticked_of_goesOn ends ((tick_act f rest channel left).trans (act_eq ..))

/-! ## Slices -/

/-- What a slice makes of a job that a blocking run with fuel `n` brings to the end `x`: the same
end, or a job from which a blocking run comes to it with less effort. -/
inductive Sliced (host : Host H W) (n budget : Nat) (x : Except Error Outcome × Session H W)
    (s : Session H W) : Prop where
  | ended (m : Nat) (ran : drive host .bounded m (some budget) s = some x)
  | halted (m : Nat) (t : Session H W) (k : Nat)
      (ran : drive host .bounded m (some budget) s = some (.ok .halted, t))
      (ends : drive host .blocking k none t = some x)
      (progress : k < n ∨ (k = n ∧ (budget = 0 ∨ t.polls < s.polls)))

theorem Sliced.tick {n budget budget' : Nat} {t : Session H W}
    (first : tick host .bounded (some budget) s = .ok (.running (some budget')) t)
    (rest : Sliced host n budget' x t) : Sliced host (n + 1) budget x s := by
  cases rest with
  | ended m ran => exact .ended (m + 1) (by rw [drive_succ, first]; exact ran)
  | halted m u k ran ends progress =>
    exact .halted (m + 1) u k (by rw [drive_succ, first]; exact ran) ends (.inl (by omega))

theorem sliced_of_blocking {n : Nat} :
    ∀ {s : Session H W} (budget : Nat), drive host .blocking n none s = some x →
      Sliced host n budget x s := by
  induction n with
  | zero =>
    intro s budget ends
    cases ends
  | succ n ih =>
    intro s budget ends
    cases ticked_of_blocking .bounded (some budget) ends with
    | ends last => exact .ended 1 last
    | goes left t first rest =>
      obtain ⟨budget', rfl⟩ := tick_bounded_running first
      exact .tick first (ih budget' rest)
    | pauses spent first =>
      exact .halted 1 s (n + 1) (by rw [drive_succ, first]; rfl) ends
        (.inr ⟨rfl, .inl (Option.some.inj spent)⟩)
    | polls t _ first fewer rest =>
      exact .halted 1 t (n + 1) (by rw [drive_succ, first]; rfl) rest (.inr ⟨rfl, .inr fewer⟩)

theorem runBounded_eq {m fuel budget : Nat} {r : Except Error Outcome} {t : Session H W}
    (ran : drive host .bounded m (some budget) s = some (r, t)) (enough : m ≤ fuel) :
    runBounded host fuel budget s = some ((conclude host r).outcome t) := by
  show (drive host .bounded fuel (some budget) s).map _ = _
  rw [drive_mono enough ran]
  rfl

/-- Slices bring a job to the end that a blocking run brings it to. The induction is on the fuel of
the blocking run, and for a fixed fuel on the polls that the task still needs. -/
theorem runSlices_of_blocking (n : Nat) :
    ∀ (polled : Nat) {s : Session H W} {r : Except Error Outcome} {t : Session H W},
      s.polls = polled → drive host .blocking n none s = some (r, t) →
      ∀ budgets : Nat → Nat, (∀ i, 1 ≤ budgets i) →
        ∃ calls enough, ∀ fuel, enough ≤ fuel →
          runSlices host fuel budgets calls s = some ((conclude host r).outcome t) := by
  induction n using Nat.strongRecOn with
  | ind n fewer =>
    intro polled
    induction polled using Nat.strongRecOn with
    | ind polled sooner =>
      intro s r t counted ends budgets positive
      cases sliced_of_blocking (budgets 0) ends with
      | ended m ran =>
        refine ⟨1, m, fun fuel enough => ?_⟩
        have done : ((conclude host r).outcome t).1 ≠ .ok .halted :=
          conclude_ne_halted (drive_ne_halted ends) t
        simp only [runSlices, runBounded_eq ran enough]
        cases concluded : (conclude host r).outcome t with
        | mk result u =>
          rw [concluded] at done
          match result, done with
          | .ok (.completed _), _ => rfl
          | .ok .aborted, _ => rfl
          | .error _, _ => rfl
      | halted m u k ran ends' progress =>
        have later : ∃ calls enough, ∀ fuel, enough ≤ fuel →
            runSlices host fuel (fun i => budgets (i + 1)) calls u =
              some ((conclude host r).outcome t) := by
          rcases progress with less | ⟨rfl, spent | polled'⟩
          · exact fewer k less _ rfl ends' _ fun i => positive (i + 1)
          · exact absurd (positive 0) (by omega)
          · exact sooner _ (counted ▸ polled') rfl ends' _ fun i => positive (i + 1)
        obtain ⟨calls, enough, rest⟩ := later
        refine ⟨calls + 1, max m enough, fun fuel bound => ?_⟩
        have first := runBounded_eq ran (Nat.le_trans (Nat.le_max_left m enough) bound)
        rw [show (conclude host (.ok .halted)).outcome u = (.ok .halted, u) from rfl] at first
        simp only [runSlices, first]
        exact rest fuel (Nat.le_trans (Nat.le_max_right m enough) bound)

/-! ## Intervals -/

theorem cooperative_of_blocking (interval : Nat) {n : Nat} :
    ∀ {s : Session H W} (budget : Budget), drive host .blocking n none s = some x →
      ∃ m, drive host (.cooperative interval) m budget s = some x := by
  induction n with
  | zero =>
    intro s budget ends
    cases ends
  | succ n ih =>
    intro s budget ends
    have goes : ∀ {budget left : Budget} {t : Session H W},
        tick host (.cooperative interval) budget s = .ok (.running left) t →
        drive host .blocking n none t = some x →
        ∃ k, drive host (.cooperative interval) k budget s = some x := by
      intro budget left t first rest
      obtain ⟨k, after⟩ := ih left rest
      exact ⟨k + 1, by rw [drive_succ, first]; exact after⟩
    cases ticked_of_blocking (.cooperative interval) budget ends with
    | ends last => exact ⟨1, last⟩
    | goes left t first rest => exact goes first rest
    | pauses _ first =>
      -- a fresh stretch is never spent, so one more tick is enough
      cases ticked_of_blocking (.cooperative interval) (Mode.cooperative interval).stretch ends with
      | ends last => exact ⟨2, by rw [drive_succ, first]; exact last⟩
      | goes left t second rest =>
        obtain ⟨k, after⟩ := goes second rest
        exact ⟨k + 1, by rw [drive_succ, first]; exact after⟩
      | pauses spent =>
        simp only [Mode.stretch, Option.some.injEq] at spent
        omega
      | polls _ bounded => cases bounded
    | polls _ bounded => cases bounded

/-- A job that a blocking run brings to its end is brought to the same end, with the same outcome or
error and in the same session, by bounded runs with any positive budgets after finitely many of
them, and by a cooperative run of any interval. -/
theorem run_modes_agree (host : Host H W) {fuel : Nat} {s : Session H W}
    (ends : run host fuel s = some x) :
    (∀ budgets : Nat → Nat, (∀ i, 1 ≤ budgets i) →
      ∃ calls enough, ∀ fuel, enough ≤ fuel → runSlices host fuel budgets calls s = some x) ∧
    (∀ interval : Nat, ∃ fuel, runIn host (.cooperative interval) fuel
      (Mode.cooperative interval).stretch s = some x) ∧
    ∃ fuel, runCooperative host fuel s = some x := by
  obtain ⟨⟨r, t⟩, driven, rfl⟩ := Option.map_eq_some_iff.mp ends
  have cooperative : ∀ interval : Nat, ∃ fuel, runIn host (.cooperative interval) fuel
      (Mode.cooperative interval).stretch s = some ((conclude host r).outcome t) := by
    intro interval
    obtain ⟨m, driven'⟩ := cooperative_of_blocking interval
      (Mode.cooperative interval).stretch driven
    exact ⟨m, by rw [runIn, driven']; rfl⟩
  exact ⟨fun budgets positive => runSlices_of_blocking fuel _ rfl driven budgets positive,
    cooperative, cooperative s.machine.config.yieldInterval⟩

def giveBack : CodeUnit :=
  Function.assemble { name := "giveBack", code := [{ op := .ret, int := 1 }] } [none] true

def waiting : Session Unit Unit :=
  ⟨{ world := () },
    { frames := [{ unit := some giveBack, capacity := 0 }]
      pending := some { polls := 2, result := .ok [.int 5] } }⟩

theorem run_modes_agree_waiting :
    ∃ t, run idle 3 waiting = some (.ok (.completed [.int 5]), t) ∧
      (∀ budgets : Nat → Nat, (∀ i, 1 ≤ budgets i) →
        ∃ calls enough, ∀ fuel, enough ≤ fuel →
          runSlices idle fuel budgets calls waiting = some (.ok (.completed [.int 5]), t)) ∧
      (∀ interval : Nat, ∃ fuel, runIn idle (.cooperative interval) fuel
        (Mode.cooperative interval).stretch waiting = some (.ok (.completed [.int 5]), t)) ∧
      ∃ fuel, runCooperative idle fuel waiting = some (.ok (.completed [.int 5]), t) := by
  have ends : ∃ t, run idle 3 waiting = some (.ok (.completed [.int 5]), t) := ⟨_, rfl⟩
  obtain ⟨t, ends⟩ := ends
  exact ⟨t, ends, run_modes_agree idle ends⟩

example : (runSlices idle 3 (fun _ => 1) 2 waiting).isNone = true ∧
    (runSlices idle 3 (fun _ => 1) 3 waiting).map (·.1.toOption) =
      some (some (.completed [.int 5])) := ⟨rfl, rfl⟩

end ScriptMachine.Session
