import ScriptMachine.Proofs.Machine.Fuel
import ScriptMachine.Proofs.Machine.Modes
import ScriptMachine.Proofs.Machine.Settings
import ScriptMachine.Runner.Execute

/-!
# The bounded mode of the runner

The runner gives slices to a job until one does not halt. A slice begins with a step, if there is
one to take, unless its budget is nothing; so the slices end whenever a run in one piece ends, and
the run leaves the same. No option asks for a budget of nothing, but a file with settings may, and
then the slices never end.
-/

set_option autoImplicit false

namespace ScriptMachine

namespace Session

variable {H W : Type} {host : Host H W} {s t : Session H W} {frame : Frame} {rest : List Frame}

def stepThen (host : Host H W) (frame : Frame) (fuel budget : Nat) : Fueled (Session H W) Outcome :=
  fun s =>
    match routing (executeStep host frame) s with
    | .ok _ t => runBounded host fuel (budget - frame.cost) t
    | .error e t => some ((conclude host (.error e)).outcome t)

/-- A slice of a job with a frame and no task begins with a step, unless its budget is nothing. -/
theorem runBounded_succ (idle : s.job.pending = none) (frames : s.job.frames = frame :: rest)
    (fuel budget : Nat) : runBounded host (fuel + 1) budget s =
      if budget = 0 then some (.ok .halted, s) else stepThen host frame fuel budget s := by
  obtain ⟨m, frames', channel, pending⟩ := s
  cases idle
  cases frames
  show (drive host .bounded (fuel + 1) (some budget) _).map _ = _
  rw [drive_succ]
  split
  · rename_i spent
    rw [spent, tick_spent]
    rfl
  · rename_i left
    rw [tick_act _ _ _ (by simpa using left), act_eq]
    unfold stepThen
    cases routing (executeStep host frame) ⟨m, ⟨frame :: rest, channel, none⟩⟩ <;> rfl

end Session

namespace Runner

open Session (runBounded runSlices)

variable {files : Files} {world : Console} {o : RunOptions} {s t : Session Binding Console}

/-! ## Settings -/

/-- The settings of a run come from a file that asks for slices of no instructions, and no option
overrides them. -/
def Stalls (files : Files) (o : RunOptions) : Prop :=
  o.budget = none ∧ ∃ path base, o.config = some path ∧ Config.ofFile files path = .ok base ∧
    base.defaultBudget = 0

def fileSettings (files : Files) (o : RunOptions) : Except Error Config :=
  match o.config with
  | some path => Config.ofFile files path
  | none => .ok {}

theorem settings_eq_ok {config : Config} (accepted : settings files o = .ok config) :
    ∃ base, fileSettings files o = .ok base ∧ o.budget ≠ some 0 ∧
      config.defaultBudget = o.budget.getD base.defaultBudget := by
  have same : settings files o = (fileSettings files o).bind fun base =>
      if o.budget = some 0 then .error (.plain "--budget must be at least 1")
      else .ok { base with
        defaultBudget := o.budget.getD base.defaultBudget
        fusion := base.fusion && !o.noFuse } := by
    unfold settings fileSettings
    cases o.config with
    | none =>
      simp only [pure_bind]
      split <;> rfl
    | some path =>
      cases Config.ofFile files path with
      | error e => rfl
      | ok base =>
        simp only [bind, Except.bind]
        split <;> rfl
  rw [same] at accepted
  obtain ⟨base, read, accepted⟩ := ok_of_bind accepted
  split at accepted
  · cases accepted
  · rename_i asked
    cases accepted
    exact ⟨base, read, asked, rfl⟩

theorem stalls_iff {config : Config} (accepted : settings files o = .ok config) :
    config.defaultBudget = 0 ↔ Stalls files o := by
  obtain ⟨base, read, asked, budget⟩ := settings_eq_ok accepted
  rw [budget]
  unfold Stalls
  cases given : o.budget with
  | some n =>
    have positive : n ≠ 0 := by
      rintro rfl
      exact asked given
    simp [positive]
  | none =>
    simp only [Option.getD_none, true_and]
    unfold fileSettings at read
    constructor
    · intro nothing
      cases path : o.config with
      | none =>
        rw [path] at read
        cases read
        cases nothing
      | some path' =>
        rw [path] at read
        exact ⟨path', base, rfl, read, nothing⟩
    · rintro ⟨path', base', path, read', nothing⟩
      rw [path] at read
      simp only at read
      rw [read'] at read
      cases read
      exact nothing

/-! ## Slices -/

theorem slices_succ (stepFuel budget fuel : Nat) (s : Session Binding Console) :
    slices stepFuel budget (fuel + 1) s =
      match runBounded Binding.host stepFuel budget s with
      | some (.ok .halted, t) => slices stepFuel budget fuel t
      | some (.ok outcome, t) =>
        some (.ok outcome, { t with machine := t.machine.note .runner .debug })
      | result => result := by
  rw [slices, Fueled.bind_apply]
  cases runBounded Binding.host stepFuel budget s with
  | none => rfl
  | some x =>
    obtain ⟨result, t⟩ := x
    cases result with
    | error e => rfl
    | ok outcome => cases outcome <;> rfl

def Noted (s : Session Binding Console) : Prop :=
  (Topic.runner, Severity.debug) ∈ s.machine.journal.notes

theorem slices_of_runSlices {stepFuel budget calls : Nat}
    {x : Except Error Outcome × Session Binding Console}
    (noted : Noted x.2) (ended : x.1 ≠ .ok .halted) :
    ∀ {fuel : Nat} {s : Session Binding Console}, calls ≤ fuel →
      runSlices Binding.host stepFuel (fun _ => budget) calls s = some x →
      slices stepFuel budget fuel s = some x := by
  induction calls with
  | zero =>
    intro fuel s _ ran
    cases ran
  | succ calls ih =>
    intro fuel s enough ran
    obtain ⟨fuel, rfl⟩ : ∃ k, fuel = k + 1 := ⟨fuel - 1, by omega⟩
    rw [slices_succ]
    simp only [runSlices] at ran
    cases ticked : runBounded Binding.host stepFuel budget s with
    | none =>
      rw [ticked] at ran
      cases ran
    | some y =>
      obtain ⟨result, t⟩ := y
      rw [ticked] at ran
      cases result with
      | error e => exact ran
      | ok outcome =>
        have still : ∀ u : Session Binding Console, Noted u →
            { u with machine := u.machine.note .runner .debug } = u := by
          intro u noted
          simp only [Machine.note, Journal.note_of_mem noted]
        cases outcome with
        | halted => exact ih (by omega) ran
        | completed values =>
          cases ran
          simp only
          rw [still t noted]
        | aborted =>
          cases ran
          simp only
          rw [still t noted]

theorem slices_stall {frame : Frame} {rest : List Frame} (idle : s.job.pending = none)
    (frames : s.job.frames = frame :: rest) (stepFuel fuel : Nat) :
    slices stepFuel 0 fuel s = none := by
  induction fuel with
  | zero => rfl
  | succ fuel ih =>
    rw [slices_succ]
    cases stepFuel with
    | zero => rfl
    | succ stepFuel =>
      rw [Session.runBounded_succ idle frames]
      exact ih

/-! ## Whole runs -/

theorem register_lasts {m : RunnerMachine} : Binding.register.Keeps m.Lasts :=
  .forM fun b _ => Machine.registerHost_lasts b.path b true

theorem ensures_load (fuel : Nat) (program : Program) (m : RunnerMachine) :
    (load fuel o program).Ensures m
      (fun _ t => m.Lasts t ∧ (Topic.runner, Severity.debug) ∈ t.journal.notes)
      fun _ t => m.Lasts t := by
  refine (Fueled.ensures_bind ..).mpr ((Fueled.Keeps.lift register_lasts m (.refl m)).mono
    (fun _ k lasts => ?_) fun _ _ lasts => lasts)
  have loads : ((Machine.load Binding.host fuel program.modules).within
      ("loading " ++ o.file)).Keeps m.Lasts := (Machine.load_lasts fuel program.modules).within _
  refine (Fueled.ensures_bind ..).mpr ((loads k lasts).mono (fun _ l lasts => ?_)
    fun _ _ lasts => lasts)
  rintro r t ⟨⟩
  exact ⟨lasts.note .runner .debug, Journal.mem_of_note ..⟩

theorem load_leads (fuel : Nat) (program : Program) :
    Fueled.Leads (fun _ => True) (load fuel o program) fun fuel => load fuel o program := by
  refine .after _ fun _ => ?_
  exact ((Machine.load_leads fuel program.modules).within _).andThen fun _ => .refl _

/-- Slices of a job come to the end that a run of it in one piece comes to. -/
theorem drive_leads (fuel : Nat) :
    Fueled.Leads (fun s => s.machine.config.defaultBudget ≠ 0 ∧ Noted s) (drive fuel .sync)
      fun fuel => drive fuel .bounded := by
  rintro s ⟨left, noted⟩ x ran
  have lasts : s.machine.Lasts x.2.machine :=
    Fueled.keeps_iff.mp (Session.runIn_lasts .blocking fuel none) s (.refl _) x ran
  obtain ⟨⟨r, t⟩, driven, rfl⟩ := Option.map_eq_some_iff.mp ran
  have ended : ((Session.conclude Binding.host r).outcome t).1 ≠ .ok .halted :=
    Session.conclude_ne_halted (Session.drive_ne_halted driven) t
  obtain ⟨calls, enough, sliced⟩ := Session.runSlices_of_blocking fuel _ rfl driven
    (fun _ => s.machine.config.defaultBudget) fun _ => Nat.one_le_iff_ne_zero.mpr left
  refine ⟨max calls enough, fun more bound => ?_⟩
  exact slices_of_runSlices (lasts.notes _ noted) ended (by omega) (sliced more (by omega))

theorem callEntry_leads (fuel : Nat) :
    Fueled.Leads (fun s => s.machine.config.defaultBudget ≠ 0 ∧ Noted s)
      (callEntry fuel { o with mode := .sync })
      fun fuel => callEntry fuel { o with mode := .bounded } := by
  refine (Fueled.Leads.refl _).bind (fun s here => ?_) fun _ =>
    ((drive_leads fuel).tryCatch _).andThen fun _ => .refl _
  obtain ⟨left, noted⟩ := here
  refine (Fueled.ensures_lift ..).mpr ((Session.startPath_lasts o.entry [] s (.refl _)).mono
    (fun _ t lasts => ?_) fun _ _ _ => trivial)
  exact ⟨lasts.config ▸ left, lasts.notes _ noted⟩

theorem runProgram_leads (fuel : Nat) (program : Program) :
    Fueled.Leads (fun m => m.config.defaultBudget ≠ 0)
      (runProgram fuel { o with mode := .sync } program)
      fun fuel => runProgram fuel { o with mode := .bounded } program := by
  have loaded : ∀ m : RunnerMachine, m.config.defaultBudget ≠ 0 → (load fuel o program).Ensures m
      (fun _ t => t.config.defaultBudget ≠ 0 ∧
        (Topic.runner, Severity.debug) ∈ t.journal.notes) fun _ _ => True := by
    intro m left
    refine (ensures_load fuel program m).mono (fun _ t done => ?_) fun _ _ _ => trivial
    exact ⟨done.1.config ▸ left, done.2⟩
  exact ((load_leads fuel program).mono fun _ _ => trivial).bind loaded fun _ =>
    (callEntry_leads fuel).onLarger fun _ here => here

theorem run_bounded_of_sync {fuel : Nat} {left : Execution} (positive : ¬ Stalls files o)
    (ran : run files world fuel { o with mode := .sync } = some left) :
    ∃ enough, ∀ fuel, enough ≤ fuel →
      run files world fuel { o with mode := .bounded } = some left := by
  have same : ∀ mode, settings files { o with mode } = settings files o := fun _ => rfl
  unfold run at ran ⊢
  simp only [same] at ran ⊢
  cases accepted : settings files o with
  | error e =>
    rw [accepted] at ran
    exact ⟨0, fun _ _ => ran⟩
  | ok config =>
    rw [accepted] at ran
    simp only at ran ⊢
    cases read : Program.ofFile files o.file with
    | error e =>
      rw [read] at ran
      exact ⟨0, fun _ _ => ran⟩
    | ok program =>
      rw [read] at ran
      simp only at ran ⊢
      obtain ⟨x, done, rfl⟩ := Option.map_eq_some_iff.mp ran
      have budget : config.defaultBudget ≠ 0 := fun nothing =>
        positive ((stalls_iff accepted).mp nothing)
      obtain ⟨enough, bounded⟩ := runProgram_leads fuel program _ budget x done
      exact ⟨enough, fun more bound =>
        congrArg (Option.map Execution.ofResult) (bounded more bound)⟩

/-- The session with which the slices of a run begin, once its program is loaded and the entry
function is called. -/
def begun (files : Files) (world : Console) (fuel : Nat) (o : RunOptions) :
    Option (Session Binding Console) :=
  match settings files o, Program.ofFile files o.file with
  | .ok config, .ok program =>
    match load fuel o program { config, world } with
    | some (.ok _, m) =>
      match Session.startPath Binding.host o.entry [] ⟨m, {}⟩ with
      | .ok _ s => some s
      | .error _ _ => none
    | _ => none
  | _, _ => none

theorem begun_eq_some {fuel : Nat} (begins : begun files world fuel o = some s) :
    ∃ config program m, settings files o = .ok config ∧ Program.ofFile files o.file = .ok program ∧
      load fuel o program { config, world } = some (.ok (), m) ∧
      Session.startPath Binding.host o.entry [] ⟨m, {}⟩ = .ok () s := by
  unfold begun at begins
  split at begins
  · rename_i config program accepted read
    split at begins
    · rename_i m loaded
      split at begins
      · rename_i t started
        cases begins
        exact ⟨config, program, m, accepted, read, loaded, started⟩
      · cases begins
    · cases begins
  · cases begins

theorem settings_of_begun {fuel : Nat} (begins : begun files world fuel o = some s) :
    settings files o = .ok s.machine.config := by
  obtain ⟨config, program, m, accepted, -, loaded, started⟩ := begun_eq_some begins
  have loads := ensures_load fuel program { config, world } _ _ loaded
  have starts := (Effect.ensures_of_eq_ok started).mp
    (Session.startPath_lasts o.entry [] ⟨m, {}⟩ (.refl m))
  rw [starts.config, loads.1.config]
  exact accepted

theorem drive_stalls {frame : Frame} {rest : List Frame} (idle : s.job.pending = none)
    (frames : s.job.frames = frame :: rest) (nothing : s.machine.config.defaultBudget = 0)
    (fuel : Nat) : drive fuel .bounded s = none := by
  show slices fuel s.machine.config.defaultBudget fuel s = none
  rw [nothing]
  exact slices_stall idle frames fuel fuel

theorem run_stalls {fuel' : Nat} (begins : begun files world fuel' o = some s) {frame : Frame}
    {rest : List Frame} (idle : s.job.pending = none) (frames : s.job.frames = frame :: rest)
    (stalls : Stalls files o) (fuel : Nat) :
    run files world fuel { o with mode := .bounded } = none := by
  have nothing := (stalls_iff (settings_of_begun begins)).mpr stalls
  obtain ⟨config, program, m, accepted, read, loaded, started⟩ := begun_eq_some begins
  have same : settings files { o with mode := .bounded } = settings files o := rfl
  unfold run
  simp only [same, accepted, read]
  refine Option.map_eq_none_iff.mpr ?_
  show (load fuel o program >>= fun _ => Machine.inNewJob _) _ = none
  rw [Fueled.bind_apply]
  cases again : load fuel o program { config, world } with
  | none => rfl
  | some x =>
    -- the load does not depend on the fuel
    obtain ⟨enough, one⟩ := load_leads fuel program _ trivial _ again
    obtain ⟨enough', two⟩ := load_leads fuel' program _ trivial _ loaded
    have equal := (one _ (Nat.le_max_left enough enough')).symm.trans
      (two _ (Nat.le_max_right enough enough'))
    cases equal
    refine Option.map_eq_none_iff.mpr ?_
    unfold callEntry
    rw [Fueled.bind_apply, Fueled.lift_apply, Effect.outcome, started]
    simp only
    rw [Fueled.bind_apply, Fueled.tryCatch_apply, drive_stalls idle frames nothing]

/-- What the bounded mode does. A run gets a budget of nothing if its file of settings asks for it
and no option overrides that, and in no other way. A slice of a job that has a frame and waits for
no task begins with a step, unless its budget is nothing; then it halts and leaves all as it was.
So a bounded run ends whenever a run in one piece does, and leaves the same, if the budget is
positive; otherwise it does not end once the entry function is called and is to take a step. -/
theorem bounded_progress (files : Files) (world : Console) (o : RunOptions) :
    (∀ fuel s, begun files world fuel o = some s →
      (s.machine.config.defaultBudget = 0 ↔ Stalls files o)) ∧
    (∀ (s : Session Binding Console) frame rest, s.job.pending = none →
      s.job.frames = frame :: rest → ∀ fuel budget, runBounded Binding.host (fuel + 1) budget s =
        if budget = 0 then some (.ok .halted, s)
        else Session.stepThen Binding.host frame fuel budget s) ∧
    (¬ Stalls files o → ∀ fuel left, run files world fuel { o with mode := .sync } = some left →
      ∃ enough, ∀ fuel, enough ≤ fuel →
        run files world fuel { o with mode := .bounded } = some left) ∧
    (Stalls files o → ∀ fuel s frame rest, begun files world fuel o = some s →
      s.job.pending = none → s.job.frames = frame :: rest →
      ∀ fuel, run files world fuel { o with mode := .bounded } = none) := by
  refine ⟨fun fuel s begins => ?_, fun s frame rest idle frames fuel budget => ?_,
    fun positive fuel left ran => ?_, fun stalls fuel s frame rest begins idle frames more => ?_⟩
  · exact stalls_iff (settings_of_begun begins)
  · exact Session.runBounded_succ idle frames fuel budget
  · exact run_bounded_of_sync positive ran
  · exact run_stalls begins idle frames stalls more

/-! A program that returns at once, with settings that ask for slices of no instructions. -/

def idleFiles : Files := fun path =>
  if path = "idle.toml" then .ok "default_budget = 0"
  else if path = "main.json" then .ok
    ("\x7b\"modules\": [\x7b\"name\": \"m\", \"functions\": ["
      ++ "\x7b\"name\": \"main\", \"code\": [\x7b\"op\": \"Return\"\x7d]\x7d]\x7d]\x7d")
  else .error (.plain "no such file")

def idleRun : RunOptions := { file := "main.json", config := some "idle.toml" }

theorem idle_run_stalls :
    ((run idleFiles {} 5 { idleRun with mode := .sync }).map fun left =>
        (left.printed, left.failure)) = some ("", none) ∧
      ∀ fuel, run idleFiles {} fuel { idleRun with mode := .bounded } = none := by
  refine ⟨by decide +kernel, fun fuel => ?_⟩
  have begins : (begun idleFiles {} 5 idleRun).map (fun s =>
      (s.job.depth, s.job.pending.isNone, s.machine.config.defaultBudget)) = some (1, true, 0) := by
    decide +kernel
  obtain ⟨s, begins, same⟩ := Option.map_eq_some_iff.mp begins
  simp only [Prod.mk.injEq, Option.isNone_iff_eq_none] at same
  obtain ⟨depth, idle, nothing⟩ := same
  cases frames : s.job.frames with
  | nil => simp [Job.depth, frames] at depth
  | cons frame rest =>
    have stalls := (stalls_iff (settings_of_begun begins)).mp nothing
    exact run_stalls begins idle frames stalls fuel

end Runner

end ScriptMachine
