import ScriptMachine.Proofs.Machine.Lives

/-!
# Deferred exits

An exit of a frame with an armed block is held back, and issued again when the blocks have run. How
often that can happen, and that nothing is lost on the way, is read off the moments of the frame: a
block is armed before control is let into it, and a frame outlives an exit only while one is armed.
-/

set_option autoImplicit false

namespace ScriptMachine

variable {H W : Type}

/-! ## Moments in order -/

namespace Moment

def arms (k : Nat) : Moment → Bool
  | armed j => j == k
  | _ => false

def enters (k : Nat) : Moment → Bool
  | entered j => j == k
  | _ => false

def exits : Moment → Bool
  | left _ => true
  | _ => false

/-- How often a frame comes from one exit to the next without control being let into a block in
between. `fresh` is false if an exit comes right before. -/
def idlePasses : (fresh : Bool) → List Moment → Nat
  | _, [] => 0
  | fresh, left _ :: ms => (if fresh then 0 else 1) + idlePasses false ms
  | _, entered _ :: ms => idlePasses true ms
  | fresh, _ :: ms => idlePasses fresh ms

end Moment

/-- No block is armed in some moments. -/
def NoArming (ms : List Moment) : Prop := ∀ k, Moment.armed k ∉ ms

namespace Deferral

variable {ms : List Moment} {d d' : Deferral} {k : Nat}

@[simp] theorem armed_after : (d.after (.armed k)).armed = d.armed.set k true ∧
    (d.after (.entered k)).armed = d.armed.set k false :=
  ⟨rfl, rfl⟩

@[simp] theorem armed_after_reissued : (d.after .reissued).armed = d.armed := by
  simp only [after]
  split <;> rfl

@[simp] theorem armed_after_left {departure : Departure} :
    (d.after (.left departure)).armed = d.armed := by cases departure <;> rfl

def charge (d : Deferral) (k : Nat) : Nat := if d.armed[k]? = some true then 1 else 0

theorem charge_after {m : Moment} (permits : d.Permits m) (k : Nat) :
    (if m.enters k then 1 else 0) + (d.after m).charge k ≤
      (if m.arms k then 1 else 0) + d.charge k := by
  have bounded : ∀ d : Deferral, d.charge k ≤ 1 := fun d => by
    unfold charge
    split <;> omega
  cases m with
  | armed j =>
    by_cases here : j = k
    · have most := bounded (d.after (.armed j))
      simp only [Moment.enters, Moment.arms, here, beq_self_eq_true, if_true] at most ⊢
      simp only [Bool.false_eq_true, if_false]
      omega
    · simp [Moment.enters, Moment.arms, charge, List.getElem?_set_ne here]
  | entered j =>
    by_cases here : j = k
    · subst here
      obtain ⟨inside, armed⟩ := List.getElem?_eq_some_iff.mp permits
      simp [Moment.enters, Moment.arms, charge, inside, armed]
    · simp [Moment.enters, Moment.arms, charge, List.getElem?_set_ne here, here]
  | reissued | left => simp [Moment.enters, Moment.arms, charge]

namespace Follows

theorem enters_le (k : Nat) : ∀ {d : Deferral}, d.Follows ms d' →
    ms.countP (Moment.enters k) ≤ ms.countP (Moment.arms k) + d.charge k := by
  induction ms with
  | nil => exact fun _ => Nat.zero_le _
  | cons m ms ih =>
    intro d follows
    have step := charge_after follows.1 k
    have later := ih follows.2
    rw [List.countP_cons, List.countP_cons]
    omega

/-- Without new arming, a frame is left at most once for each block that was armed, and once more
each time that it comes from one exit to the next without control being let into a block. -/
theorem exits_le : NoArming ms → ∀ (fresh : Bool) {d : Deferral}, d.Follows ms d' →
    (fresh = false → true ∈ d.armed) →
    ms.countP Moment.exits + (if fresh then 0 else 1) ≤
      d.armed.count true + Moment.idlePasses fresh ms := by
  induction ms with
  | nil =>
    intro _ fresh d _ armed
    cases fresh with
    | true => simp
    | false => simpa [Moment.idlePasses] using List.count_pos_iff.mpr (armed rfl)
  | cons m ms ih =>
    intro unarmed fresh d follows armed
    obtain ⟨permits, rest⟩ := follows
    have later := fun fresh =>
      ih (fun k mem => unarmed k (List.mem_cons_of_mem _ mem)) fresh rest
    rw [List.countP_cons]
    cases m with
    | armed k => exact absurd List.mem_cons_self (unarmed k)
    | entered k =>
      -- one armed block less pays for the next exit
      have here : d.armed[k]? = some true := permits
      obtain ⟨inside, value⟩ := List.getElem?_eq_some_iff.mp here
      have counted : (d.armed.set k false).count true + 1 = d.armed.count true := by
        have positive := List.count_pos_iff.mpr (List.mem_of_getElem? here)
        rw [List.count_set inside]
        simp [value]
        omega
      have later := later true (by simp)
      simp only [armed_after, Moment.exits, Moment.idlePasses] at later ⊢
      cases fresh <;> simp at later ⊢ <;> omega
    | reissued =>
      have later := later fresh (by simpa using armed)
      simpa [Moment.exits, Moment.idlePasses] using later
    | left departure =>
      have here : true ∈ d.armed := permits
      have later := later false (fun _ => by simpa using here)
      simp only [armed_after_left, Moment.exits, Moment.idlePasses] at later ⊢
      cases fresh <;> simp at later ⊢ <;> omega

theorem armed_of_left {departure : Departure} : NoArming ms → ∀ {d : Deferral}, d.Follows ms d' →
    .left departure ∈ ms → true ∈ d.armed := by
  induction ms with
  | nil => exact fun _ _ _ mem => absurd mem List.not_mem_nil
  | cons m ms ih =>
    intro unarmed d follows mem
    have later := ih (fun k mem => unarmed k (List.mem_cons_of_mem _ mem)) follows.2
    rcases List.mem_cons.mp mem with rfl | later'
    · exact follows.1
    cases m with
    | armed k => exact absurd List.mem_cons_self (unarmed k)
    | entered k => exact List.mem_of_getElem? follows.1
    | reissued | left => simpa using later later'

theorem split {ns : List Moment} : ∀ {d : Deferral}, d.Follows (ms ++ ns) d' →
    ∃ e, d.Follows ms e ∧ e.Follows ns d' := by
  induction ms with
  | nil => exact fun follows => ⟨_, rfl, follows⟩
  | cons m ms ih =>
    intro d follows
    obtain ⟨e, first, second⟩ := ih follows.2
    exact ⟨e, ⟨follows.1, first⟩, second⟩

theorem held : NoExit ms → .reissued ∉ ms → ∀ {d : Deferral}, d.Follows ms d' →
    d'.returns = d.returns ∧ d'.error = d.error := by
  induction ms with
  | nil =>
    intro _ _ d same
    cases same
    exact ⟨rfl, rfl⟩
  | cons m ms ih =>
    intro exits reissued d follows
    have later := ih (fun departure mem => exits departure (List.mem_cons_of_mem _ mem))
      (fun mem => reissued (List.mem_cons_of_mem _ mem)) follows.2
    cases m with
    | armed | entered => exact later
    | reissued => exact absurd List.mem_cons_self reissued
    | left departure => exact absurd List.mem_cons_self (exits departure)

end Follows

end Deferral

theorem Frame.diversion_of_idle {f : Frame} (idle : true ∉ f.defers) : f.diversion = none := by
  have unarmed : f.hasArmedDefers = false := by simpa [hasArmedDefers] using idle
  simp [diversion, unarmed]

namespace Session

variable {host : Host H W} {m : Machine H W} {f : Frame} {rest : List Frame} {u : CodeUnit}

/-! ## Issuing an exit again -/

theorem executeStep_deferEnd (runs : f.Runs u) {ins : Instruction}
    (before : f.instruction? = some ins) (ends : ins.op = .deferEnd) (channel : List Value) :
    executeStep host f ⟨m, ⟨f :: rest, channel, none⟩⟩ =
      arrived host m rest (f.cursor + f.cost) (Exec.reissue ⟨m.heap, m.globals, f, channel⟩) := by
  obtain ⟨targets, fusion, laid⟩ := runs.laid
  have code : u.code[f.cursor]? = some ins := by
    simpa [Frame.instruction?, runs.unit] using before
  have inside : ¬ u.code.length ≤ f.cursor :=
    Nat.not_le.mpr (List.getElem?_eq_some_iff.mp code).1
  obtain ⟨step, found⟩ := Option.isSome_iff_exists.mp (runs.cursor.resolve_right inside)
  obtain ⟨mem, start⟩ := laid.mem_of_stepAt? found
  obtain ⟨r, covered, rfl⟩ := laid.covers_start mem (start ▸ code)
  obtain ⟨-, acts⟩ := laid.action_of_alone mem Fusion.folded_defers rfl covered (by rw [ends]; rfl)
  have same : Exec.single m.units r ⟨m.heap, m.globals, f, channel⟩ =
      Exec.reissue ⟨m.heap, m.globals, f, channel⟩ := by
    rw [← Exec.endDefer_eq, Exec.single]
    simp only [ends]
  have ran := executeStep_eq host m rest (c := ⟨m.heap, m.globals, f, channel⟩) runs.unit found
  rw [acts, same, start] at ran
  have cost : f.cost = step.length := by simp [Frame.cost, runs.unit, found]
  rw [cost]
  exact ran

theorem leave_values_eq (undiverted : f.diversion = none) (plain : f.generator = none)
    (vs : List Value) :
    leave .values ⟨m, ⟨f :: rest, vs, none⟩⟩ =
      .ok () ⟨{ m with heap := (m.heap.retire f 0).2 }, match rest with
        | [] => { channel := vs }
        | caller :: below =>
          { frames := caller.pushAll (if vs = [] then [.null] else vs) :: below }⟩ := by
  refine Effect.eq_ok_of_ensures ?_
  unfold leave handOver
  simp only [Effect.ensures_bind, Effect.ensures_get, undiverted, ensures_changeJob,
    ensures_drainChannel, ensures_retire, Effect.ensures_pure, plain, deliver]
  refine ⟨trivial, ?_⟩
  cases rest with
  | nil => rfl
  | cons caller below => cases vs <;> rfl

theorem tick_outcome {channel : List Value} {mode : Mode} {budget : Budget}
    (left : budget ≠ some 0) :
    ((tick host mode budget).outcome ⟨m, ⟨f :: rest, channel, none⟩⟩).2 =
      ((routing (executeStep host f)).outcome ⟨m, ⟨f :: rest, channel, none⟩⟩).2 := by
  simp only [Effect.outcome, tick_act f rest channel left, act_eq]
  cases routing (executeStep host f) ⟨m, ⟨f :: rest, channel, none⟩⟩ <;> rfl

section

variable {ins : Instruction} {mode : Mode} {budget : Budget}

theorem tick_rethrows (runs : f.Runs u) (before : f.instruction? = some ins)
    (ends : ins.op = .deferEnd) (left : budget ≠ some 0) {e : Error}
    (held : f.pendingError = some e) :
    ((tick host mode budget).outcome ⟨m, ⟨f :: rest, [], none⟩⟩).2 =
      ((raise e).outcome ⟨m, ⟨{ f with pendingError := none } :: rest, [], none⟩⟩).2 := by
  rw [tick_outcome left]
  simp only [Effect.outcome, routing, executeStep_deferEnd runs before ends, Exec.reissue, held,
    arrived]
  rfl

theorem tick_returns (runs : f.Runs u) (before : f.instruction? = some ins)
    (ends : ins.op = .deferEnd) (left : budget ≠ some 0) (accounted : m.heap.Accounted [])
    (exit : Exit) {vs : List Value} (quiet : exit = .values ∨ vs = [])
    (errorless : f.pendingError = none) (held : f.pendingReturn = some (exit.held vs)) :
    ((tick host mode budget).outcome ⟨m, ⟨f :: rest, [], none⟩⟩).2 =
      ((leave exit).outcome ⟨m,
        ⟨{ f with pendingReturn := none, cursor := f.cursor + f.cost } :: rest, vs, none⟩⟩).2 := by
  let issuing : Session H W :=
    ⟨m, ⟨{ f with pendingReturn := none, cursor := f.cursor + f.cost } :: rest, vs, none⟩⟩
  have leaves : executeStep host f ⟨m, ⟨f :: rest, [], none⟩⟩ = leave exit issuing := by
    rw [executeStep_deferEnd runs before ends, Exec.reissue, errorless, held]
    cases exit with
    | values => rfl
    | locals mask =>
      cases quiet.resolve_left (by simp)
      rfl
  have never := leave_outlives (s := issuing) accounted (by simp [issuing]) exit quiet
  rw [tick_outcome left]
  simp only [Effect.outcome, routing, leaves]
  cases returned : leave exit issuing with
  | ok a t => rfl
  | error e t => exact ((Effect.ensures_of_eq_error returned).mp never).elim

end

end Session

namespace System

variable {host : Host H W} {s t u : System H W} {pl pl' : Place} {ms ns : List Moment}
  {f g : Frame}

namespace Life

/-- From the turn that makes it, control is let into a block of a frame at most once each time that
the block is armed. -/
theorem enters_le_arms (plain : host.Plain CodeUnit.Compiled) (underway : Underway host s)
    {deed : Deed} (turn : Turn host deed s t) (born : ∀ pl₀, ¬ Goes s t pl₀ pl)
    (life : Life host t pl ms u pl') (k : Nat) :
    ms.countP (Moment.enters k) ≤ ms.countP (Moment.arms k) := by
  obtain ⟨f, start⟩ := life.before
  obtain ⟨g, final⟩ := Option.isSome_iff_exists.mp life.after
  have fresh := turn.fresh plain (underway.running plain) (underway.quiet plain) born start
  have bound := (life.follows plain (underway.turn turn) start final).enters_le k
  have uncharged : f.deferral.charge k = 0 :=
    if_neg fun armed => fresh.armed (List.mem_of_getElem? armed)
  omega

theorem held_of_left (plain : host.Plain CodeUnit.Compiled) (underway : Underway host s)
    {departure : Departure} (life : Life host s pl (ms ++ .left departure :: ns) t pl')
    (after : t.frameAt pl' = some g) (exits : NoExit ns) (reissued : .reissued ∉ ns) :
    (∀ exit, departure = .returns exit → g.pendingReturn = some exit) ∧
      ∀ e, departure = .fails e → g.pendingReturn = none ∧ g.pendingError = some e := by
  obtain ⟨f, start⟩ := life.before
  obtain ⟨d, -, left⟩ := (life.follows plain underway start after).split
  have held := left.2.held exits reissued
  constructor
  · rintro exit rfl
    exact held.1
  · rintro e rfl
    exact held

end Life

/-- Without new arming, a frame outlives at most one exit for each of its blocks that was armed, and
one more each time that it comes from one exit to the next without control being let into a block.
An exit that it outlives sends it to its deferred blocks; once no block is armed, it outlives
none. -/
theorem deferred_exits_finish (plain : host.Plain CodeUnit.Compiled) (underway : Underway host s)
    (life : Life host s pl ms t pl') (before : s.frameAt pl = some f)
    (after : t.frameAt pl' = some g) (unarmed : NoArming ms) :
    ms.countP Moment.exits ≤ f.defers.count true + Moment.idlePasses true ms ∧
    ∀ deed u departure, Turn host deed t u → .left departure ∈ t.moments host deed pl' →
      NoArming (t.moments host deed pl') →
      (∀ pl'' k, Goes t u pl' pl'' → u.frameAt pl'' = some k → k.deferEntry = some k.cursor) ∧
      (true ∉ g.defers → u.frameAt pl' = none ∧ ∀ pl'', ¬ Goes t u pl' pl'') := by
  have here := life.underway underway
  refine ⟨?_, fun deed u departure turn left unarmed' => ?_⟩
  · exact (life.follows plain underway before after).exits_le unarmed true (by simp)
  have aged := fun {pl'' k} (goes : Goes t u pl' pl'') (found : u.frameAt pl'' = some k) =>
    turn.aged plain (here.running plain) (here.quiet plain) goes after found
  have outlives : ∀ {pl''}, Goes t u pl' pl'' → (u.frameAt pl'').isSome → true ∈ g.defers := by
    intro pl'' goes found
    obtain ⟨k, found⟩ := Option.isSome_iff_exists.mp found
    exact (aged goes found).follows.armed_of_left unarmed' left
  refine ⟨fun pl'' k goes found => ?_, fun idle => ⟨?_, fun pl'' goes => ?_⟩⟩
  · exact (aged goes found).diverted.resolve_left fun none => none departure left
  · cases found : u.frameAt pl' with
    | none => rfl
    | some k =>
      have goes : Goes t u pl' pl' := .stays (by simp [after]) (by simp [found])
      exact absurd (outlives goes (by simp [found])) idle
  · exact absurd (outlives goes goes.after) idle

/-! A function that arms a block that no instruction checks. -/

def unchecked : Function :=
  { name := "main", code := [{ op := .deferArm, int := 1 }, { op := .deferCheck }] }

def uncheckedUnit : CodeUnit := unchecked.assemble [none, some 2] true

theorem compile_unchecked : unchecked.compile true = .ok uncheckedUnit :=
  Function.compile_eq_ok_iff.mpr ⟨rfl, [none, some 2], rfl, rfl⟩

def ticks (n : Nat) : List Act := List.replicate n (.tick .blocking none)

/-- A job that was started with a unit and did so many ticks. -/
def ticked (unit : CodeUnit) (n : Nat) : System Unit Unit :=
  performs Session.idle 0 (.callUnit unit [] :: ticks n) ⟨{ world := () }, [{}]⟩

theorem underway_ticked {unit : CodeUnit} (compiled : unit.Compiled) (n : Nat) :
    Underway Session.idle (ticked unit n) := by
  have units : UnitTable.Sound {} := fun _ _ found => by cases found
  refine .performs (fun act mem job => ?_) (.turn (.start { world := () } rfl units) (.spawn _))
    Nat.one_pos
  rcases List.mem_cons.mp mem with rfl | mem
  · exact compiled
  · rw [List.eq_of_mem_replicate mem]
    trivial

theorem life_ticked {unit : CodeUnit} {n k : Nat} (jobs : 0 < (ticked unit n).jobs.length)
    (stays : remains Session.idle 0 (.stack 0 0) (ticks k) (ticked unit n)) :
    Life Session.idle (ticked unit n) (.stack 0 0)
      (history Session.idle 0 (.stack 0 0) (ticks k) (ticked unit n))
      ((ticked unit n).performs Session.idle 0 (ticks k)) (.stack 0 0) := by
  refine .performs (fun act mem job => ?_) jobs stays
  rw [List.eq_of_mem_replicate mem]
  trivial

/-- One block is armed, and two exits of the frame are diverted. -/
theorem diverted_again :
    unchecked.compile true = .ok uncheckedUnit ∧ Underway Session.idle (ticked uncheckedUnit 1) ∧
    ∃ f t ms, (ticked uncheckedUnit 1).frameAt (.stack 0 0) = some f ∧ f.unit = some uncheckedUnit ∧
      Life Session.idle (ticked uncheckedUnit 1) (.stack 0 0) ms t (.stack 0 0) ∧ NoArming ms ∧
      f.defers.count true < ms.countP Moment.exits := by
  have compiled : uncheckedUnit.Compiled := ⟨true, compile_unchecked⟩
  have moments : history Session.idle 0 (.stack 0 0) (ticks 4) (ticked uncheckedUnit 1) =
      [.left (.returns (.values [])), .left (.returns (.values []))] := rfl
  refine ⟨compile_unchecked, underway_ticked compiled 1, _, _, _, rfl, rfl,
    life_ticked (k := 4) ?_ ?_, ?_, ?_⟩
  · decide +kernel
  · decide +kernel
  · rw [moments]
    exact fun k => by simp
  · decide +kernel

/-! A function that returns a number with two blocks armed. -/

def sheltered : Function :=
  { name := "sheltered"
    code := [{ op := .deferArm }, { op := .deferArm, int := 1 }, { op := .pushInt, int := 7 },
      { op := .ret, int := 1 }, { op := .deferCheck }, { op := .deferEnd },
      { op := .deferCheck, int := 1 }, { op := .deferEnd }] }

def shelteredUnit : CodeUnit :=
  sheltered.assemble [none, none, none, none, some 6, none, some 8, none] true

theorem compile_sheltered : sheltered.compile true = .ok shelteredUnit :=
  Function.compile_eq_ok_iff.mpr
    ⟨rfl, [none, none, none, none, some 6, none, some 8, none], rfl, rfl⟩

theorem compiled_sheltered : shelteredUnit.Compiled := ⟨true, compile_sheltered⟩

theorem deferred_exits_finish_sheltered :
    let ms := history Session.idle 0 (.stack 0 0) (ticks 5) (ticked shelteredUnit 3)
    ms.countP Moment.exits = 2 ∧ ms.countP Moment.exits ≤ 2 + Moment.idlePasses true ms ∧
      (ticked shelteredUnit 9).frameAt (.stack 0 0) = none := by
  have passes : history Session.idle 0 (.stack 0 0) (ticks 5) (ticked shelteredUnit 3) =
      [.left (.returns (.values [.int 7])), .entered 0, .reissued,
        .left (.returns (.values [.int 7])), .entered 1] := rfl
  obtain ⟨bound, last⟩ := deferred_exits_finish (Session.plain_idle CodeUnit.Compiled)
    (underway_ticked compiled_sheltered 3)
    (life_ticked (k := 5) (by decide +kernel) (by decide +kernel)) rfl rfl
    (by rw [passes]; exact fun k => by simp)
  have turn : Turn Session.idle (.act 0 (.tick .blocking none)) (ticked shelteredUnit 8)
      (ticked shelteredUnit 9) := turn_perform rfl trivial
  have issues : (ticked shelteredUnit 8).moments Session.idle (.act 0 (.tick .blocking none))
      (.stack 0 0) = [.reissued, .left (.returns (.values [.int 7]))] := rfl
  have gone := last _ _ (.returns (.values [.int 7])) turn (issues ▸ by simp)
    (issues ▸ fun k => by simp)
  exact ⟨by rw [passes]; rfl, bound, (gone.2 (by decide +kernel)).1⟩

/-- Control is let into a deferred block at most once each time that the block is armed. An exit
that is held back stays as it is, whatever runs, until the frame issues it again or another exit
takes its place; the end of a deferred block issues exactly that exit again, an error before a
return. With no block armed the caller gets the values, or `null` if there are none. -/
theorem deferred_exits_deliver (plain : host.Plain CodeUnit.Compiled) :
    (∀ (s t u : System H W) (deed : Deed) (pl pl' : Place) (ms : List Moment) (k : Nat),
      Underway host s → Turn host deed s t → (∀ pl₀, ¬ Goes s t pl₀ pl) →
      Life host t pl ms u pl' →
      ms.countP (Moment.enters k) ≤ ms.countP (Moment.arms k)) ∧
    (∀ (s t : System H W) (pl pl' : Place) (ms : List Moment) (f g : Frame),
      Underway host s → Life host s pl ms t pl' →
      s.frameAt pl = some f → t.frameAt pl' = some g → NoExit ms → .reissued ∉ ms →
      g.pendingReturn = f.pendingReturn ∧ g.pendingError = f.pendingError) ∧
    (∀ (s t : System H W) (pl pl' : Place) (ms ns : List Moment) (departure : Departure)
      (g : Frame), Underway host s →
      Life host s pl (ms ++ .left departure :: ns) t pl' → t.frameAt pl' = some g →
      NoExit ns → .reissued ∉ ns →
      (∀ exit, departure = .returns exit → g.pendingReturn = some exit) ∧
      (∀ e, departure = .fails e → g.pendingReturn = none ∧ g.pendingError = some e)) ∧
    ∀ (s : System H W) (i : Nat) (f : Frame) (rest : List Frame) (channel : List Value)
      (ins : Instruction) (mode : Mode) (budget : Budget), Underway host s →
      s.jobs[i]? = some ⟨f :: rest, channel, none⟩ → f.instruction? = some ins →
      ins.op = .deferEnd → budget ≠ some 0 →
      let after := ((Session.tick host mode budget).outcome
        ⟨s.machine, ⟨f :: rest, channel, none⟩⟩).2
      let issuing (f : Frame) (channel : List Value) : Session H W :=
        ⟨s.machine, ⟨f :: rest, channel, none⟩⟩
      let f' := { f with pendingReturn := none, cursor := f.cursor + f.cost }
      (∀ e, f.pendingError = some e →
        after = ((Session.raise e).outcome (issuing { f with pendingError := none } [])).2) ∧
      (∀ vs, f.pendingError = none → f.pendingReturn = some (.values vs) →
        after = ((Session.leave .values).outcome (issuing f' vs)).2 ∧
        (true ∉ f.defers → f.generator = none → after.job = match rest with
          | [] => { channel := vs }
          | caller :: below =>
            { frames := caller.pushAll (if vs = [] then [.null] else vs) :: below })) ∧
      (∀ mask, f.pendingError = none → f.pendingReturn = some (.locals mask) →
        after = ((Session.leave (.locals mask)).outcome (issuing f' [])).2) := by
  refine ⟨?_, ?_, ?_, ?_⟩
  · intro s t u deed pl pl' ms k underway turn born life
    exact life.enters_le_arms plain underway turn born k
  · intro s t pl pl' ms f g underway life before after exits reissued
    exact (life.follows plain underway before after).held exits reissued
  · intro s t pl pl' ms ns departure g underway life after exits reissued
    exact life.held_of_left plain underway after exits reissued
  · intro s i f rest channel ins mode budget underway found before ends left after issuing f'
    have running := underway.running plain
    have mem := List.mem_of_getElem? found
    have accounted := running.heap.accounted
    obtain ⟨u, runs⟩ := running.frames _ mem f List.mem_cons_self
    -- the channel is empty between steps, so what is issued again is all that arrives
    obtain rfl : channel = [] := underway.quiet plain _ mem (by simp) rfl
    refine ⟨fun e held => Session.tick_rethrows runs before ends left held,
      fun vs errorless held => ?_, fun mask errorless held => ?_⟩
    · have returned : after = _ :=
        Session.tick_returns runs before ends left accounted .values (.inl rfl) errorless held
      refine ⟨returned, fun idle plain => ?_⟩
      have undiverted : f'.diversion = none := Frame.diversion_of_idle idle
      rw [returned, Effect.outcome, Session.leave_values_eq undiverted plain]
    · exact Session.tick_returns runs before ends left accounted (.locals mask) (.inr rfl)
        errorless held

theorem deferred_exits_deliver_sheltered :
    let ms := history Session.idle 0 (.stack 0 0) (ticks 8) (ticked shelteredUnit 0)
    ms.countP (Moment.enters 1) ≤ ms.countP (Moment.arms 1) ∧
    (∃ f, (ticked shelteredUnit 5).frameAt (.stack 0 0) = some f ∧
      f.pendingReturn = some (.values [.int 7])) ∧
    (ticked shelteredUnit 9).jobs = [{ channel := [.int 7] }] := by
  obtain ⟨entered, -, held, ends⟩ := deferred_exits_deliver (Session.plain_idle CodeUnit.Compiled)
  refine ⟨?_, ?_, ?_⟩
  · have unborn : ∀ pl, (⟨{ world := () }, [{}]⟩ : System Unit Unit).frameAt pl = none := by
      rintro (⟨i, n⟩ | x)
      · cases i <;> rfl
      · rfl
    have units : UnitTable.Sound {} := fun _ _ found => by cases found
    have called : Turn Session.idle (.act 0 (.callUnit shelteredUnit [])) ⟨{ world := () }, [{}]⟩
        (ticked shelteredUnit 0) := turn_perform rfl compiled_sheltered
    refine entered _ _ _ _ _ _ _ 1 (.turn (.start { world := () } rfl units) (.spawn _)) called ?_
      (life_ticked (n := 0) (k := 8) (by decide +kernel) (by decide +kernel))
    intro pl goes
    obtain ⟨f, found⟩ := goes.before
    cases (unborn pl).symm.trans found
  · exact ⟨_, rfl, (held (ticked shelteredUnit 3) _ _ _ [] [.entered 0]
      (.returns (.values [.int 7])) _ (underway_ticked compiled_sheltered 3)
      (life_ticked (k := 2) (by decide +kernel) (by decide +kernel)) rfl
      (fun departure => by simp) (by simp)).1 _ rfl⟩
  · have last := (ends (ticked shelteredUnit 8) 0 _ _ _ _ .blocking none
      (underway_ticked compiled_sheltered 8) rfl rfl rfl (by simp)).2.1 [.int 7] rfl rfl
    have result := last.2 (by decide +kernel) rfl
    exact congrArg (fun job : Job => [job]) result

end System

end ScriptMachine
