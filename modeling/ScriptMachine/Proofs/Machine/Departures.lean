import ScriptMachine.Proofs.Machine.Cursors
import ScriptMachine.Proofs.Machine.Shifts

/-!
# What an act does to what frames keep

Frames of a job are told apart by their height on its stack, since no act takes a frame away and
puts another one in its place. `Session.tickMoments` reads off the code what happens to the frame at
a height in a tick; any other act leaves alone what frames keep. The proofs follow the model: a rule
for each transfer of control, one for errors by recursion over the stack, and one for the step.
-/

set_option autoImplicit false

namespace ScriptMachine

variable {H W : Type}

/-! ## Marks by height -/

/-- The exit that a way to leave a frame issues, with some values in the channel. -/
def Exit.held (channel : List Value) : Exit → PendingReturn
  | .values => .values channel
  | .locals mask => .locals mask

def Flow.exits (channel : List Value) : Flow → List Moment
  | .ret => [.left (.returns (.values channel))]
  | .returnLocals mask => [.left (.returns (.locals mask))]
  | .finalize => [.left (.returns (.values []))]
  | _ => []

def Frame.instruction? (f : Frame) : Option Instruction := f.unit.bind fun u => u.code[f.cursor]?

def Frame.moments (f : Frame) (flow : Option Flow) : List Moment :=
  match f.instruction? with
  | some ins => ins.moments flow
  | none => []

theorem getElem?_reverse_cons {α : Type} (a : α) (l : List α) (n : Nat) :
    (a :: l).reverse[n]? = if n = l.length then some a else l.reverse[n]? := by
  rw [List.reverse_cons, List.getElem?_append, List.length_reverse]
  split
  · rw [if_neg (by omega)]
  · rename_i beyond
    by_cases top : n = l.length
    · simp [top]
    · rw [if_neg top, List.getElem?_eq_none (by simp; omega),
        List.getElem?_eq_none (by simp; omega)]

theorem getElem?_reverse_suffix {α : Type} {l m : List α} (suffix : l <:+ m) {n : Nat} {a : α}
    (found : l.reverse[n]? = some a) : m.reverse[n]? = some a := by
  obtain ⟨above, rfl⟩ := suffix
  rw [List.reverse_append, List.getElem?_append_left (List.getElem?_eq_some_iff.mp found).1, found]

def atTop (depth : Nat) (moments : List Moment) (n : Nat) : List Moment :=
  if n + 1 = depth then moments else []

def NoExit (ms : List Moment) : Prop := ∀ departure, Moment.left departure ∉ ms

theorem NoExit.nil : NoExit [] := fun _ mem => absurd mem List.not_mem_nil

theorem NoExit.append {ms ns : List Moment} (one : NoExit ms) (two : NoExit ns) :
    NoExit (ms ++ ns) := fun departure mem =>
  (List.mem_append.mp mem).elim (one departure) (two departure)

theorem NoExit.atTop {ms : List Moment} (none : NoExit ms) (depth n : Nat) :
    NoExit (atTop depth ms n) := by
  unfold ScriptMachine.atTop
  split
  · exact none
  · exact .nil

theorem Frame.noExit_moments (f : Frame) (flow : Option Flow) : NoExit (f.moments flow) := by
  intro departure
  unfold Frame.moments Instruction.moments
  repeat' split
  all_goals simp

/-- A frame went through some moments. If an exit is among them, the frame goes on with its deferred
blocks. -/
structure Frame.Aged (ms : List Moment) (f g : Frame) : Prop where
  generator : g.generator = f.generator
  follows : f.deferral.Follows ms g.deferral
  diverted : NoExit ms ∨ g.deferEntry = some g.cursor

theorem Frame.Aged.of_mark {f g : Frame} (same : g.mark = f.mark) : f.Aged [] g :=
  ⟨congrArg Mark.generator same, congrArg Mark.deferral same, .inl .nil⟩

theorem Frame.Aged.trans {ms ns : List Moment} {f g k : Frame} (first : f.Aged ms g)
    (none : NoExit ms) (second : g.Aged ns k) : f.Aged (ms ++ ns) k :=
  ⟨second.generator.trans first.generator, first.follows.append second.follows,
    second.diverted.imp none.append id⟩

def Ages (ms : Nat → List Moment) (fs gs : List Frame) : Prop :=
  ∀ (n : Nat) (g : Frame), gs.reverse[n]? = some g → ∃ f, fs.reverse[n]? = some f ∧ f.Aged (ms n) g

theorem marks_at (fs : List Frame) (n : Nat) :
    (fs.map Frame.mark).reverse[n]? = fs.reverse[n]?.map Frame.mark := by
  rw [← List.map_reverse, List.getElem?_map]

namespace Ages

variable {ms ns : Nat → List Moment} {fs gs ks : List Frame} {f g : Frame}

theorem gone : Ages ms fs [] := fun n g found => by simp at found

theorem suffix (suffix : gs.map Frame.mark <:+ fs.map Frame.mark) : Ages (fun _ => []) fs gs := by
  intro n g found
  have mark : (fs.map Frame.mark).reverse[n]? = some g.mark :=
    getElem?_reverse_suffix suffix (by rw [marks_at, found]; rfl)
  rw [marks_at] at mark
  obtain ⟨f, here, same⟩ := Option.map_eq_some_iff.mp mark
  exact ⟨f, here, .of_mark same.symm⟩

theorem trans (first : Ages ms fs gs) (none : ∀ n, NoExit (ms n)) (second : Ages ns gs ks) :
    Ages (fun n => ms n ++ ns n) fs ks := by
  intro n k found
  obtain ⟨g, found, later⟩ := second n k found
  obtain ⟨f, found, earlier⟩ := first n g found
  exact ⟨f, found, earlier.trans (none n) later⟩

theorem top {moments : List Moment} (aged : f.Aged moments g) :
    Ages (atTop (fs.length + 1) moments) (f :: fs) (g :: fs) := by
  intro n k found
  unfold atTop
  rw [getElem?_reverse_cons] at found ⊢
  by_cases here : n = fs.length
  · rw [if_pos here] at found ⊢
    cases found
    exact ⟨f, rfl, by rwa [if_pos (by omega)]⟩
  · rw [if_neg here] at found ⊢
    exact ⟨k, found, by rw [if_neg (by omega)]; exact .of_mark rfl⟩

theorem below (ages : Ages ms fs gs) (same : ∀ n, n < fs.length → ns n = ms n) :
    Ages ns (f :: fs) gs := by
  intro n g found
  obtain ⟨f', found, aged⟩ := ages n g found
  have inside : n < fs.length := by simpa using (List.getElem?_eq_some_iff.mp found).1
  refine ⟨f', ?_, same n inside ▸ aged⟩
  rw [getElem?_reverse_cons, if_neg (by omega), found]

end Ages

/-! ## Errors -/

/-- An error that leaves the topmost of some frames arrives at the frame of a height, where no trap
takes it. -/
def reaches : List Frame → Nat → Bool
  | [], _ => false
  | f :: rest, n => f.trap.isNone && (n == rest.length || f.diversion.isNone && reaches rest n)

def struck (e : Error) (frames : List Frame) (n : Nat) : List Moment :=
  if !e.isFatal && reaches frames n then [.left (.fails e)] else []

namespace Session

variable {host : Host H W} {s t u : Session H W} {f g : Frame} {rest : List Frame}
  {ms ns : Nat → List Moment}

/-- Frames may have gone from the top of the stack; those that are left went through some
moments. -/
structure Outlives (ms : Nat → List Moment) (s t : Session H W) : Prop where
  ages : Ages ms s.job.frames t.job.frames
  heap : s.machine.heap.Parks none t.machine.heap

theorem Falls.outlives (falls : s.Falls t) : s.Outlives (fun _ => []) t :=
  ⟨.suffix falls.marks, falls.heap⟩

theorem Outlives.trans (first : s.Outlives ms t) (none : ∀ n, NoExit (ms n))
    (second : t.Outlives ns u) : s.Outlives (fun n => ms n ++ ns n) u :=
  ⟨first.ages.trans none second.ages, first.heap.trans second.heap⟩

theorem Outlives.thenFalls (first : s.Outlives ms t) (none : ∀ n, NoExit (ms n))
    (falls : t.Falls u) : s.Outlives ms u := by
  have both := first.trans none falls.outlives
  simpa using both

/-- A frame with an armed block holds an exit back. -/
theorem aged_diverted {entry : Nat} {departure : Departure} (diverted : f.diversion = some entry)
    (generator : g.generator = f.generator)
    (after : g.deferral = f.deferral.after (.left departure))
    (entered : g.deferEntry = f.deferEntry)
    (cursor : g.cursor = entry) : f.Aged [.left departure] g := by
  obtain ⟨armed, entry⟩ := Frame.diversion_eq_some.mp diverted
  refine ⟨generator, ⟨?_, after⟩, .inr ?_⟩
  · simpa [Deferral.Permits, Frame.deferral, Frame.hasArmedDefers] using armed
  · rw [entered, entry, cursor]

theorem unwind_ages {e : Error} {frames : List Frame} {h : Heap H} {j : Job}
    (fatal : ¬ e.isFatal) :
    ∀ {m : Machine H W}, h.Parks none m.heap → (unwind e frames).Ensures ⟨m, j⟩
      (fun _ t => Ages (struck e frames) frames t.job.frames ∧
        h.Parks none t.machine.heap ∧ t.job.channel = j.channel)
      (fun _ t => t.job.frames = [] ∧ h.Parks none t.machine.heap) := by
  induction frames with
  | nil => exact fun parks => ⟨rfl, parks⟩
  | cons f rest ih =>
    intro m parks
    have lone : ∀ n, struck e (f :: rest) n = if f.trap.isNone && (n == rest.length ||
        f.diversion.isNone && reaches rest n) then [.left (.fails e)] else [] := fun n => by
      simp [struck, reaches, fatal]
    cases trap : f.trap with
    | some handler =>
      -- a trap takes the error, so nothing arrives at the deferred blocks of any frame
      rw [Effect.ensures_of_eq_ok (unwind_trap trap rest)]
      have none : struck e (f :: rest) = fun _ => [] := funext fun n => by simp [lone, trap]
      exact ⟨none ▸ .suffix (List.suffix_refl _), parks.disposeAll _, rfl⟩
    | none =>
      cases diverted : f.diversion with
      | some entry =>
        rw [Effect.ensures_of_eq_ok (unwind_diverted trap diverted rest)]
        have top : struck e (f :: rest) = atTop (rest.length + 1) [.left (.fails e)] :=
          funext fun n => by simp [lone, trap, diverted, atTop]
        refine ⟨?_, ((parks.disposeAll _).disposeAll _).disposeAll _, rfl⟩
        rw [top]
        exact .top (aged_diverted diverted rfl rfl rfl rfl)
      | none =>
        have lets : ∀ g ∈ [f], ¬ g.Takes := by
          simpa using Frame.not_takes_iff.mpr ⟨trap, diverted⟩
        rw [Effect.Ensures, show f :: rest = [f] ++ rest from rfl, unwind_above e rest j m lets]
        refine (ih (parks.abandonAll [f])).mono (fun _ t after => ?_) fun _ _ after => after
        refine ⟨after.1.below fun n inside => ?_, after.2⟩
        simp [struck, reaches, trap, diverted, fatal, Nat.ne_of_lt inside]

theorem raise_outlives (accounted : s.machine.heap.Accounted []) (e : Error) :
    (raise e).Ensures s
      (fun _ t => s.Outlives (struck e s.job.frames) t ∧ t.job.channel = [])
      (fun _ t => t.job.frames = [] ∧ s.machine.heap.Parks none t.machine.heap) := by
  have parks := Heap.Parks.refl accounted
  by_cases fatal : e.isFatal = true
  · rw [Effect.ensures_of_eq_error (raise_of_fatal fatal s.machine s.job)]
    exact ⟨rfl, (parks.disposeAll _).abandonAll _⟩
  · unfold Effect.Ensures
    rw [show s = ⟨s.machine, s.job⟩ from rfl, raise_of_not_fatal fatal]
    exact (unwind_ages fatal (parks.disposeAll _)).mono
      (fun _ t after => ⟨⟨after.1, after.2.1⟩, after.2.2⟩) fun _ t gone => gone

/-! ## Exits -/

theorem marks_length (s : Session H W) : s.marks.length = s.job.depth := List.length_map _

theorem outlives_top {moments : List Moment} (frames : s.job.frames = f :: rest)
    (frames' : t.job.frames = g :: rest) (aged : f.Aged moments g)
    (heap : s.machine.heap.Parks none t.machine.heap) :
    s.Outlives (atTop s.job.depth moments) t := by
  refine ⟨?_, heap⟩
  rw [Job.depth, frames, frames']
  exact .top aged

theorem outlives_below {moments : List Moment} (frames : s.job.frames = f :: rest)
    (marks : t.marks = rest.map Frame.mark) (heap : s.machine.heap.Parks none t.machine.heap) :
    s.Outlives (atTop s.job.depth moments) t := by
  refine ⟨?_, heap⟩
  rw [Job.depth, frames]
  refine Ages.below (Ages.suffix (marks ▸ List.suffix_refl _)) fun n inside => ?_
  rw [atTop, if_neg (by simp; omega)]

/-- An exit is held back where a block is armed, and takes the frame away anywhere else. -/
theorem leave_outlives (accounted : s.machine.heap.Accounted []) (loaded : s.job.frames ≠ [])
    (exit : Exit) (quiet : exit = .values ∨ s.job.channel = []) :
    (leave exit).Ensures s
      (fun _ t => s.Outlives (atTop s.job.depth [.left (.returns (exit.held s.job.channel))]) t ∧
        t.Quiet)
      (fun _ _ => False) := by
  have parks := Heap.Parks.refl accounted
  unfold leave
  rw [Effect.ensures_bind, Effect.ensures_get]
  cases frames : s.job.frames with
  | nil => exact absurd frames loaded
  | cons f rest =>
    simp only
    cases diverted : f.diversion with
    | some entry =>
      have aged : ∀ held : PendingReturn, f.Aged [.left (.returns held)]
          { f with pendingReturn := some held, cursor := entry } := fun held =>
        aged_diverted diverted rfl rfl rfl rfl
      cases exit with
      | values => exact ⟨outlives_top frames rfl (aged _) (parks.disposeAll _), fun _ _ => rfl⟩
      | locals mask =>
        exact ⟨outlives_top frames rfl (aged _) (parks.disposeAll _), fun _ _ =>
          quiet.resolve_left (by simp)⟩
    | none =>
      have handed : ∀ (v : Session H W) (returned : List Value), v.job.frames = rest →
          v.job.channel = [] → s.machine.heap.Parks none v.machine.heap →
          (handOver f returned).Ensures v (fun _ t => s.Outlives (atTop s.job.depth
            [.left (.returns (exit.held s.job.channel))]) t ∧ t.Quiet) (fun _ _ => False) := by
        intro v returned frames' empty heap
        have marks : v.marks = rest.map Frame.mark := congrArg (List.map Frame.mark) frames'
        unfold handOver
        split
        · simp only [endGenerator, Effect.ensures_bind, ensures_dispose, ensures_changeHeap,
            ensures_changeJob]
          refine ⟨outlives_below frames ?_ ((heap.disposeAll _).exhaust _),
            fun _ _ => (changeTop_channel _ _).1.trans empty⟩
          refine (marks_changeTop _ (fun g => ?_) v.job).trans marks
          cases g.onExhaust <;> rfl
        · exact (deliver_stays heap.accounted returned).mono (fun _ t after =>
            ⟨outlives_below frames (after.1.marks.trans marks) (heap.trans after.1.heap),
              after.2 empty⟩) fun _ _ never => never
      simp only [Effect.ensures_bind, ensures_changeJob]
      cases exit with
      | values =>
        simp only [Effect.ensures_bind, ensures_drainChannel, ensures_retire, Effect.ensures_pure]
        exact handed _ _ rfl rfl (parks.retire f 0)
      | locals mask =>
        exact handed _ _ rfl (quiet.resolve_left (by simp)) (parks.retire f mask)

/-! ## Steps -/

/-- Some frames fell and the others went through some moments, or no exit was issued and then one
frame may have moved. -/
def Becomes (ms : Nat → List Moment) (s u : Session H W) : Prop :=
  s.Outlives ms u ∨
    ∃ t, s.Outlives ms t ∧ (∀ n, NoExit (ms n)) ∧ t.job.depth = s.job.depth ∧ t.Shifts u

theorem Outlives.thenBecomes (first : s.Outlives ms t) (none : ∀ n, NoExit (ms n))
    (depth : t.job.depth = s.job.depth) (second : t.Becomes ns u) :
    s.Becomes (fun n => ms n ++ ns n) u := by
  rcases second with outlives | ⟨v, outlives, none', depth', shifts⟩
  · exact .inl (first.trans none outlives)
  · exact .inr ⟨v, first.trans none outlives, fun n => (none n).append (none' n),
      depth'.trans depth, shifts⟩

theorem Stays.outlives (stays : s.Stays t) : s.Outlives (fun _ => []) t := stays.falls.outlives

theorem Stays.depth (stays : s.Stays t) : t.job.depth = s.job.depth := by
  rw [← marks_length, ← marks_length, stays.marks]

theorem Shifts.becomes (accounted : s.machine.heap.Accounted []) (shifts : s.Shifts t) :
    s.Becomes (fun _ => []) t :=
  .inr ⟨s, (Stays.refl accounted).outlives, fun _ => .nil, rfl, shifts⟩

theorem atTop_nil (depth : Nat) : atTop depth [] = fun _ => [] := funext fun _ => ite_self _

theorem follow_becomes (plain : host.Plain fun _ => True) (accounted : s.machine.heap.Accounted [])
    (loaded : s.job.frames ≠ []) (flow : Flow) (quiet : flow.sends = false → s.job.channel = []) :
    (follow host flow).Ensures s
      (fun _ t => s.Becomes (atTop s.job.depth (flow.exits s.job.channel)) t ∧ t.Quiet)
      (fun _ t => s.Falls t ∧ flow.exits s.job.channel = []) := by
  have stays := Stays.refl accounted
  have shifted : ∀ t, s.Shifts t ∧ t.Quiet → s.Becomes (atTop s.job.depth []) t ∧ t.Quiet :=
    fun t shifts => ⟨(atTop_nil s.job.depth).symm ▸ shifts.1.becomes accounted, shifts.2⟩
  cases flow with
  | next => exact shifted s ⟨.falls stays.falls, fun _ _ => quiet rfl⟩
  | jump target =>
    refine shifted _ ⟨.falls (Stays.falls ⟨?_, stays.heap⟩), fun _ _ => ?_⟩
    · exact marks_changeTop (fun f => { f with cursor := target }) (fun _ => rfl) s.job
    · exact (changeTop_channel _ _).1.trans (quiet rfl)
  | call target this =>
    exact (invoke_shifts plain accounted target this).mono (fun _ t => shifted t)
      fun _ _ stays => ⟨stays.falls, rfl⟩
  | ret =>
    exact (leave_outlives accounted loaded .values (.inl rfl)).mono
      (fun _ _ after => ⟨.inl after.1, after.2⟩) fun _ _ never => never.elim
  | returnLocals mask =>
    exact (leave_outlives accounted loaded (.locals mask) (.inr (quiet rfl))).mono
      (fun _ _ after => ⟨.inl after.1, after.2⟩) fun _ _ never => never.elim
  | yield =>
    exact (suspend_shifts accounted).mono (fun _ t => shifted t)
      fun _ _ falls => ⟨falls, rfl⟩
  | finalize =>
    have cleared : s.Stays ⟨s.machine.dispose s.job.channel, { s.job with channel := [] }⟩ :=
      ⟨rfl, stays.heap.disposeAll _⟩
    simp only [follow, clearChannel, Effect.ensures_bind, ensures_drainChannel, ensures_dispose]
    refine (leave_outlives (s := ⟨s.machine.dispose s.job.channel, { s.job with channel := [] }⟩)
      cleared.heap.accounted loaded .values (.inl rfl)).mono (fun _ t after => ?_)
      fun _ _ never => never.elim
    exact ⟨.inl (cleared.outlives.trans (fun _ => .nil) after.1), after.2⟩
  | advance x exhausted =>
    exact (advance_shifts accounted x exhausted).mono
      (fun _ t after => shifted t ⟨after.1, after.2 (quiet rfl)⟩)
      fun _ _ same => ⟨same ▸ stays.falls, rfl⟩

theorem apply_becomes (plain : host.Plain fun _ => True) (accounted : s.machine.heap.Accounted [])
    (loaded : s.job.frames ≠ []) (flow : Flow) (next : Nat)
    (quiet : flow.sends = false → s.job.channel = []) :
    (apply host flow next).Ensures s
      (fun _ t => s.Becomes (atTop s.job.depth (flow.exits s.job.channel)) t ∧ t.Quiet)
      (fun _ t => s.Falls t ∧ flow.exits s.job.channel = []) := by
  obtain ⟨machine, frames, channel, pending⟩ := s
  cases frames with
  | nil => exact absurd rfl loaded
  | cons f rest =>
    have placed : Stays ⟨machine, f :: rest, channel, pending⟩
        ⟨machine, { f with cursor := next } :: rest, channel, pending⟩ :=
      ⟨rfl, .refl accounted⟩
    exact (follow_becomes plain
      (s := ⟨machine, { f with cursor := next } :: rest, channel, pending⟩)
      accounted (by simp) flow quiet).mono
        (fun _ t after =>
          ⟨placed.outlives.thenBecomes (fun _ => .nil) placed.depth after.1, after.2⟩)
        fun _ _ failed => ⟨placed.thenFalls failed.1, failed.2⟩

def stride (f : Frame) : SessionM H W Flow :=
  match f.unit.bind (·.stepAt? f.cursor) with
  | some step => do
    let units := (← get).machine.units
    (Exec.action units step.action).onPart (context f) withContext
  | none => return .ret

theorem executeStep_eq_stride {u : CodeUnit} (runs : f.Runs u) :
    executeStep host f = stride f >>= fun flow => apply host flow (f.cursor + f.cost) := by
  obtain ⟨targets, fusion, laid⟩ := runs.laid
  cases found : u.stepAt? f.cursor with
  | none =>
    have beyond : u.code.length ≤ f.cursor := runs.cursor.resolve_left (by simp [found])
    rw [executeStep_of_end runs.unit found beyond]
    simp [stride, Frame.cost, runs.unit, found]
  | some step =>
    have start := (laid.mem_of_stepAt? found).2
    rw [executeStep_of_step runs.unit found]
    simp [stride, carryOut, Frame.cost, runs.unit, found, start]

/-- A step changes what the topmost frame keeps by the moments of its first instruction. -/
theorem stride_outlives {u : CodeUnit} (runs : f.Runs u) (frames : s.job.frames = f :: rest)
    (accounted : s.machine.heap.Accounted []) (empty : s.job.channel = []) :
    (stride f).Ensures s
      (fun flow t => s.Outlives (atTop s.job.depth (f.moments (some flow))) t ∧
        t.job.depth = s.job.depth ∧ (flow.sends = false → t.job.channel = []))
      (fun _ t => s.Outlives (atTop s.job.depth (f.moments none)) t) := by
  obtain ⟨targets, fusion, laid⟩ := runs.laid
  cases found : u.stepAt? f.cursor with
  | none =>
    have beyond : u.code.length ≤ f.cursor := runs.cursor.resolve_left (by simp [found])
    have none : f.moments (some .ret) = [] := by
      simp [Frame.moments, Frame.instruction?, runs.unit, beyond]
    simp only [stride, runs.unit, Option.bind_some, found, Effect.ensures_pure, none, atTop_nil]
    exact ⟨(Stays.refl accounted).outlives, trivial, fun _ => empty⟩
  | some step =>
    obtain ⟨mem, start⟩ := laid.mem_of_stepAt? found
    obtain ⟨ins, code, moments⟩ := Exec.action_moments s.machine.units laid mem
      (c := context f s) runs
    have same : ∀ flow, f.moments flow = ins.moments flow := fun flow => by
      simp only [Frame.moments, Frame.instruction?, runs.unit, Option.bind_some, ← start, code]
    have units : s.machine.units.Codes fun _ => True := fun _ _ _ => trivial
    have calm := Exec.action_keeps (h := s.machine.heap) (f := f) units step.action
      (context f s) ⟨(accounted.coded []).here, rfl, rfl⟩
    have after : ∀ {c : Context H} {moments : List Moment}, NoExit moments →
        c.Calm (fun _ => True) s.machine.heap f → f.deferral.Follows moments c.frame.deferral →
        (withContext c s).job.frames = c.frame :: rest ∧
          s.Outlives (atTop s.job.depth moments) (withContext c s) := by
      intro c moments none calm follows
      have top : (withContext c s).job.frames = c.frame :: rest := by
        simp [withContext, Job.changeTop, frames]
      exact ⟨top, outlives_top frames top ⟨calm.generator, follows, .inl none⟩
        ((Heap.Parks.refl accounted).grows calm.heap)⟩
    simp only [stride, runs.unit, Option.bind_some, found, Effect.ensures_bind, Effect.ensures_get,
      Effect.ensures_onPart, same]
    refine (moments.and calm).mono (fun flow c acted => ?_) fun _ c acted => ?_
    · obtain ⟨⟨follows, channel⟩, calm⟩ := acted
      obtain ⟨top, outlives⟩ := after (same (some flow) ▸ f.noExit_moments _) calm follows
      exact ⟨outlives, by simp [Job.depth, top, frames], fun silent => (channel silent).trans empty⟩
    · exact (after (same none ▸ f.noExit_moments _) acted.2 acted.1).2

def strideMoments (f : Frame) (s : Session H W) : List Moment :=
  match stride f s with
  | .ok flow t => f.moments (some flow) ++ flow.exits t.job.channel
  | .error _ _ => f.moments none

theorem atTop_append (depth : Nat) (ms ns : List Moment) :
    (fun n => atTop depth ms n ++ atTop depth ns n) = atTop depth (ms ++ ns) := by
  funext n
  unfold atTop
  split <;> rfl

theorem executeStep_becomes (plain : host.Plain fun _ => True) {u : CodeUnit} (runs : f.Runs u)
    (frames : s.job.frames = f :: rest) (accounted : s.machine.heap.Accounted [])
    (empty : s.job.channel = []) :
    (executeStep host f).Ensures s
      (fun _ t => s.Becomes (atTop s.job.depth (strideMoments f s)) t ∧ t.Quiet)
      (fun _ t => s.Outlives (atTop s.job.depth (strideMoments f s)) t ∧
        NoExit (strideMoments f s)) := by
  have strode := stride_outlives runs frames accounted empty
  rw [executeStep_eq_stride runs, Effect.ensures_bind, strideMoments]
  cases ran : stride f s with
  | error e t =>
    rw [Effect.ensures_of_eq_error ran] at strode ⊢
    exact ⟨strode, f.noExit_moments _⟩
  | ok flow t =>
    rw [Effect.ensures_of_eq_ok ran] at strode ⊢
    obtain ⟨outlives, depth, quiet⟩ := strode
    have none := (f.noExit_moments (some flow)).atTop s.job.depth
    have loaded : t.job.frames ≠ [] := by
      have positive : 0 < t.job.depth := by rw [depth, Job.depth, frames]; exact Nat.succ_pos _
      exact List.ne_nil_of_length_pos positive
    refine (apply_becomes plain outlives.heap.accounted loaded flow _ quiet).mono
      (fun _ v after => ⟨?_, after.2⟩) fun _ v failed => ?_
    · have both := outlives.thenBecomes none depth after.1
      rwa [depth, atTop_append] at both
    · simp only [failed.2, List.append_nil]
      exact ⟨outlives.thenFalls none failed.1, f.noExit_moments _⟩

def settleMoments (task : HostTask) (frames : List Frame) (n : Nat) : List Moment :=
  match task.result with
  | .ok _ => []
  | .error e => struck e frames n

def tickMoments (host : Host H W) (mode : Mode) (budget : Budget) (s : Session H W) (n : Nat) :
    List Moment :=
  match s.job.pending, s.job.frames, budget with
  | some task, frames, _ =>
    match mode, task.polls with
    | .bounded, _ + 1 => []
    | _, _ => settleMoments task frames n
  | none, [], _ => []
  | none, _ :: _, some 0 => []
  | none, f :: _, _ =>
    atTop s.job.depth (strideMoments f s) n ++
      match executeStep host f s with
      | .ok _ _ => []
      | .error e t => struck e t.job.frames n

/-- An error that is routed leaves the frames that it goes through or lets them go. -/
theorem raise_becomes (before : s.Outlives ms t) (none : ∀ n, NoExit (ms n)) (e : Error) :
    (raise e).Ensures t
      (fun _ u => s.Becomes (fun n => ms n ++ struck e t.job.frames n) u ∧ u.Quiet)
      (fun _ u => s.Becomes (fun n => ms n ++ struck e t.job.frames n) u ∧ u.Quiet) := by
  refine (raise_outlives before.heap.accounted e).mono
    (fun _ u after => ⟨.inl (before.trans none after.1), fun _ _ => after.2⟩) fun _ u gone => ?_
  exact ⟨.inl ⟨gone.1 ▸ .gone, before.heap.trans gone.2⟩, fun loaded => absurd gone.1 loaded⟩

theorem settle_becomes (accounted : s.machine.heap.Accounted []) (task : HostTask) :
    (settle task).Ensures s
      (fun _ t => s.Becomes (settleMoments task s.job.frames) t ∧ t.Quiet)
      (fun _ t => s.Becomes (settleMoments task s.job.frames) t ∧ t.Quiet) := by
  have resumed : s.Stays ⟨s.machine, { s.job with pending := none }⟩ := ⟨rfl, .refl accounted⟩
  unfold settle settleMoments
  rw [Effect.ensures_bind, ensures_changeJob]
  cases task.result with
  | error e => exact raise_becomes resumed.outlives (fun _ => .nil) e
  | ok values =>
    simp only [Effect.ensures_bind, ensures_drainChannel]
    refine (deliver_stays
      (s := ⟨s.machine, { s.job with pending := none, channel := [] }⟩) accounted
      _).mono (fun _ t after => ⟨.inl ?_, after.2 rfl⟩) fun _ _ never => never.elim
    exact ⟨.suffix after.1.falls.marks, after.1.heap⟩

theorem tickMoments_settle {task : HostTask} {mode : Mode} (budget : Budget)
    (waits : s.job.pending = some task) (ready : mode = .bounded → task.polls = 0) :
    tickMoments host mode budget s = settleMoments task s.job.frames := by
  funext n
  unfold tickMoments
  rw [waits]
  obtain ⟨polls, result⟩ := task
  cases mode with
  | bounded =>
    cases ready rfl
    rfl
  | _ => cases polls <;> rfl

theorem tickMoments_act {mode : Mode} {budget : Budget} (idle : s.job.pending = none)
    (frames : s.job.frames = f :: rest) (left : budget ≠ some 0) (n : Nat) :
    tickMoments host mode budget s n =
      atTop s.job.depth (strideMoments f s) n ++
        match executeStep host f s with
        | .ok _ _ => []
        | .error e t => struck e t.job.frames n := by
  unfold tickMoments
  rw [idle, frames]
  cases budget with
  | none => rfl
  | some b =>
    cases b with
    | zero => exact absurd rfl left
    | succ b => rfl

theorem tick_becomes (plain : host.Plain fun _ => True) (mode : Mode) (budget : Budget)
    (sound : s.Sound) (quiet : s.Quiet) :
    (tick host mode budget).Ensures s
      (fun _ t => s.Becomes (tickMoments host mode budget s) t ∧ t.Quiet)
      (fun _ t => s.Becomes (tickMoments host mode budget s) t ∧ t.Quiet) := by
  have accounted := sound.heap.accounted
  have stays := Stays.refl accounted
  refine tick_rule (fun task n waits bounded unready => ?_) (fun task waits ready => ?_)
    (fun idle empty => ?_) (fun idle spent => ?_) fun f rest idle frames left => ?_
  · have none : tickMoments host mode budget s = fun _ => [] := by
      simp [funext_iff, tickMoments, waits, bounded, unready]
    exact ⟨.inl (none ▸ Stays.outlives ⟨rfl, stays.heap⟩), fun _ gone => by cases gone⟩
  · rw [tickMoments_settle budget waits ready]
    exact settle_becomes accounted task
  · have none : tickMoments host mode budget s = fun _ => [] := by
      simp [funext_iff, tickMoments, idle, empty]
    exact ⟨.inl (none ▸ Stays.outlives ⟨rfl, stays.heap⟩), fun loaded => absurd empty loaded⟩
  · have none : tickMoments host mode budget s = fun _ => [] := by
      funext n
      unfold tickMoments
      rw [idle, spent]
      cases s.job.frames <;> rfl
    exact ⟨.inl (none ▸ stays.outlives), quiet⟩
  · obtain ⟨u, runs⟩ := sound.frames f (frames ▸ List.mem_cons_self)
    have stepped := executeStep_becomes plain runs frames accounted (quiet (by simp [frames]) idle)
    rw [ensures_routing, funext (tickMoments_act idle frames left)]
    cases ran : executeStep host f s with
    | ok a t =>
      rw [Effect.ensures_of_eq_ok ran] at stepped ⊢
      simp only [List.append_nil]
      exact stepped
    | error e t =>
      rw [Effect.ensures_of_eq_error ran] at stepped ⊢
      exact raise_becomes stepped.1 (stepped.2.atTop _) e

/-! ## Acts -/

theorem start_becomes {call : SessionM H W Unit} (args : List Value)
    (accounted : s.machine.heap.Accounted [])
    (called : ∀ t : Session H W, t.machine.heap.Accounted [] →
      call.Ensures t (fun _ u => t.Shifts u ∧ u.Quiet) (fun _ u => t.Stays u)) :
    (start args call).Ensures s (fun _ t => s.Becomes (fun _ => []) t ∧ t.Quiet)
      (fun _ t => s.Becomes (fun _ => []) t ∧ t.Quiet) := by
  let filled : Session H W := ⟨s.machine, { s.job with channel := s.job.channel ++ args }⟩
  have filling : s.Stays filled := ⟨rfl, .refl accounted⟩
  unfold start
  rw [Effect.ensures_bind, ensures_changeJob, Effect.ensures_onFailure]
  refine (called filled accounted).mono (fun _ t after => ?_) fun _ t stays => ?_
  · exact ⟨(filling.thenShifts after.1).becomes accounted, after.2⟩
  · exact ⟨.inl (Stays.outlives ⟨(filling.thenStays stays).marks,
      (filling.thenStays stays).heap.disposeAll _⟩), fun _ _ => rfl⟩

end Session

def Act.moments (host : Host H W) (act : Act) (s : Session H W) (n : Nat) : List Moment :=
  match act with
  | tick mode budget => Session.tickMoments host mode budget s n
  | _ => []

namespace Session

variable {host : Host H W} {s t : Session H W} {ms : Nat → List Moment}

theorem parks_torn {m : Machine H W} (accounted : m.heap.Accounted []) (j : Job) :
    m.heap.Parks none (torn m j).heap := by
  rw [torn_heap]
  exact ((Heap.Parks.refl accounted).abandonAll j.frames).disposeAll j.channel

theorem becomes_of_gone (gone : t.job = {}) (heap : s.machine.heap.Parks none t.machine.heap) :
    s.Becomes ms t ∧ t.Quiet := by
  have empty : t.job.frames = [] := by rw [gone]
  exact ⟨.inl ⟨empty ▸ .gone, heap⟩, fun loaded => absurd empty loaded⟩

theorem conclude_becomes (accounted : s.machine.heap.Accounted []) (quiet : s.Quiet)
    (outcome : Except Error Outcome) :
    (conclude host outcome).Ensures s (fun _ t => s.Becomes (fun _ => []) t ∧ t.Quiet)
      (fun _ t => s.Becomes (fun _ => []) t ∧ t.Quiet) := by
  cases outcome with
  | ok outcome =>
    cases outcome <;> exact ⟨.inl (Stays.outlives ⟨rfl, .refl accounted⟩), quiet⟩
  | error e =>
    have parks := parks_torn accounted s.job
    have told : (torn s.machine s.job).heap.Grows (fun _ => True)
        ((torn s.machine s.job).heap.uncaught e).2 := (parks.accounted.coded []).uncaught e
    exact (ensures_conclude_error host e s).mono
      (fun _ _ gone => becomes_of_gone gone.1 (gone.2 ▸ parks.grows told))
      fun _ _ gone => becomes_of_gone gone.1 (gone.2 ▸ parks.grows told)

theorem act_becomes (plain : host.Plain fun _ => True) (act : Act) (admits : act.Admits s.job)
    (sound : s.Sound) (quiet : s.Quiet) :
    (act.op host).Ensures s (fun _ t => s.Becomes (act.moments host s) t ∧ t.Quiet)
      (fun _ t => s.Becomes (act.moments host s) t ∧ t.Quiet) := by
  have accounted := sound.heap.accounted
  have invoked := fun (target : CallTarget) (t : Session H W)
    (accounted : t.machine.heap.Accounted []) => invoke_shifts plain accounted target .null
  cases act with
  | callPath path args =>
    unfold Act.op startPath
    rw [Effect.ensures_bind, Effect.ensures_get]
    simp only
    split
    · exact start_becomes args accounted (invoked (.path path))
    split
    · exact start_becomes args accounted (invoked (.unit path))
    · exact ⟨.inl (Stays.outlives ⟨rfl, (Heap.Parks.refl accounted).disposeAll _⟩), quiet⟩
  | callValue callee args => exact start_becomes args accounted (invoked (.value callee))
  | callUnit unit args =>
    exact start_becomes args accounted fun t accounted => enter_shifts accounted unit .null .null
  | resume x =>
    have empty : s.job.channel = [] := by rw [show s.job = {} from admits]
    exact (advance_shifts accounted x 0).mono
      (fun _ t after => ⟨after.1.becomes accounted, after.2 empty⟩)
      fun _ t same => by
        rw [same]
        exact ⟨.inl (Stays.refl accounted).outlives, quiet⟩
  | tick mode budget =>
    unfold Act.op
    rw [Effect.ensures_bind]
    exact (tick_becomes plain mode budget sound quiet).mono (fun _ _ after => after)
      fun _ _ after => after
  | conclude outcome =>
    unfold Act.op
    rw [Effect.ensures_bind]
    exact (conclude_becomes accounted quiet outcome).mono (fun _ _ after => after)
      fun _ _ after => after
  | teardown =>
    rw [Act.op, Effect.ensures_of_eq_ok (teardown_eq s.machine s.job)]
    exact becomes_of_gone rfl (parks_torn accounted s.job)

end Session

end ScriptMachine
