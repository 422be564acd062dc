import ScriptMachine.Proofs.Machine.Slices
import ScriptMachine.Proofs.Machine.System

/-!
# What a generator yields

The embedding program moves a generator on in a job that has nothing but the frame of the generator
at the bottom of its stack. While the frame is there, the iterator is left alone; the frame goes
when it yields or ends, and then the job is over. So the answers of successive calls are the values
that the body yields, numbered from zero, and nothing once it has ended.
-/

set_option autoImplicit false

namespace ScriptMachine

/-! ## The bottom of a stack -/

def Bottom (x : Handle) (fs : List Frame) : Prop := fs.getLast?.bind Frame.generator = some x

section
variable {x : Handle} {f : Frame} {fs : List Frame}

theorem bottom_singleton : Bottom x [f] ↔ f.generator = some x := Iff.rfl

theorem bottom_cons (loaded : fs ≠ []) : Bottom x (f :: fs) ↔ Bottom x fs := by
  unfold Bottom
  rw [List.getLast?_cons_of_ne_nil loaded]

theorem Bottom.loaded (bottom : Bottom x fs) : fs ≠ [] := by
  rintro rfl
  cases bottom

theorem Bottom.exists_mem (bottom : Bottom x fs) : ∃ f ∈ fs, f.generator = some x := by
  obtain ⟨f, last, belongs⟩ := Option.bind_eq_some_iff.mp bottom
  exact ⟨f, List.mem_of_getLast? last, belongs⟩

theorem Bottom.runners_pos (bottom : Bottom x fs) : 0 < runners x fs := by
  obtain ⟨f, mem, belongs⟩ := bottom.exists_mem
  exact List.countP_pos_iff.mpr ⟨f, mem, by simpa using belongs⟩

end

namespace Heap

variable {H : Type} {p : Permits} {h j k : Heap H} {x : Handle} {it : Iterator} {f : Frame}
  {fs gs others : List Frame}

def Leaves (h k : Heap H) (x : Handle) : Prop := ∀ o, k.object? x = some o → h.object? x = some o

theorem Leaves.trans (first : h.Leaves j x) (second : j.Leaves k x) : h.Leaves k x :=
  fun o found => first o (second o found)

theorem leaves_setObject {y : Handle} {o o' : Object H} (found : h.object? y = some o)
    (ne : x ≠ y) : h.Leaves (h.setObject y o') x := by
  intro o'' found'
  rwa [object?_setObject found, if_neg ne] at found'

theorem Protocol.ended_exhaust (protocol : h.Protocol (f :: others)) (coded : h.Coded p.code fs)
    (belongs : f.generator = some x) : (h.exhaust x).Ended x := by
  have generating := protocol.frames f (List.mem_cons_self ..) x belongs
  rcases protocol.exhaust_cases coded belongs with
    ⟨gone, same⟩ | ⟨it, object, generates, -, -, grows⟩
  · rw [same]
    exact ⟨generating, fun it object => absurd object (gone it)⟩
  · refine Ended.grows ⟨generating.setObject object generates, fun it' found' => ?_⟩ grows
    rw [object?_setObject object, if_pos rfl] at found'
    cases found'
    rfl

/-- While the frame of a generator is at the bottom of a stack, a move leaves the generator alone,
or it takes the frame away, by a yield or for good. -/
theorem Move.bottom (move : Move p h fs k gs) (coded : h.Coded p.code fs)
    (protocol : h.Protocol (fs ++ others)) (bottom : Bottom x fs) :
    (Bottom x gs ∧ h.Leaves k x) ∨ (gs = [] ∧ (p.park ∨ k.Ended x)) := by
  have pos : 0 < runners x (fs ++ others) := by
    have pos := bottom.runners_pos
    rw [runners_append]
    omega
  have generating : h.Generating x := by
    obtain ⟨f, mem, belongs⟩ := bottom.exists_mem
    exact protocol.frames f (List.mem_append_left _ mem) x belongs
  have running : ∀ it, h.object? x = some (.iterator it) →
      it.state = .running ∧ runners x (fs ++ others) = 1 := by
    intro it found
    obtain ⟨it', same, generates⟩ := generating.generator _ found
    cases same
    obtain ⟨state, -, one⟩ := protocol.running_of_pos pos found generates
    exact ⟨state, one⟩
  have elsewhere : ∀ {f gs y it}, fs = f :: gs → f.generator = some y → Bottom x gs →
      h.object? y = some (.iterator it) → x ≠ y := by
    rintro f gs y it rfl belongs below object rfl
    have one := (running it object).2
    have pos := below.runners_pos
    simp only [runners_append, runners_cons, if_pos belongs] at one
    omega
  cases move with
  | heap grows => exact .inl ⟨bottom, fun o found => grows.same generating found⟩
  | @edit f g fs unit generator =>
    refine .inl ⟨?_, fun o found => found⟩
    by_cases last : fs = []
    · subst last
      exact generator.trans bottom
    · exact (bottom_cons last).mpr ((bottom_cons last).mp bottom)
  | enter => exact .inl ⟨(bottom_cons bottom.loaded).mpr bottom, fun o found => found⟩
  | @leave f _ plain =>
    refine .inl ⟨?_, fun o found => found⟩
    by_cases last : gs = []
    · subst last
      rw [bottom_singleton, plain] at bottom
      cases bottom
    · exact (bottom_cons last).mp bottom
  | @finish f _ y belongs =>
    by_cases last : gs = []
    · subst last
      rw [bottom_singleton, belongs] at bottom
      cases bottom
      exact .inr ⟨rfl, .inr (protocol.ended_exhaust coded belongs)⟩
    · have below := (bottom_cons last).mp bottom
      refine .inl ⟨below, ?_⟩
      rcases protocol.exhaust_cases coded belongs with
        ⟨-, same⟩ | ⟨it, object, generates, -, -, grows⟩
      · exact same.symm ▸ fun o found => found
      · exact (leaves_setObject object (elsewhere rfl belongs below object)).trans
          fun o found => grows.same (generating.setObject object generates) found
  | @park f _ y it values parks belongs found =>
    by_cases last : gs = []
    · exact .inr ⟨last, .inl parks⟩
    · have below := (bottom_cons last).mp bottom
      have object := iteratorAt_eq_ok found
      have ne := elsewhere rfl belongs below object
      exact .inl ⟨below, leaves_setObject object ne⟩
  | @resume f _ y it it' _ found idle resumed =>
    have object := iteratorAt_eq_ok found
    have ne : x ≠ y := by
      rintro rfl
      exact idle (running it object).1
    exact .inl ⟨(bottom_cons bottom.loaded).mpr bottom, leaves_setObject object ne⟩
  | @make f _ ref plain code answer =>
    obtain ⟨new, found, -⟩ := coded.made answer
    have ne : x ≠ ref.handle := by
      rintro rfl
      exact new generating.issued
    refine .inl ⟨bottom, fun o object => ?_⟩
    rwa [found, if_neg ne] at object

theorem Move.nil (move : Move p h fs k gs) (never : ¬ p.start) (empty : fs = []) : gs = [] := by
  cases move with
  | heap | make => exact empty
  | edit | leave | finish | park => cases empty
  | enter starts => exact (starts.resolve_left never empty).elim
  | resume starts => exact (starts.resolve_left never empty).elim

theorem Moves.bottom (moves : Moves p h fs k gs) (never : ¬ p.start) (coded : h.Coded p.code fs)
    (protocol : h.Protocol (fs ++ others)) (bottom : Bottom x fs) :
    (Bottom x gs ∧ h.Leaves k x) ∨ (gs = [] ∧ (p.park ∨ k.Ended x)) := by
  induction moves with
  | refl => exact .inl ⟨bottom, fun o found => found⟩
  | tail moves move ih =>
    have coded' := moves.coded coded
    have protocol' := moves.protocol coded protocol
    rcases ih with ⟨bottom, same⟩ | ⟨empty, gone⟩
    · rcases move.bottom coded' protocol' bottom with ⟨bottom', same'⟩ | gone
      · exact .inl ⟨bottom', same.trans same'⟩
      · exact .inr gone
    · exact .inr ⟨move.nil never empty, gone.imp id fun ended => move.ended coded' protocol' ended⟩

end Heap

/-! ## The job of a generator -/

def Heap.Permits.resumed : Heap.Permits := ⟨fun _ => True, False, True⟩

def Heap.Permits.quiet : Heap.Permits := ⟨fun _ => True, False, False⟩

namespace Session

variable {H W : Type} {host : Host H W} {p : Heap.Permits} {h : Heap H} {fs : List Frame}
  {s t : Session H W} {x : Handle} {f : Frame} {values : List Value}

def Ticks (host : Host H W) : Session H W → Session H W → Prop :=
  Relation.ReflTransGen fun s t => tick host .blocking none s = .ok (.running none) t

theorem Ticks.moved (plain : host.Plain p.code) (parks : p.park) (ticks : Ticks host s t)
    (moved : s.Moved p h fs) : t.Moved p h fs := by
  induction ticks with
  | refl => exact moved
  | tail _ ran ih =>
    exact (Effect.ensures_of_eq_ok ran).mp (ensures_tick plain .blocking none ih (.inl parks))

theorem Ticks.drive (ticks : Ticks host s t) {n : Nat} {r : Except Error Outcome × Session H W}
    (ends : drive host .blocking n none t = some r) :
    ∃ k, Session.drive host .blocking k none s = some r := by
  induction ticks using Relation.ReflTransGen.head_induction_on with
  | refl => exact ⟨n, ends⟩
  | head ran _ ih =>
    obtain ⟨k, driven⟩ := ih
    exact ⟨k + 1, by rw [drive_succ, ran]; exact driven⟩

theorem drive_of_idle (idle : t.job.isIdle) :
    drive host .blocking 1 none t =
      some (.ok (.completed t.job.channel), { t with job := {} }) := by
  obtain ⟨m, frames, channel, pending⟩ := t
  cases frames <;> cases pending <;> simp [Job.isIdle] at idle
  rw [drive_succ, tick_done]
  rfl

theorem raise_alone (e : Error) (empty : s.job.frames = []) :
    (raise e).Ensures s (fun _ _ => False) (fun _ _ => True) := by
  unfold raise
  simp only [Effect.ensures_bind, clearChannel, ensures_drainChannel, ensures_dispose]
  split
  · simp only [Effect.ensures_bind, ensures_note, abandonAll, Effect.ensures_get, empty]
    exact trivial
  · simp only [Effect.ensures_bind, Effect.ensures_get, empty]
    exact trivial

/-- What a yield of the only frame of a job comes to, if it comes to anything: the frame is parked
with the values that it yielded, what the last yield had put up is let go, and the job is over. -/
structure Parked (k : Heap H) (x : Handle) (values : List Value) (t : Session H W) : Prop where
  idle : t.job = {}
  heap : ∃ (it : Iterator) (f : Frame), k.iteratorAt x = .ok it ∧
    t.machine.heap = (k.setObject x (.iterator (it.park f values).2)).disposeAll (it.park f values).1

theorem suspend_alone {m : Machine H W} (belongs : f.generator = some x) :
    suspend.Ensures ⟨m, ⟨[f], values, none⟩⟩ (fun _ => Parked m.heap x values)
      (fun _ t => t.job.frames = []) := by
  unfold suspend
  simp only [Effect.ensures_bind, Effect.ensures_get, belongs, ensures_changeJob,
    ensures_drainChannel]
  cases found : m.heap.iteratorAt x with
  | error e => simp [ensures_retire]
  | ok it =>
    simp only [Effect.ensures_bind, ensures_changeHeap, ensures_dispose, ensures_changeJob]
    exact ⟨rfl, it, f, found, rfl⟩

theorem tick_yields {m : Machine H W} {channel : List Value}
    (coded : m.heap.Coded (fun _ => True) [f]) (belongs : f.generator = some x)
    (yields : yielded f ⟨m, ⟨[f], channel, none⟩⟩ = some values)
    (ran : tick host .blocking none ⟨m, ⟨[f], channel, none⟩⟩ = .ok (.running none) t) :
    ∃ k, m.heap.Grows (fun _ => True) k ∧ Parked k x values t := by
  unfold yielded at yields
  split at yields
  · rename_i step found
    split at yields
    · rename_i c acted
      cases yields
      obtain ⟨unit, runs, found⟩ := Option.bind_eq_some_iff.mp found
      have units : m.units.Codes fun _ => True := fun _ _ _ => trivial
      have calm := Exec.action_keeps (h := m.heap) (f := f) units step.action
        (context f ⟨m, ⟨[f], channel, none⟩⟩) ⟨coded.here, rfl, rfl⟩
      rw [Effect.ensures_of_eq_ok acted] at calm
      refine ⟨c.heap, calm.heap, ?_⟩
      have stepped : (executeStep host f).Ensures ⟨m, ⟨[f], channel, none⟩⟩
          (fun _ => Parked c.heap x c.channel) (fun _ t => t.job.frames = []) := by
        unfold executeStep
        simp only [runs, found, Effect.ensures_bind, Effect.ensures_get, Effect.ensures_onPart]
        rw [Effect.ensures_of_eq_ok acted]
        exact suspend_alone (calm.generator.trans belongs)
      have ticked : (routing (executeStep host f)).Ensures ⟨m, ⟨[f], channel, none⟩⟩
          (fun _ => Parked c.heap x c.channel) (fun _ _ => True) := by
        rw [ensures_routing]
        exact stepped.mono (fun _ _ parked => parked) fun e t empty =>
          (raise_alone e empty).mono (fun _ _ never => never.elim) fun _ _ _ => trivial
      rw [tick_act f [] channel (by simp), act_eq] at ran
      cases stepping : routing (executeStep host f) ⟨m, ⟨[f], channel, none⟩⟩ with
      | ok a t' =>
        rw [stepping] at ran
        cases ran
        exact (Effect.ensures_of_eq_ok stepping).mp ticked
      | error e t' =>
        rw [stepping] at ran
        cases ran
    · cases yields
  · cases yields

theorem advance_alone {m : Machine H W} {it it' : Iterator} (found : m.heap.iteratorAt x = .ok it)
    (idle : it.state ≠ .running) (resumed : it.resume = (some f, it'))
    (ran : advance x 0 ⟨m, {}⟩ = .ok () s) :
    s = ⟨{ m with heap := m.heap.setObject x (.iterator it') }, { frames := [f] }⟩ := by
  have advances : (advance x 0).Ensures ⟨m, {}⟩
      (fun _ t => t = ⟨{ m with heap := m.heap.setObject x (.iterator it') }, { frames := [f] }⟩)
      (fun _ _ => True) := by
    unfold advance
    rw [Effect.ensures_bind, Effect.ensures_get]
    split
    · exact trivial
    simp only [Effect.ensures_bind, Effect.ensures_liftM, found, if_neg idle, resumed,
      ensures_changeHeap, ensures_changeJob]
    rfl
  exact (Effect.ensures_of_eq_ok ran).mp advances

end Session

namespace Iterator

theorem resume_of_parked {it : Iterator} {f : Frame} (parked : it.parked = some f)
    (notEnded : it.state ≠ .exhausted) :
    it.resume = (some f, { it with source := .generator none, state := .running }) := by
  obtain ⟨state, source, key, current, yields⟩ := it
  cases source with
  | walk => cases parked
  | generator away =>
    cases parked
    cases state
    · rfl
    · rfl
    · rfl
    · exact absurd rfl notEnded

end Iterator

namespace Machine

variable {H W : Type} {host : Host H W} {m m' : Machine H W} {s t : Session H W} {x : Handle}
  {it : Iterator} {others : List Frame} {v : Value} {values : List Value}

def Resumes (host : Host H W) (x : Handle) (m : Machine H W) (s : Session H W) : Prop :=
  ∃ s₀, Session.advance x 0 ⟨m, {}⟩ = .ok () s₀ ∧ Session.Ticks host s₀ s

/-- A job of its own that goes on with the generator comes to a yield of these values by its body;
`m'` is the machine right after. -/
def Yields (host : Host H W) (x : Handle) (m : Machine H W) (values : List Value)
    (m' : Machine H W) : Prop :=
  ∃ n f channel t, Resumes host x m ⟨n, ⟨[f], channel, none⟩⟩ ∧
    Session.yielded f ⟨n, ⟨[f], channel, none⟩⟩ = some values ∧
    Session.tick host .blocking none ⟨n, ⟨[f], channel, none⟩⟩ = .ok (.running none) t ∧
    t.machine = m'

/-- A job of its own that goes on with the generator comes to the end of its body, without a
yield. -/
def Finishes (host : Host H W) (x : Handle) (m : Machine H W) : Prop :=
  ∃ n f channel t, Resumes host x m ⟨n, ⟨[f], channel, none⟩⟩ ∧
    Session.yielded f ⟨n, ⟨[f], channel, none⟩⟩ = none ∧
    Session.tick host .blocking none ⟨n, ⟨[f], channel, none⟩⟩ = .ok (.running none) t ∧
    t.job.isIdle

/-- The job of a generator while it runs; `n` is the number of yields so far. -/
structure Underway (x : Handle) (n : Nat) (others : List Frame) (s : Session H W) : Prop where
  coded : s.machine.heap.Coded (fun _ => True) s.job.frames
  protocol : s.machine.heap.Protocol (s.job.frames ++ others)
  bottom : Bottom x s.job.frames
  left : ∀ it, s.machine.heap.object? x = some (.iterator it) → it.isGenerator = true ∧ it.yields = n

theorem Resumes.underway (plain : host.Plain fun _ => True) (accounted : m.heap.Accounted [])
    (protocol : m.heap.Protocol others) (found : m.heap.object? x = some (.iterator it))
    (generates : it.isGenerator = true) (ready : it.state = .created ∨ it.state = .active)
    (resumes : Resumes host x m s) (loaded : s.job.frames ≠ []) : Underway x it.yields others s := by
  obtain ⟨s₀, advanced, ticks⟩ := resumes
  obtain ⟨f, parked, belongs⟩ : ∃ f, it.parked = some f ∧ f.generator = some x := by
    have keeps := protocol.keeps x it found generates
    unfold Iterator.Keeps at keeps
    rcases ready with state | state <;> rw [state] at keeps <;> exact keeps.1
  have idle : it.state ≠ .running := by rcases ready with state | state <;> simp [state]
  have notEnded : it.state ≠ .exhausted := by rcases ready with state | state <;> simp [state]
  have resumed := Iterator.resume_of_parked parked notEnded
  have reads := Heap.iteratorAt_of_object? found
  have start := Session.advance_alone reads idle resumed advanced
  have move : Heap.Move .any m.heap [] _ _ := .resume (.inl trivial) reads idle resumed
  have coded := move.coded (accounted.coded [])
  have protocol' := move.protocol (accounted.coded [])
    (show m.heap.Protocol ([] ++ others) from protocol)
  have moved : s₀.Moved .resumed s₀.machine.heap [f] := by
    subst start
    exact ⟨.refl, coded, fun _ _ _ => trivial⟩
  have after := ticks.moved plain trivial moved
  have moves := after.moves
  rw [start] at moves
  rcases moves.bottom (fun never => never) coded protocol' (bottom_singleton.mpr belongs) with
    ⟨bottom, leaves⟩ | ⟨empty, -⟩
  · refine ⟨after.coded, moves.protocol coded protocol', bottom, fun it' found' => ?_⟩
    have before := leaves _ found'
    rw [Heap.object?_setObject found, if_pos rfl] at before
    cases before
    exact ⟨rfl, rfl⟩
  · exact absurd empty loaded

/-- A call that moves a generator on answers what the run of its job came to. -/
theorem nextValue_of_drive (handle : Heap.iteratorHandle v = .ok x)
    (found : m.heap.object? x = some (.iterator it)) (generates : it.isGenerator = true)
    (notEnded : it.state ≠ .exhausted) (advanced : Session.advance x 0 ⟨m, {}⟩ = .ok () s)
    {n fuel : Nat} (driven : Session.drive host .blocking n none s = some (.ok (.completed values), t))
    (enough : n ≤ fuel) :
    nextValue host fuel v m =
      let m' := (t.machine.note .engine .debug).dispose values
      some (shown x m', m') := by
  have ran : Session.run host fuel s =
      some (.ok (.completed values), { t with machine := t.machine.note .engine .debug }) := by
    simp only [Session.run, Session.runIn, Session.drive_mono enough driven]
    rfl
  rw [nextValue_eq]
  simp only [handle, Except.bind, Heap.iteratorAt_of_object? found, Except.map, if_neg notEnded,
    generates, if_true, generator_eq, advanced, resumed, ran]
  rfl

def firstOf (values : List Value) : Value := (values.head?.map Value.share).getD .null

/-- A yield in a job of its own leaves the generator with the values as its current entry, under the
number of the yield. -/
theorem Yields.entry (plain : host.Plain fun _ => True) (accounted : m.heap.Accounted [])
    (protocol : m.heap.Protocol others) (found : m.heap.object? x = some (.iterator it))
    (generates : it.isGenerator = true) (ready : it.state = .created ∨ it.state = .active)
    (yields : Yields host x m values m') (live : (m'.heap.object? x).isSome) :
    ∃ it', m'.heap.object? x = some (.iterator it') ∧ it'.isGenerator = true ∧ it'.state = .active ∧
      it'.key = .int (Int64.ofNat it.yields) ∧ it'.current = values ∧
      it'.yields = it.yields + 1 := by
  obtain ⟨n, f, channel, t, resumes, yields, ran, rfl⟩ := yields
  have underway := resumes.underway plain accounted protocol found generates ready (by simp)
  have belongs := bottom_singleton.mp underway.bottom
  obtain ⟨k, grows, -, it₁, g, reads, heap⟩ :=
    Session.tick_yields underway.coded belongs yields ran
  have generating := underway.protocol.frames f (List.mem_cons_self ..) x belongs
  have object := Heap.iteratorAt_eq_ok reads
  obtain ⟨generates₁, count⟩ := underway.left it₁ (grows.same generating object)
  have generates' := (it₁.park_isGenerator g values).trans generates₁
  have parks : (Object.iterator (it₁.park g values).2 : Object H).Codes fun _ => True :=
    fun _ _ _ _ => trivial
  have set := (underway.coded.grows grows).setObject object parks
  obtain ⟨o, final⟩ := Option.isSome_iff_exists.mp live
  have parked := Heap.Grows.same (Q := fun _ => True) (heap ▸ set.here.disposeAll _)
    ((generating.grows grows).setObject object generates') final
  rw [Heap.object?_setObject object, if_pos rfl] at parked
  cases parked
  obtain ⟨state, source, key, current, counted⟩ := it₁
  cases count
  cases source with
  | walk => cases generates₁
  | generator => exact ⟨_, final, rfl, rfl, rfl, rfl, rfl⟩

theorem nextValue_of_yields (plain : host.Plain fun _ => True) (accounted : m.heap.Accounted [])
    (protocol : m.heap.Protocol others) (handle : Heap.iteratorHandle v = .ok x)
    (found : m.heap.object? x = some (.iterator it)) (generates : it.isGenerator = true)
    (ready : it.state = .created ∨ it.state = .active) (yields : Yields host x m values m')
    (live : (m'.heap.object? x).isSome) :
    ∃ enough, ∀ fuel, enough ≤ fuel →
      nextValue host fuel v m = some (.ok (some (firstOf values)), m'.note .engine .debug) := by
  obtain ⟨it', found', -, state', -, current', -⟩ :=
    yields.entry plain accounted protocol found generates ready live
  obtain ⟨n, f, channel, t, resumes, yields, ran, rfl⟩ := yields
  have underway := resumes.underway plain accounted protocol found generates ready (by simp)
  obtain ⟨k, -, parked⟩ :=
    Session.tick_yields underway.coded (bottom_singleton.mp underway.bottom) yields ran
  obtain ⟨s₀, advanced, ticks⟩ := resumes
  have idle : t.job.isIdle := by rw [parked.idle]; rfl
  obtain ⟨enough, driven⟩ := Session.Ticks.drive (ticks.tail ran) (Session.drive_of_idle idle)
  rw [parked.idle] at driven
  have notEnded : it.state ≠ .exhausted := by rcases ready with state | state <;> simp [state]
  refine ⟨enough, fun fuel more => ?_⟩
  rw [nextValue_of_drive handle found generates notEnded advanced driven more]
  have reads : ((t.machine.note .engine .debug).dispose []).heap.iteratorAt x = .ok it' :=
    Heap.iteratorAt_of_object? found'
  simp only [shown, reads, Except.map, state', if_true, current']
  rfl

theorem nextValue_of_finishes (plain : host.Plain fun _ => True) (accounted : m.heap.Accounted [])
    (protocol : m.heap.Protocol others) (handle : Heap.iteratorHandle v = .ok x)
    (found : m.heap.object? x = some (.iterator it)) (generates : it.isGenerator = true)
    (ready : it.state = .created ∨ it.state = .active) (finishes : Finishes host x m) :
    ∃ m', m'.heap.Ended x ∧ ∃ enough, ∀ fuel, enough ≤ fuel →
      nextValue host fuel v m = some (shown x m', m') := by
  obtain ⟨n, f, channel, t, resumes, silent, ran, idle⟩ := finishes
  have underway := resumes.underway plain accounted protocol found generates ready (by simp)
  obtain ⟨s₀, advanced, ticks⟩ := resumes
  obtain ⟨enough, driven⟩ := Session.Ticks.drive (ticks.tail ran) (Session.drive_of_idle idle)
  have notEnded : it.state ≠ .exhausted := by rcases ready with state | state <;> simp [state]
  refine ⟨_, ?_, enough, fun fuel more =>
    nextValue_of_drive handle found generates notEnded advanced driven more⟩
  have moved : Session.Moved .quiet n.heap [f] ⟨n, ⟨[f], channel, none⟩⟩ :=
    ⟨.refl, underway.coded, fun _ _ _ => trivial⟩
  have after := (Effect.ensures_of_eq_ok ran).mp (Session.ensures_tick (p := .quiet) plain
    .blocking none moved (.inr fun g top => Option.some.inj top ▸ silent))
  have ended : t.machine.heap.Ended x := by
    rcases after.moves.bottom (fun never => never) underway.coded underway.protocol
      underway.bottom with ⟨bottom, -⟩ | ⟨-, parks | ended⟩
    · simp only [Job.isIdle, Bool.and_eq_true, List.isEmpty_iff] at idle
      exact absurd idle.1 bottom.loaded
    · exact parks.elim
    · exact ended
  exact ended.grows (after.coded.here.disposeAll _)

theorem exhausted_of_ended (ended : m.heap.Ended x) (live : (m.heap.object? x).isSome) :
    ∃ it, m.heap.iteratorAt x = .ok it ∧ it.state = .exhausted := by
  obtain ⟨o, found⟩ := Option.isSome_iff_exists.mp live
  obtain ⟨it, rfl, -⟩ := ended.generator o found
  exact ⟨it, Heap.iteratorAt_of_object? found, ended.state it found⟩

theorem shown_of_ended (ended : m.heap.Ended x) (live : (m.heap.object? x).isSome) :
    shown x m = .ok none := by
  obtain ⟨it, reads, gone⟩ := exhausted_of_ended ended live
  simp [shown, reads, Except.map, gone]

theorem nextValue_of_ended (handle : Heap.iteratorHandle v = .ok x) (ended : m.heap.Ended x)
    (live : (m.heap.object? x).isSome) (fuel : Nat) :
    nextValue host fuel v m = some (.ok none, m) := by
  obtain ⟨it, reads, gone⟩ := exhausted_of_ended ended live
  simp [nextValue_eq, handle, Except.bind, reads, Except.map, gone]

end Machine

namespace System

variable {H W : Type} {host : Host H W} {s t : System H W} {x : Handle} {it : Iterator}

/-- What is so of a live generator: where its frame is, by its state, and that it stays ended. -/
structure Obeys (host : Host H W) (s : System H W) (x : Handle) (it : Iterator) : Prop where
  parked : (it.state = .created ∨ it.state = .active) ↔
    ∃ f, it.parked = some f ∧ f.generator = some x
  away : it.state = .running ∨ it.state = .exhausted ↔ it.parked = none
  /-- The number of its frames on the stacks of all jobs. -/
  running : runners x s.frames = if it.state = .running then 1 else 0
  cleared : it.state = .exhausted → it.key = .null ∧ it.current = []
  ended : it.state = .exhausted → ∀ t, Steps host s t → runners x t.frames = 0 ∧
    ∀ it', t.machine.heap.object? x = some (.iterator it') → it'.state = .exhausted

theorem Sound.over (sound : s.Sound) (found : s.machine.heap.object? x = some (.iterator it))
    (generates : it.isGenerator = true) (exhausted : it.state = .exhausted) : s.Over x := by
  have keeps := sound.protocol.keeps x it found generates
  simp only [Iterator.Keeps, exhausted] at keeps
  refine ⟨⟨⟨sound.accounted.issued_of_live found, fun o found' => ?_⟩, fun it' found' => ?_⟩,
    keeps.2.1⟩
  · rw [found] at found'
    cases found'
    exact ⟨it, rfl, generates⟩
  · rw [found] at found'
    cases found'
    exact exhausted

theorem Sound.obeys (plain : host.Plain fun _ => True) (sound : s.Sound)
    (found : s.machine.heap.object? x = some (.iterator it)) (generates : it.isGenerator = true) :
    Obeys host s x it := by
  have keeps := sound.protocol.keeps x it found generates
  have ended : it.state = .exhausted → ∀ t, Steps host s t → runners x t.frames = 0 ∧
      ∀ it', t.machine.heap.object? x = some (.iterator it') → it'.state = .exhausted := by
    intro exhausted t steps
    have gone := (steps.over plain sound (sound.over found generates exhausted)).2
    exact ⟨gone.quiet, gone.ended.state⟩
  unfold Iterator.Keeps at keeps
  cases state : it.state <;> simp only [state] at keeps
  · obtain ⟨⟨f, parked, own⟩, none, -⟩ := keeps
    exact ⟨by simp [state, parked, own], by simp [state, parked], by simp [state, none],
      by simp [state], ended⟩
  · obtain ⟨⟨f, parked, own⟩, none⟩ := keeps
    exact ⟨by simp [state, parked, own], by simp [state, parked], by simp [state, none],
      by simp [state], ended⟩
  · obtain ⟨away, one⟩ := keeps
    exact ⟨by simp [state, away], by simp [state, away], by simp [state, one],
      by simp [state], ended⟩
  · obtain ⟨away, none, key, current⟩ := keeps
    exact ⟨by simp [state, away], by simp [state, away], by simp [state, none],
      fun _ => ⟨key, current⟩, ended⟩

/-- The body of a generator yields `values 0`, ..., `values (n - 1)` and then ends, whenever the
generator is gone on with in the systems `before 0`, ..., `before n`. Whatever happens after a yield
leaves the generator alone until the next call. -/
structure Serves (host : Host H W) (x : Handle) (n : Nat) (values : Nat → List Value)
    (before : Nat → System H W) (after : Nat → Machine H W) : Prop where
  reachable : ∀ i, i ≤ n → Reachable host (before i)
  created : ∃ it, (before 0).machine.heap.object? x = some (.iterator it) ∧
    it.isGenerator = true ∧ it.state = .created
  yields : ∀ i, i < n → (before i).machine.Yields host x (values i) (after i)
  live : ∀ i, i < n → ((after i).heap.object? x).isSome
  undisturbed : ∀ i, i < n →
    (before (i + 1)).machine.heap.object? x = (after i).heap.object? x
  finishes : (before n).machine.Finishes host x

section
variable {n : Nat} {values : Nat → List Value} {before : Nat → System H W}
  {after : Nat → Machine H W}

theorem Serves.ready (serves : Serves host x n values before after)
    (plain : host.Plain fun _ => True) :
    ∀ i, i ≤ n → ∃ it, (before i).machine.heap.object? x = some (.iterator it) ∧
      it.isGenerator = true ∧ (it.state = .created ∨ it.state = .active) ∧ it.yields = i := by
  intro i
  induction i with
  | zero =>
    intro _
    obtain ⟨it, found, generates, created⟩ := serves.created
    have sound := (serves.reachable 0 (Nat.zero_le n)).sound plain
    have keeps := sound.protocol.keeps x it found generates
    simp only [Iterator.Keeps, created] at keeps
    exact ⟨it, found, generates, .inl created, keeps.2.2⟩
  | succ i ih =>
    intro more
    obtain ⟨it, found, generates, ready, count⟩ := ih (by omega)
    have sound := (serves.reachable i (by omega)).sound plain
    obtain ⟨it', found', generates', state, -, -, count'⟩ :=
      (serves.yields i more).entry plain sound.accounted sound.protocol found generates ready
        (serves.live i more)
    exact ⟨it', (serves.undisturbed i more).trans found', generates', .inr state, by omega⟩

end

/-- In every system that comes about, each live generator has its frame where its state says, and
one that has ended stays so. Successive calls answer what the body of a generator yields, in order
and numbered from zero; when the body has come to its end, calls answer nothing for ever, and no
frame of the generator is on a stack again. -/
theorem generators_obey (plain : host.Plain fun _ => True) :
    (∀ s, Reachable host s → ∀ x it, s.machine.heap.object? x = some (.iterator it) →
      it.isGenerator = true → Obeys host s x it) ∧
    ∀ x v n values before after, Heap.iteratorHandle v = .ok x →
      Serves host x n values before after →
      (∀ i, i < n →
        (∃ enough, ∀ fuel, enough ≤ fuel → (before i).machine.nextValue host fuel v =
          some (.ok (some (Machine.firstOf (values i))), (after i).note .engine .debug)) ∧
        (after i).heap.currentEntry v true = .ok (.int (Int64.ofNat i))) ∧
      ∃ m r, (∃ enough, ∀ fuel, enough ≤ fuel →
          (before n).machine.nextValue host fuel v = some (r, m)) ∧
        ((m.heap.object? x).isSome → r = .ok none) ∧
        ∀ t, Steps host ⟨m, (before n).jobs⟩ t → runners x t.frames = 0 ∧
          ((t.machine.heap.object? x).isSome → ∀ fuel,
            t.machine.nextValue host fuel v = some (.ok none, t.machine)) := by
  refine ⟨fun s reachable x it found generates => (reachable.sound plain).obeys plain found generates,
    fun x v n values before after handle serves => ⟨fun i less => ?_, ?_⟩⟩
  · obtain ⟨it, found, generates, ready, count⟩ := serves.ready plain i (by omega)
    have sound := (serves.reachable i (by omega)).sound plain
    obtain ⟨it', found', -, -, key, -, -⟩ := (serves.yields i less).entry plain sound.accounted
      sound.protocol found generates ready (serves.live i less)
    refine ⟨Machine.nextValue_of_yields plain sound.accounted sound.protocol handle found generates
      ready (serves.yields i less) (serves.live i less), ?_⟩
    simp [Heap.currentEntry, handle, Heap.iteratorAt_of_object? found', key, count, bind, Except.bind,
      pure, Except.pure]
    rfl
  · obtain ⟨it, found, generates, ready, -⟩ := serves.ready plain n (Nat.le_refl n)
    have reachable := serves.reachable n (Nat.le_refl n)
    have sound := reachable.sound plain
    obtain ⟨m, ended, enough, answers⟩ := Machine.nextValue_of_finishes plain sound.accounted
      sound.protocol handle found generates ready serves.finishes
    have step : Step host (before n) ⟨m, (before n).jobs⟩ :=
      .nextValue _ _ _ enough v _ (answers enough (Nat.le_refl enough))
    have gone : Over ⟨m, (before n).jobs⟩ x := by
      have running := (sound.obeys plain found generates).running
      refine ⟨ended, running.trans (if_neg ?_)⟩
      rcases ready with state | state <;> simp [state]
    refine ⟨m, _, ⟨enough, answers⟩, Machine.shown_of_ended ended, fun t steps => ?_⟩
    have after := (steps.over plain (step.sound plain sound) gone).2
    exact ⟨after.quiet, fun live fuel => Machine.nextValue_of_ended handle after.ended live fuel⟩

/-! A generator that yields one number, called and gone on with twice. -/

def seven : Function :=
  { name := "seven", generator := true
    code := [{ op := .pushInt, int := 7 }, { op := .yield, int := 1 }] }

def sevenUnit : CodeUnit := seven.assemble [none, none] false

/-- The session that an operation comes to, whether it fails or not. -/
def reached {α : Type} (op : SessionM Unit Unit α) (s : Session Unit Unit) : Session Unit Unit :=
  (op.outcome s).2

def sevenCalled : Session Unit Unit :=
  reached ((Act.callUnit sevenUnit []).op Session.idle) ⟨{ world := () }, {}⟩

def sevenMade : System Unit Unit := ⟨sevenCalled.machine, [sevenCalled.job]⟩

def sevenIterator : Value := .owned ⟨.iterator, ⟨0, 0⟩⟩

def sevenTicked (m : Machine Unit Unit) : Nat → Session Unit Unit
  | 0 => reached (Session.advance ⟨0, 0⟩ 0) ⟨m, {}⟩
  | n + 1 => reached (Session.tick Session.idle .blocking none) (sevenTicked m n)

def sevenYielded : Machine Unit Unit := (sevenTicked sevenMade.machine 2).machine

def sevenShown : System Unit Unit := ⟨sevenYielded.note .engine .debug, sevenMade.jobs⟩

theorem reachable_sevenMade : Reachable Session.idle sevenMade := by
  refine ⟨{ world := () }, rfl, .tail (.tail .refl (.spawn _ [])) ?_⟩
  exact .act _ [] [] {} (.callUnit sevenUnit []) sevenCalled rfl

theorem yields_seven :
    sevenMade.machine.Yields Session.idle ⟨0, 0⟩ [.int 7] sevenYielded := by
  let s := sevenTicked sevenMade.machine 1
  exact ⟨s.machine, s.job.frames.head!, s.job.channel, sevenTicked sevenMade.machine 2,
    ⟨sevenTicked sevenMade.machine 0, rfl, .single rfl⟩, rfl, rfl, rfl⟩

theorem finishes_seven : sevenShown.machine.Finishes Session.idle ⟨0, 0⟩ := by
  let s := sevenTicked sevenShown.machine 0
  exact ⟨s.machine, s.job.frames.head!, s.job.channel, _, ⟨s, rfl, .refl⟩, rfl,
    Effect.eq_ok_of_outcome rfl, rfl⟩

theorem reachable_sevenShown : Reachable Session.idle sevenShown := by
  have plain := Session.plain_idle fun _ => True
  have sound := reachable_sevenMade.sound plain
  obtain ⟨enough, answers⟩ := Machine.nextValue_of_yields (v := sevenIterator) plain
    sound.accounted sound.protocol rfl rfl rfl (.inl rfl) yields_seven rfl
  obtain ⟨m, empty, steps⟩ := reachable_sevenMade
  exact ⟨m, empty, steps.tail (.nextValue _ _ _ enough _ _ (answers enough (Nat.le_refl enough)))⟩

theorem serves_seven : Serves Session.idle ⟨0, 0⟩ 1 (fun _ => [.int 7])
    (fun i => if i = 0 then sevenMade else sevenShown) (fun _ => sevenYielded) where
  reachable i _ := by
    cases i with
    | zero => exact reachable_sevenMade
    | succ i => exact reachable_sevenShown
  created := ⟨_, rfl, rfl, rfl⟩
  yields i less := by
    obtain rfl : i = 0 := by omega
    exact yields_seven
  live _ _ := rfl
  undisturbed i less := by
    obtain rfl : i = 0 := by omega
    rfl
  finishes := finishes_seven

theorem generators_obey_seven :
    (∃ enough, ∀ fuel, enough ≤ fuel → sevenMade.machine.nextValue Session.idle fuel sevenIterator =
      some (.ok (some (.int 7)), sevenShown.machine)) ∧
    ∃ m r, (∃ enough, ∀ fuel, enough ≤ fuel →
        sevenShown.machine.nextValue Session.idle fuel sevenIterator = some (r, m)) ∧
      ((m.heap.object? ⟨0, 0⟩).isSome → r = .ok none) ∧
      ∀ t, Steps Session.idle ⟨m, sevenShown.jobs⟩ t → runners ⟨0, 0⟩ t.frames = 0 := by
  obtain ⟨yields, m, r, answers, gone, later⟩ :=
    (generators_obey (Session.plain_idle _)).2 _ sevenIterator 1 _ _ _ rfl serves_seven
  exact ⟨(yields 0 (by omega)).1, m, r, answers, gone, fun t steps => (later t steps).1⟩

end System

end ScriptMachine
