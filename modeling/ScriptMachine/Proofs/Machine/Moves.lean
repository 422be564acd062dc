import ScriptMachine.Machine.Run
import ScriptMachine.Proofs.Heap.Generators

/-!
# Moves of frames

A transfer of control changes the heap and a stack of frames in few ways, which `Move` lists: it
leaves generators alone, changes the top of the stack without changing what it runs, or takes one
frame to or from the stack. For each move it is shown here that code stays known, that the protocol
of generators is kept whatever frames there are on other stacks, and that an ended generator stays
ended. A run of moves keeps what each of them keeps.
-/

set_option autoImplicit false

namespace ScriptMachine

namespace Iterator

variable (it : Iterator) (f : Frame) (values : List Value)

theorem finish_keeps (x : Handle) (away : it.parked = none) : it.finish.2.Keeps x 0 :=
  ⟨(finish_parked it).trans away, rfl, rfl, rfl⟩
where
  finish_parked (it : Iterator) : it.finish.2.parked = it.parked := (Heap.finish_edit it).2.symm

theorem park_isGenerator : (it.park f values).2.isGenerator = it.isGenerator := by
  obtain ⟨state, source, key, current, yields⟩ := it
  cases source <;> rfl

variable {it f}

theorem park_parked (generates : it.isGenerator = true) :
    (it.park f values).2.parked = some f := by
  obtain ⟨state, source, key, current, yields⟩ := it
  cases source with
  | walk => cases generates
  | generator => rfl

theorem eq_of_park {g : Frame} (parked : (it.park f values).2.parked = some g) : g = f := by
  obtain ⟨state, source, key, current, yields⟩ := it
  cases source with
  | walk => cases parked
  | generator => exact (Option.some.inj parked).symm

theorem resume_eq_some {it' : Iterator} (resumed : it.resume = (some f, it')) :
    it.isGenerator = true ∧ it.state ≠ .exhausted ∧ it.parked = some f ∧
      it'.isGenerator = true ∧ it'.parked = none ∧ it'.state = .running := by
  obtain ⟨state, source, key, current, yields⟩ := it
  cases source with
  | walk => cases resumed
  | generator away =>
    cases away <;> cases state <;> cases resumed <;>
      exact ⟨rfl, by simp, rfl, rfl, rfl, rfl⟩

end Iterator

namespace Heap

variable {H : Type} {Q : CodeUnit → Prop} {h k : Heap H} {x : Handle} {it : Iterator}
  {f g : Frame} {fs gs others : List Frame}

/-- The accounts are in order, and all code on the heap and in the frames is of units with `Q`. -/
structure Coded (Q : CodeUnit → Prop) (h : Heap H) (fs : List Frame) : Prop where
  accounted : h.Accounted []
  code : h.All fun _ o => o.Codes Q
  frames : ∀ f ∈ fs, f.Codes Q

theorem Coded.grows (coded : h.Coded Q fs) (grows : h.Grows Q k) : k.Coded Q fs :=
  ⟨grows.accounted, grows.code coded.code, coded.frames⟩

theorem Coded.here (coded : h.Coded Q fs) : h.Grows Q h := .refl coded.accounted coded.code

theorem Coded.setObject {o o' : Object H} (coded : h.Coded Q fs) (found : h.object? x = some o)
    (new : o'.Codes Q) : (h.setObject x o').Coded Q fs :=
  ⟨coded.accounted.setObject found o', coded.code.setObject found new, coded.frames⟩

theorem Coded.top (coded : h.Coded Q (f :: fs)) : f.Codes Q :=
  coded.frames f (List.mem_cons_self ..)

theorem Coded.pop (coded : h.Coded Q (f :: fs)) : h.Coded Q fs :=
  ⟨coded.accounted, coded.code, fun g mem => coded.frames g (List.mem_cons_of_mem _ mem)⟩

theorem Coded.push (coded : h.Coded Q fs) (code : f.Codes Q) : h.Coded Q (f :: fs) :=
  ⟨coded.accounted, coded.code, List.forall_mem_cons.mpr ⟨code, coded.frames⟩⟩

theorem Coded.parked (coded : h.Coded Q fs) (found : h.iteratorAt x = .ok it)
    (parked : it.parked = some f) : f.Codes Q :=
  (coded.code.object? (iteratorAt_eq_ok found)) f parked

theorem Coded.closure (coded : h.Coded Q fs) {v : Value} {u : CodeUnit} {captures : Buffer}
    (found : h.callableOf v = .ok (.script u captures)) : Q u := by
  obtain ⟨x, object⟩ := callableOf_eq_ok found
  exact coded.code.object? object

theorem Coded.finished (coded : h.Coded Q fs) (found : h.iteratorAt x = .ok it) :
    (h.setObject x (.iterator it.finish.2)).Coded Q fs :=
  coded.setObject (iteratorAt_eq_ok found) fun _ parked =>
    coded.parked found ((finish_edit it).2.trans parked)

/-- The iterator of a generator that ends is changed in place; then its last entry is disposed. -/
theorem Coded.exhaust_grows (coded : h.Coded Q fs) (found : h.iteratorAt x = .ok it) :
    (h.setObject x (.iterator it.finish.2)).Grows Q (h.exhaust x) := by
  rw [exhaust_of_ok found]
  exact (coded.finished found).here.disposeAll _

theorem Coded.exhaust (coded : h.Coded Q fs) (x : Handle) : (h.exhaust x).Coded Q fs := by
  cases found : h.iteratorAt x with
  | error e =>
    rw [exhaust_of_error found]
    exact coded
  | ok it => exact (coded.finished found).grows (coded.exhaust_grows found)

theorem Accounted.object?_made (accounted : h.Accounted []) {o : Object H} {ref : HeapRef}
    (answer : (h.alloc o).1.ref? = some ref) :
    ¬ h.Issued ref.handle ∧
      ∀ y, (h.alloc o).2.object? y = if y = ref.handle then some o else h.object? y := by
  obtain ⟨x, answer', new, found⟩ := accounted.object?_alloc o
  rw [answer'] at answer
  cases answer
  exact ⟨new, found⟩

/-- A frame that is put into a new iterator is bound to it; all other handles are left alone. -/
theorem Coded.made (coded : h.Coded Q fs) {ref : HeapRef}
    (answer : (h.alloc (.iterator (.ofFrame f))).1.ref? = some ref) :
    let bound : Object H := .iterator ((Iterator.ofFrame f).bind ref.handle)
    let k := (h.alloc (.iterator (.ofFrame f))).2.setObject ref.handle bound
    ¬ h.Issued ref.handle ∧
      (∀ y, k.object? y = if y = ref.handle then some bound else h.object? y) ∧
      ∀ y, h.Issued y → k.Issued y := by
  intro bound k
  obtain ⟨new, found⟩ := coded.accounted.object?_made answer
  have placed := (found ref.handle).trans (if_pos rfl)
  refine ⟨new, fun y => ?_, fun y issued => (issued_setObject placed y).mpr ?_⟩
  · rw [object?_setObject placed, found]
    split <;> rfl
  · exact (Later.alloc (P := fun _ _ => True) ⟨coded.accounted, fun _ _ _ _ _ => trivial,
      Evolves.refl h⟩ fun _ => trivial).evolves.issued y issued

/-! ## Moves -/

/-- What moves may do: the code that they may bring in, whether they may put a frame on an empty
stack, and whether they may park one. -/
structure Permits where
  code : CodeUnit → Prop
  start : Prop
  park : Prop

inductive Move (p : Permits) : Heap H → List Frame → Heap H → List Frame → Prop
  | heap {h k : Heap H} {fs : List Frame} : h.Grows p.code k → Move p h fs k fs
  | edit {h : Heap H} {f g : Frame} {fs : List Frame} : g.unit = f.unit →
      g.generator = f.generator → Move p h (f :: fs) h (g :: fs)
  | enter {h : Heap H} {f : Frame} {fs : List Frame} : p.start ∨ fs ≠ [] → f.generator = none →
      f.Codes p.code → Move p h fs h (f :: fs)
  | leave {h : Heap H} {f : Frame} {fs : List Frame} : f.generator = none → Move p h (f :: fs) h fs
  | finish {h : Heap H} {f : Frame} {fs : List Frame} {x : Handle} : f.generator = some x →
      Move p h (f :: fs) (h.exhaust x) fs
  | park {h : Heap H} {f : Frame} {fs : List Frame} {x : Handle} {it : Iterator}
      (values : List Value) : p.park → f.generator = some x → h.iteratorAt x = .ok it →
      Move p h (f :: fs) (h.setObject x (.iterator (it.park f values).2)) fs
  | resume {h : Heap H} {f : Frame} {fs : List Frame} {x : Handle} {it it' : Iterator} :
      p.start ∨ fs ≠ [] → h.iteratorAt x = .ok it → it.state ≠ .running →
      it.resume = (some f, it') → Move p h fs (h.setObject x (.iterator it')) (f :: fs)
  /-- A frame is put into a new iterator. -/
  | make {h : Heap H} {f : Frame} {fs : List Frame} {ref : HeapRef} : f.generator = none →
      f.Codes p.code → (h.alloc (.iterator (.ofFrame f))).1.ref? = some ref →
      Move p h fs ((h.alloc (.iterator (.ofFrame f))).2.setObject ref.handle
        (.iterator ((Iterator.ofFrame f).bind ref.handle))) fs

variable {p : Permits}

theorem Move.coded (move : Move p h fs k gs) (coded : h.Coded p.code fs) : k.Coded p.code gs := by
  cases move with
  | heap grows => exact coded.grows grows
  | edit unit generator =>
    exact coded.pop.push fun u found => coded.top u (unit.symm.trans found)
  | enter _ plain code => exact coded.push code
  | leave plain => exact coded.pop
  | finish belongs => exact coded.pop.exhaust _
  | park values _ belongs found =>
    refine coded.pop.setObject (iteratorAt_eq_ok found) fun g parked => ?_
    exact Iterator.eq_of_park values parked ▸ coded.top
  | @resume f fs x it it' _ found running resumed =>
    obtain ⟨-, -, parked, -, away, -⟩ := Iterator.resume_eq_some resumed
    have emptied : (Object.iterator it' : Object H).Codes p.code := fun g parked' => by
      rw [away] at parked'
      cases parked'
    exact (coded.setObject (iteratorAt_eq_ok found) emptied).push (coded.parked found parked)
  | @make f _ ref plain code answer =>
    have made : (Object.iterator (.ofFrame f) : Object H).Codes p.code := fun g parked =>
      Option.some.inj parked ▸ code
    have placed : Later (fun _ o => Object.Codes p.code o) [] h (h.alloc (.iterator (.ofFrame f))).2 :=
      Later.alloc ⟨coded.accounted, coded.code, Evolves.refl h⟩ fun _ => made
    obtain ⟨-, found⟩ := coded.accounted.object?_made answer
    refine (Coded.mk placed.accounted placed.all coded.frames).setObject
      ((found _).trans (if_pos rfl)) fun g parked => ?_
    cases parked
    exact code

theorem Protocol.running_of_pos (protocol : h.Protocol fs) (pos : 0 < runners x fs)
    (found : h.object? x = some (.iterator it)) (generates : it.isGenerator = true) :
    it.state = .running ∧ it.parked = none ∧ runners x fs = 1 := by
  have keeps := protocol.keeps x it found generates
  unfold Iterator.Keeps at keeps
  cases state : it.state <;> simp only [state] at keeps
  · omega
  · omega
  · exact ⟨rfl, keeps⟩
  · omega

theorem Protocol.running (protocol : h.Protocol (f :: fs)) (belongs : f.generator = some x)
    (found : h.object? x = some (.iterator it)) :
    it.isGenerator = true ∧ it.state = .running ∧ it.parked = none ∧ runners x fs = 0 := by
  obtain ⟨it', same, generates⟩ :=
    (protocol.frames f (List.mem_cons_self ..) x belongs).generator _ found
  cases same
  have counted : runners x (f :: fs) = runners x fs + 1 := by simp [belongs]
  obtain ⟨state, away, one⟩ := protocol.running_of_pos (by omega) found generates
  exact ⟨generates, state, away, by omega⟩

theorem Protocol.resumed {it' : Iterator} (protocol : h.Protocol fs)
    (found : h.object? x = some (.iterator it)) (idle : it.state ≠ .running)
    (resumed : it.resume = (some f, it')) : f.generator = some x ∧ runners x fs = 0 := by
  obtain ⟨generates, notEnded, parked, -, -, -⟩ := Iterator.resume_eq_some resumed
  have keeps := protocol.keeps x it found generates
  obtain ⟨⟨g, parked', belongs⟩, none⟩ : (∃ g, it.parked = some g ∧ g.generator = some x) ∧
      runners x fs = 0 := by
    unfold Iterator.Keeps at keeps
    cases before : it.state <;> simp only [before] at keeps notEnded idle
    · exact ⟨keeps.1, keeps.2.1⟩
    · exact keeps
    · exact absurd rfl idle
    · exact absurd rfl notEnded
  rw [parked] at parked'
  cases parked'
  exact ⟨belongs, none⟩

/-- What becomes of the generator whose frame is gone: its iterator ends in place, unless it is gone
as well. -/
theorem Protocol.exhaust_cases (protocol : h.Protocol (f :: fs)) (coded : h.Coded Q gs)
    (belongs : f.generator = some x) :
    ((∀ it, h.object? x ≠ some (.iterator it)) ∧ h.exhaust x = h) ∨
      ∃ it, h.object? x = some (.iterator it) ∧ it.finish.2.isGenerator = true ∧
        it.parked = none ∧ runners x fs = 0 ∧
        (h.setObject x (.iterator it.finish.2)).Grows Q (h.exhaust x) := by
  cases found : h.iteratorAt x with
  | error e =>
    refine .inl ⟨fun it object => ?_, exhaust_of_error found⟩
    rw [iteratorAt_of_object? object] at found
    cases found
  | ok it =>
    have object := iteratorAt_eq_ok found
    obtain ⟨generates, -, parked, none⟩ := protocol.running belongs object
    exact .inr ⟨it, object, (finish_edit it).1.symm.trans generates, parked, none,
      coded.exhaust_grows found⟩

theorem runners_away (belongs : f.generator = some x) {y : Handle} (ne : y ≠ x) :
    runners y fs = runners y (f :: fs) := by
  have other : f.generator ≠ some y := fun same => ne (Option.some.inj (same.symm.trans belongs))
  simp [other]

theorem Protocol.finish (protocol : h.Protocol (f :: fs)) (coded : h.Coded Q gs)
    (belongs : f.generator = some x) : (h.exhaust x).Protocol fs := by
  have frames : ∀ g ∈ fs, ∀ y, g.generator = some y → h.Generating y :=
    fun g mem => protocol.frames g (List.mem_cons_of_mem _ mem)
  rcases protocol.exhaust_cases coded belongs with
    ⟨gone, same⟩ | ⟨it, object, generates, parked, none, grows⟩
  · rw [same]
    refine ⟨fun y it object generates => ?_, frames⟩
    have ne : y ≠ x := by
      rintro rfl
      exact gone it object
    exact runners_away belongs ne ▸ protocol.keeps y it object generates
  · exact (protocol.setObject object generates (none ▸ it.finish_keeps x parked)
      (fun _ => runners_away belongs) frames).grows grows

theorem Protocol.park (protocol : h.Protocol (f :: fs)) (belongs : f.generator = some x)
    (found : h.iteratorAt x = .ok it) (values : List Value) :
    (h.setObject x (.iterator (it.park f values).2)).Protocol fs := by
  have object := iteratorAt_eq_ok found
  obtain ⟨generates, -, -, none⟩ := protocol.running belongs object
  exact protocol.setObject object ((it.park_isGenerator f values).trans generates)
    ⟨⟨f, Iterator.park_parked values generates, belongs⟩, none⟩ (fun _ => runners_away belongs)
    fun g mem => protocol.frames g (List.mem_cons_of_mem _ mem)

theorem Protocol.resume {it' : Iterator} (protocol : h.Protocol fs) (accounted : h.Accounted [])
    (found : h.iteratorAt x = .ok it) (idle : it.state ≠ .running)
    (resumed : it.resume = (some f, it')) : (h.setObject x (.iterator it')).Protocol (f :: fs) := by
  have object := iteratorAt_eq_ok found
  obtain ⟨generates, -, -, generates', away, state⟩ := Iterator.resume_eq_some resumed
  obtain ⟨belongs, none⟩ := protocol.resumed object idle resumed
  refine protocol.setObject object generates' ?_ (fun _ ne => (runners_away belongs ne).symm)
    fun g mem y belongs' => ?_
  · unfold Iterator.Keeps
    rw [state, runners_cons, if_pos belongs, none]
    exact ⟨away, rfl⟩
  · rcases List.mem_cons.mp mem with rfl | mem
    · rw [belongs] at belongs'
      cases belongs'
      refine ⟨accounted.issued_of_live object, fun o found' => ?_⟩
      rw [object] at found'
      cases found'
      exact ⟨it, rfl, generates⟩
    · exact protocol.frames g mem y belongs'

theorem Protocol.make {ref : HeapRef} (protocol : h.Protocol fs) (coded : h.Coded Q gs)
    (answer : (h.alloc (.iterator (.ofFrame f))).1.ref? = some ref) :
    Protocol ((h.alloc (.iterator (.ofFrame f))).2.setObject ref.handle
      (.iterator ((Iterator.ofFrame f).bind ref.handle))) fs := by
  obtain ⟨new, found, issued⟩ := coded.made answer
  have unused : runners ref.handle fs = 0 :=
    runners_eq_zero fun g mem belongs => new (protocol.frames g mem _ belongs).issued
  refine ⟨fun y it object generates => ?_, fun g mem y belongs => ?_⟩
  · rw [found] at object
    by_cases eq : y = ref.handle
    · subst eq
      rw [if_pos rfl] at object
      cases object
      exact ⟨⟨_, rfl, rfl⟩, unused, rfl⟩
    · rw [if_neg eq] at object
      exact protocol.keeps y it object generates
  · have generating := protocol.frames g mem y belongs
    have ne : y ≠ ref.handle := by
      rintro rfl
      exact new generating.issued
    refine ⟨issued y generating.issued, fun o object => generating.generator o ?_⟩
    rwa [found, if_neg ne] at object

theorem Move.protocol (move : Move p h fs k gs) (coded : h.Coded p.code fs)
    (protocol : h.Protocol (fs ++ others)) : k.Protocol (gs ++ others) := by
  cases move with
  | heap grows => exact protocol.grows grows
  | edit unit generator =>
    refine protocol.of_generators ?_
    simp [generator]
  | enter _ plain code => exact (protocol_cons plain).mpr protocol
  | leave plain => exact (protocol_cons plain).mp protocol
  | finish belongs => exact protocol.finish coded belongs
  | park values _ belongs found => exact protocol.park belongs found values
  | resume _ found idle resumed => exact protocol.resume coded.accounted found idle resumed
  | make _ _ answer => exact protocol.make coded answer

theorem Move.ended (move : Move p h fs k gs) (coded : h.Coded p.code fs)
    (protocol : h.Protocol (fs ++ others)) (ended : h.Ended x) : k.Ended x := by
  cases move with
  | heap grows => exact ended.grows grows
  | edit | enter | leave => exact ended
  | finish belongs =>
    rcases protocol.exhaust_cases coded belongs with
      ⟨-, same⟩ | ⟨it, object, generates, -, -, grows⟩
    · exact same.symm ▸ ended
    · exact (ended.setObject object generates fun _ => rfl).grows grows
  | @park f _ y it values _ belongs found =>
    have object := iteratorAt_eq_ok found
    obtain ⟨generates, running, -, -⟩ := protocol.running belongs object
    refine ended.setObject object ((it.park_isGenerator f values).trans generates) ?_
    rintro rfl
    have gone := ended.state it object
    rw [running] at gone
    cases gone
  | @resume f _ y it it' _ found running resumed =>
    have object := iteratorAt_eq_ok found
    obtain ⟨-, notEnded, -, generates', -, -⟩ := Iterator.resume_eq_some resumed
    refine ended.setObject object generates' ?_
    rintro rfl
    exact absurd (ended.state it object) notEnded
  | @make f _ ref plain code answer =>
    obtain ⟨new, found, issued⟩ := coded.made answer
    have ne : x ≠ ref.handle := fun eq => new (eq ▸ ended.issued)
    have same := (found x).trans (if_neg ne)
    exact ⟨⟨issued x ended.issued, fun o object => ended.generator o (same ▸ object)⟩,
      fun it object => ended.state it (same ▸ object)⟩

theorem Move.quiet (move : Move p h fs k gs) (protocol : h.Protocol (fs ++ others))
    (ended : h.Ended x) (quiet : runners x fs = 0) : runners x gs = 0 := by
  cases move with
  | heap | make => exact quiet
  | edit _ generator => simpa [generator] using quiet
  | enter _ plain => simpa [plain] using quiet
  | leave | finish | park =>
    rw [runners_cons] at quiet
    omega
  | @resume f _ y it it' _ found running resumed =>
    have object := iteratorAt_eq_ok found
    obtain ⟨-, notEnded, -, -, -, -⟩ := Iterator.resume_eq_some resumed
    obtain ⟨belongs, -⟩ := protocol.resumed object running resumed
    have other : y ≠ x := by
      rintro rfl
      exact notEnded (ended.state it object)
    simp [belongs, other, quiet]

/-! ## Runs of moves -/

inductive Moves (p : Permits) (h : Heap H) (fs : List Frame) : Heap H → List Frame → Prop
  | refl : Moves p h fs h fs
  | tail {j k : Heap H} {gs ks : List Frame} : Moves p h fs j gs → Move p j gs k ks →
      Moves p h fs k ks

theorem Moves.coded (moves : Moves p h fs k gs) (coded : h.Coded p.code fs) : k.Coded p.code gs := by
  induction moves with
  | refl => exact coded
  | tail _ move ih => exact move.coded ih

theorem Moves.protocol (moves : Moves p h fs k gs) (coded : h.Coded p.code fs)
    (protocol : h.Protocol (fs ++ others)) : k.Protocol (gs ++ others) := by
  induction moves with
  | refl => exact protocol
  | tail moves move ih => exact move.protocol (moves.coded coded) ih

theorem Moves.ended (moves : Moves p h fs k gs) (coded : h.Coded p.code fs)
    (protocol : h.Protocol (fs ++ others)) (ended : h.Ended x) : k.Ended x := by
  induction moves with
  | refl => exact ended
  | tail moves move ih =>
    exact move.ended (moves.coded coded) (moves.protocol coded protocol) ih

theorem Moves.quiet (moves : Moves p h fs k gs) (coded : h.Coded p.code fs)
    (protocol : h.Protocol (fs ++ others)) (ended : h.Ended x) (quiet : runners x fs = 0) :
    runners x gs = 0 := by
  induction moves with
  | refl => exact quiet
  | tail moves move ih =>
    exact move.quiet (moves.protocol coded protocol) (moves.ended coded protocol ended) ih

end Heap

end ScriptMachine
