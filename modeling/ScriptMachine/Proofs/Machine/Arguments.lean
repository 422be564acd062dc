import ScriptMachine.Proofs.Heap.Orderly
import ScriptMachine.Proofs.Machine.Calls
import ScriptMachine.Proofs.Machine.Ownership

/-!
# Arguments in local slots

A unit is entered with the arguments in the channel of the job. If they are too few, or too many for
a unit that is not variadic, then it refuses them, and they are disposed. Otherwise they go into the
local slots of a new frame in order. A variadic unit collects those behind its other parameters in a
structure, which goes into its last parameter. One that has no parameter has none to collect them
in: its arguments go into the slots that it has for locals, and only those that find no slot are
disposed.
-/

set_option autoImplicit false

namespace ScriptMachine

open Structure (Contents)

variable {H W : Type}

/-! ## What a unit does with arguments -/

namespace CodeUnit

/-- A number of arguments that a unit refuses. -/
def Miscounts (u : CodeUnit) (n : Nat) : Prop :=
  n < u.fixedParams ∨ u.variadic = false ∧ u.fixedParams < n

/-- The arguments that find no slot. There are none if the unit has a parameter: the last one takes
in whatever is left. -/
def unplaced (u : CodeUnit) (args : List Value) : List Value :=
  if u.params = 0 then args.drop u.slots else []

variable {u : CodeUnit} {args values locals : List Value} {h g k : Heap H}

theorem miscounts_iff {n : Nat} : u.Miscounts n ↔ u.accepts n = false := by
  rw [← Bool.not_eq_true, accepts_iff, Miscounts]
  cases u.variadic <;> simp
  omega

end CodeUnit

structure Heap.Sheds (h : Heap H) (vs : List Value) (k : Heap H) : Prop where
  gone : ∀ y, h.Below vs y → k.object? y = none
  kept : ∀ y o, h.object? y = some o → ¬ h.Below vs y → k.object? y = some o

theorem Heap.sheds_disposeAll (h : Heap H) (vs : List Value) : h.Sheds vs (h.disposeAll vs) :=
  ⟨fun y below => (object?_disposeAll vs y).1 below,
    fun y _ found apart => ((object?_disposeAll vs y).2 apart).trans found⟩

/-- What comes later may add objects under new handles. -/
theorem Heap.Sheds.retained {g j k : Heap H} {vs : List Value} (sheds : g.Sheds vs j)
    (accounted : j.Accounted []) (issued : ∀ y, g.Below vs y → j.Issued y)
    (retains : ∀ y, j.Issued y → k.object? y = j.object? y) : g.Sheds vs k := by
  refine ⟨fun y below => (retains y (issued y below)).trans (sheds.gone y below),
    fun y o found apart => ?_⟩
  have stays := sheds.kept y o found apart
  exact (retains y (accounted.issued_of_live stays)).trans stays

/-- What is in the local slots of a new frame, and what has become of the arguments that are not. -/
structure CodeUnit.Fills (u : CodeUnit) (args : List Value) (h : Heap H) (locals : List Value)
    (k : Heap H) : Prop where
  count : locals.length = u.slots
  fixed : ∀ i < u.fixedParams, locals[i]? = args[i]?
  collected : u.variadic = true → 0 < u.params → ∃ x, ¬ h.Issued x ∧
    locals[u.params - 1]? = some (.owned ⟨.struct, x⟩) ∧
    k.Maps x (Contents.row (args.drop (u.params - 1)))
  blank : u.variadic = false ∨ 0 < u.params → ∀ i, u.params ≤ i → i < u.slots →
    locals[i]? = some .null
  /-- Without a parameter to collect them, arguments are where nothing should be. -/
  spilled : u.variadic = true → u.params = 0 → ∀ i < u.slots, locals[i]? = some (args.getD i .null)
  sheds : h.Sheds (u.unplaced args) k

structure Frame.Serves (f : Frame) (u : CodeUnit) (closure this : Value) : Prop where
  unit : f.unit = some u
  closure : f.closure = closure
  this : f.this = this
  stack : f.stack = []
  cursor : f.cursor = 0

/-- A new frame runs, or waits in the iterator that the caller gets. -/
inductive Session.Starts (u : CodeUnit) (f : Frame) (s t : Session H W) : Prop
  | runs : u.generator = false →
      t.job = { s.job with frames := f :: s.job.frames, channel := [] } → Starts u f s t
  | waits {x : Handle} : u.generator = true → t.machine.heap.parkedAt x = some f →
      t.job = Job.given { s.job with channel := [] } [.owned ⟨.iterator, x⟩] → Starts u f s t

/-! ## From arguments to slots -/

inductive CodeUnit.Gathers (u : CodeUnit) (args : List Value) (h : Heap H) :
    List Value → Heap H → Prop
  | plain : u.variadic = false ∨ u.params = 0 → Gathers u args h args h
  | packed {x : Handle} {g : Heap H} : u.variadic = true → 0 < u.params → ¬ h.Issued x →
      g.Maps x (Contents.row (args.drop (u.params - 1))) → h.Beside x g →
      Gathers u args h (args.take (u.params - 1) ++ [.owned ⟨.struct, x⟩]) g

theorem Frame.Opens.slot {f : Frame} {u : CodeUnit} {values : List Value}
    (opens : f.Opens u (values.take u.slots)) :
    f.locals.length = u.slots ∧ ∀ i < u.slots, f.locals[i]? = some (values.getD i .null) := by
  rw [opens.locals]
  refine ⟨?_, fun i inside => ?_⟩
  · rw [List.length_append, List.length_replicate, List.length_take]
    omega
  · rw [List.getD_eq_getElem?_getD]
    by_cases given : i < values.length
    · rw [List.getElem?_append_left (by rw [List.length_take]; omega),
        List.getElem?_take_of_lt inside, List.getElem?_eq_getElem given]
      rfl
    · rw [List.getElem?_append_right (by rw [List.length_take]; omega), List.getElem?_replicate,
        List.getElem?_eq_none (Nat.not_lt.mp given), if_pos (by rw [List.length_take]; omega)]
      rfl

namespace CodeUnit.Gathers

variable {u : CodeUnit} {args values locals : List Value} {h g k : Heap H}

theorem drop_slots (gathers : u.Gathers args h values g) (accepts : u.accepts args.length) :
    values.drop u.slots = u.unplaced args := by
  have room : u.params ≤ u.slots := Nat.le_max_right _ _
  obtain ⟨enough, atMost⟩ := accepts_iff.mp accepts
  unfold unplaced
  cases gathers with
  | plain kind =>
    split
    · rfl
    · rename_i some
      have fixed := kind.resolve_right some
      simp only [fixedParams, fixed, Bool.false_eq_true, if_false, false_or] at atMost
      exact List.drop_eq_nil_iff.mpr (by omega)
  | packed variadic some =>
    rw [if_neg (by omega), List.drop_eq_nil_iff, List.length_append, List.length_take,
      List.length_singleton]
    omega

theorem fills (gathers : u.Gathers args h values g) (accepts : u.accepts args.length)
    (accounted : h.Accounted []) (count : locals.length = u.slots)
    (slot : ∀ i < u.slots, locals[i]? = some (values.getD i .null))
    (maps : u.unplaced args = [] → ∀ x m, g.Maps x m → k.Maps x m)
    (sheds : g.Sheds (u.unplaced args) k) : u.Fills args h locals k := by
  have room : u.params ≤ u.slots := Nat.le_max_right _ _
  obtain ⟨enough, atMost⟩ := accepts_iff.mp accepts
  cases gathers with
  | plain kind =>
    have few : u.fixedParams ≤ u.params := by
      unfold fixedParams
      split <;> omega
    refine ⟨count, fun i inside => ?_, fun variadic some => ?_, fun kind' i behind inside => ?_,
      fun _ _ => slot, sheds⟩
    · rw [slot i (by omega), List.getD_eq_getElem?_getD, List.getElem?_eq_getElem (by omega)]
      rfl
    · rcases kind with fixed | none
      · rw [variadic] at fixed
        cases fixed
      · omega
    · have fixed : u.variadic = false := kind.elim id fun none => kind'.resolve_right (by omega)
      simp only [fixedParams, fixed, Bool.false_eq_true, if_false, false_or] at atMost
      rw [slot i inside, List.getD_eq_getElem?_getD, List.getElem?_eq_none (by omega)]
      rfl
  | @packed x _ variadic some new maps' beside =>
    simp only [fixedParams, variadic, if_true] at enough
    have length : (args.take (u.params - 1)).length = u.params - 1 := by
      rw [List.length_take]
      omega
    have none : u.unplaced args = [] := if_neg (by omega)
    refine ⟨count, fun i inside => ?_, fun _ _ => ⟨x, new, ?_, maps none x _ maps'⟩,
      fun _ i behind inside => ?_, fun _ none => by omega, ?_⟩
    · simp only [fixedParams, variadic, if_true] at inside
      rw [slot i (by omega), List.getD_eq_getElem?_getD,
        List.getElem?_append_left (by omega), List.getElem?_take_of_lt inside,
        List.getElem?_eq_getElem (by omega)]
      rfl
    · rw [slot _ (by omega), List.getD_eq_getElem?_getD,
        List.getElem?_append_right (by omega), length, Nat.sub_self]
      rfl
    · rw [slot i inside, List.getD_eq_getElem?_getD, List.getElem?_eq_none]
      · rfl
      · rw [List.length_append, length, List.length_singleton]
        omega
    · rw [none] at sheds ⊢
      refine ⟨fun y below => (Heap.not_below_nil below).elim, fun y o found _ => ?_⟩
      have old : y ≠ x := fun same => new (same ▸ accounted.issued_of_live found)
      exact sheds.kept y o ((beside y old).trans found) Heap.not_below_nil

end CodeUnit.Gathers

namespace Session

variable {s : Session H W} {f : Frame} {args : List Value} {unit : CodeUnit}

theorem gatherArgs_gathers (accounted : s.machine.heap.Accounted [])
    (clean : s.machine.heap.pools.structures.Clean) (few : args.length ≤ 2 ^ 63) :
    (gatherArgs unit args).Ensures s
      (fun values t => t.job = s.job ∧
        unit.Gathers args s.machine.heap values t.machine.heap) (fun _ _ => True) := by
  unfold gatherArgs
  split
  · rename_i packs
    simp only [Bool.and_eq_true, decide_eq_true_eq] at packs
    obtain ⟨variadic, some⟩ := packs
    simp only [CodeUnit.fixedParams, variadic, if_true]
    rw [Effect.ensures_bind]
    refine (Effect.ensures_onPart ..).mpr ((Effect.ensures_onPart ..).mpr ?_)
    refine (Heap.maps_pack accounted clean (by rw [List.length_drop]; omega)).mono
      (fun v k packed => ⟨rfl, ?_⟩) fun _ _ _ => trivial
    obtain ⟨x, rfl, maps, new, beside⟩ := packed
    exact .packed variadic some new maps beside
  · rename_i plain
    refine ⟨rfl, .plain ?_⟩
    cases variadic : unit.variadic with
    | false => exact .inl rfl
    | true => exact .inr (by simpa [variadic] using plain)

theorem newFrame_sheds (accounted : s.machine.heap.Accounted []) (unit : CodeUnit)
    (values : List Value) (closure this : Value) :
    (newFrame unit values closure this).Ensures s
      (fun f t => f.closure = closure ∧ f.this = this ∧
        s.machine.heap.Sheds (values.drop unit.slots) t.machine.heap ∧
        s.machine.heap.Evolves t.machine.heap ∧ t.machine.heap.Accounted [] ∧
        (values.drop unit.slots = [] →
          t.machine.heap.pools.structures = s.machine.heap.pools.structures))
      (fun _ _ => True) := by
  refine newFrame_rule (fun _ _ => trivial) fun _ drawn frames _ => ?_
  have here : Heap.Later (fun _ _ => True) [] s.machine.heap s.machine.heap :=
    ⟨accounted, fun _ _ _ _ _ => trivial, .refl _⟩
  let pooled : Heap H := { s.machine.heap with pools := { s.machine.heap.pools with frames } }
  have made : Heap.Later (fun _ _ => True) [] s.machine.heap pooled := here.withPools _
  have slots : (drawn.reset unit).locals.length = unit.slots := List.length_replicate
  simp only [Frame.bindArgs, slots]
  have sheds := pooled.sheds_disposeAll (values.drop unit.slots)
  refine ⟨trivial, trivial, ⟨sheds.gone, sheds.kept⟩, (made.disposeAll _).evolves,
    (made.disposeAll _).accounted, fun none => ?_⟩
  rw [none]
  rfl

theorem activate_retains (accounted : s.machine.heap.Accounted []) (unit : CodeUnit) (f : Frame) :
    (activate unit f).Ensures s
      (fun _ t => t.machine.heap.pools = s.machine.heap.pools ∧
        ∀ y, s.machine.heap.Issued y → t.machine.heap.object? y = s.machine.heap.object? y)
      (fun _ _ => False) := by
  refine activate_rule accounted (fun _ => ⟨rfl, fun _ _ => rfl⟩) fun _ x _ new found => ?_
  rw [Effect.ensures_of_eq_ok (deliver_eq _ _ _)]
  refine ⟨Heap.alloc_pools s.machine.heap _, fun y issued => ?_⟩
  have other : y ≠ x := fun same => new (same ▸ issued)
  exact ((Heap.object?_setObject ((found x).trans (if_pos rfl)) y).trans (if_neg other)).trans
    ((found y).trans (if_neg other))

section
variable {keeps : W → List Value} {out : List Value}

/-- A unit is entered, or refuses as many arguments as there are, or its frame fits no memory. No
other failure is possible. The keys of collected arguments are words, and a list of more values than
words fits no memory. -/
theorem enter_fills (unit : CodeUnit) (closure this : Value)
    (owned : s.Owned keeps (s.job.frames.flatMap Frame.held ++ ([closure, this] ++ out)))
    (room : s.atDepthLimit = false) (few : s.job.channel.length ≤ 2 ^ 63) :
    (enter unit closure this).Ensures s
      (fun _ t => ¬ unit.Miscounts s.job.channel.length ∧ ∃ f, f.Serves unit closure this ∧
        unit.Fills s.job.channel s.machine.heap f.locals t.machine.heap ∧ s.Starts unit f t)
      (fun e t =>
        (unit.Miscounts s.job.channel.length ∧
          e = .ofFault (.parameterCount unit.name unit.fixedParams s.job.channel.length) ∧
          t.job = { s.job with channel := [] } ∧
          s.machine.heap.Sheds (s.job.channel ++ [closure, this]) t.machine.heap) ∨
        (¬ unit.Miscounts s.job.channel.length ∧
          ∃ panic, unit.misfit? = some panic ∧ e = .ofPanic panic)) := by
  have accounted : s.machine.heap.Accounted [] := owned.heap.accounted
  rw [CodeUnit.miscounts_iff]
  refine enter_rule (fun full => absurd (room.symm.trans full) Bool.false_ne_true)
    (fun refuses => .inl ⟨refuses, rfl, rfl, Heap.sheds_disposeAll _ _⟩) fun accepts => ?_
  let drained : Session H W := ⟨s.machine, { s.job with channel := [] }⟩
  have settled : (ledger keeps).Settled (s.job.channel ++ ([closure, this] ++ out)) drained :=
    owned.drain.recount fun x => by
      simp only [drained, tally_append]
      omega
  refine ((gatherArgs_gathers (s := drained) accounted owned.heap.clean.structures few).and
    (gatherArgs_steady unit _ drained _ settled)).mono (fun values g gathered => ?_)
      fun _ _ failed => failed.2.elim
  obtain ⟨⟨job, gathers⟩, ⟨counted, -, -⟩⟩ := gathered
  rw [Effect.ensures_bind]
  refine ((newFrame_opens (s := g) values closure this).and
    (newFrame_sheds counted.accounted unit values closure this)).mono
      (fun f j made => ?_) fun _ _ failed => .inr ⟨by simp [accepts], failed.1.2⟩
  obtain ⟨⟨same, opens⟩, closure', this', sheds, evolves, accounted', pools⟩ := made
  rw [job] at same
  rw [gathers.drop_slots accepts] at sheds pools
  refine ((activate_job accounted' unit f).and (activate_retains accounted' unit f)).mono
    (fun _ t active => ?_) fun _ _ never => never.1.elim
  obtain ⟨started, pools', retains⟩ := active
  obtain ⟨count, slot⟩ := opens.slot
  have fills : unit.Fills s.job.channel s.machine.heap f.locals t.machine.heap := by
    refine gathers.fills accepts accounted count slot (fun none x m maps => ?_) ?_
    · obtain ⟨c, found, shape, holds⟩ := maps
      have stays := sheds.kept x _ found (none ▸ Heap.not_below_nil)
      refine ⟨c, (retains x (accounted'.issued_of_live stays)).trans stays, shape, ?_⟩
      rw [pools', pools none]
      exact holds
    · refine sheds.retained accounted' (fun y below => ?_) retains
      rw [← gathers.drop_slots accepts] at below
      have live : (g.machine.heap.object? y).isSome := counted.live_below (fun z pos => by
        rw [← List.take_append_drop unit.slots values]
        simp only [tally_append]
        omega) below
      obtain ⟨o, found⟩ := Option.isSome_iff_exists.mp live
      exact evolves.issued y (counted.accounted.issued_of_live found)
  refine ⟨by simp [accepts], ?_⟩
  rw [same] at started
  rcases started with ⟨plain, runs⟩ | ⟨generates, x, parked, waits⟩
  · exact ⟨f, ⟨opens.unit, closure', this', opens.stack, opens.cursor⟩, fills, .runs plain runs⟩
  · exact ⟨{ f with generator := some x },
      ⟨opens.unit, closure', this', opens.stack, opens.cursor⟩, fills, .waits generates parked waits⟩

end

def tailed : CodeUnit :=
  { (default : CodeUnit) with name := "tailed", params := 2, locals := 3, variadic := true }

theorem enter_fills_tailed : ∃ x f t,
    enter tailed .null .null
      (⟨{ world := () }, { channel := [.int 1, .int 2, .int 3] }⟩ : Session Unit Unit) = .ok () t ∧
    t.job.frames = [f] ∧ f.locals = [.int 1, .owned ⟨.struct, x⟩, .null] ∧
    t.machine.heap.Maps x (Contents.row [.int 2, .int 3]) := by
  let s : Session Unit Unit := ⟨{ world := () }, { channel := [.int 1, .int 2, .int 3] }⟩
  have owned : s.Owned (fun _ => []) (s.job.frames.flatMap Frame.held ++ ([.null, .null] ++ [])) :=
    ⟨Heap.owned_empty.recount fun _ => rfl, .nil, fun _ waits => by cases waits⟩
  have entered := enter_fills tailed .null .null owned (by decide) (by decide)
  cases ran : enter tailed .null .null s with
  | error e t =>
    rw [Effect.ensures_of_eq_error ran, CodeUnit.miscounts_iff] at entered
    rcases entered with ⟨refuses, -⟩ | ⟨-, panic, misfit, -⟩
    · cases refuses
    · cases misfit
  | ok a t =>
    rw [Effect.ensures_of_eq_ok ran] at entered
    obtain ⟨-, f, -, fills, starts⟩ := entered
    obtain ⟨x, -, collected, maps⟩ := fills.collected rfl (by decide)
    have locals : f.locals = [.int 1, .owned ⟨.struct, x⟩, .null] := by
      have count : f.locals.length = 3 := fills.count
      refine List.ext_getElem? fun i => ?_
      match i with
      | 0 => exact fills.fixed 0 (by decide)
      | 1 => exact collected
      | 2 => exact fills.blank (.inr (by decide)) 2 (by decide) (by decide)
      | i + 3 => exact List.getElem?_eq_none (by omega)
    cases starts with
    | runs _ job => exact ⟨x, f, t, rfl, congrArg Job.frames job, locals, maps⟩
    | waits generates => cases generates

/-- A variadic unit without a parameter, with one slot for its own use. -/
def spare : CodeUnit :=
  { (default : CodeUnit) with name := "spare", locals := 1, variadic := true }

/-- The argument that it should drop is in that slot. -/
theorem enter_spills : ∃ t,
    enter spare .null .null
      (⟨{ world := () }, { channel := [.int 5] }⟩ : Session Unit Unit) = .ok () t ∧
    t.job.frames.map Frame.locals = [[.int 5]] := ⟨_, rfl, rfl⟩

end Session

end ScriptMachine
