import ScriptMachine.Proofs.Machine.References
import ScriptMachine.Proofs.Order.SortedMap

/-!
# Systems whose code is linked

A system is linked to a table if all code in it is in the table, or finds there what it names. The
table itself may name units that are not there; as long as it does not, whatever a job does misses
none and leaves the system linked.
-/

set_option autoImplicit false

namespace ScriptMachine

variable {H W : Type}

/-! ## Tables -/

namespace UnitTable

variable {units more : UnitTable} {u : CodeUnit}

def Lists (units : UnitTable) (u : CodeUnit) : Prop := ∃ name, units.get? name = some u

def Checked (units : UnitTable) : Prop := units.Codes (CodeUnit.Finds units)

/-- The code may be on a machine with this table. -/
structure Knows (units : UnitTable) (u : CodeUnit) : Prop where
  compiled : u.Compiled
  known : u.Finds units ∨ units.Lists u

def Within (units more : UnitTable) : Prop :=
  ∀ name u, units.get? name = some u → more.get? name = some u

theorem Knows.finds (knows : units.Knows u) (checked : units.Checked) : u.Finds units :=
  knows.known.elim id fun ⟨name, listed⟩ => checked name u listed

theorem Within.refl (units : UnitTable) : units.Within units := fun _ _ found => found

theorem Within.trans {most : UnitTable} (first : units.Within more) (second : more.Within most) :
    units.Within most := fun name u found => second name u (first name u found)

theorem Within.contains (within : units.Within more) {name : String}
    (found : units.contains name) : more.contains name := by
  obtain ⟨u, found⟩ := Option.isSome_iff_exists.mp found
  exact Option.isSome_iff_exists.mpr ⟨u, within name u found⟩

theorem Within.knows (within : units.Within more) (knows : units.Knows u) : more.Knows u :=
  ⟨knows.compiled, knows.known.imp (fun finds ins mem name named =>
    within.contains (finds ins mem name named)) fun ⟨name, listed⟩ => ⟨name, within name u listed⟩⟩

theorem get?_insert (order : SortedMap.Ascending units.entries) (name : String) (u : CodeUnit)
    (k : String) :
    (units.insert name u).get? k = if k = name then some u else units.get? k :=
  SortedMap.lookup_put order name u k

theorem within_insert (order : SortedMap.Ascending units.entries) {name : String}
    (free : ¬ units.contains name) (u : CodeUnit) : units.Within (units.insert name u) := by
  intro k v found
  rw [get?_insert order, if_neg, found]
  rintro rfl
  exact free (Option.isSome_iff_exists.mpr ⟨v, found⟩)

theorem Sound.insert (sound : units.Sound) (order : SortedMap.Ascending units.entries)
    (name : String) (compiled : u.Compiled) : Sound (units.insert name u) := by
  intro k v found
  rw [get?_insert order] at found
  split at found
  · cases found
    exact compiled
  · exact sound k v found

theorem Sound.knows (sound : units.Sound) : units.Codes units.Knows :=
  fun name u listed => ⟨sound name u listed, .inr ⟨name, listed⟩⟩

end UnitTable

/-! ## Code of other units -/

theorem Object.Codes.mono {Q Q' : CodeUnit → Prop} {o : Object H} (code : o.Codes Q)
    (weaker : ∀ u, Q u → Q' u) : o.Codes Q' := by
  cases o with
  | callable c =>
    cases c with
    | script unit => exact weaker unit code
    | host => trivial
  | iterator it => exact fun f parked u runs => weaker u (code f parked u runs)
  | _ => trivial

theorem Heap.Sound.grows {Q : CodeUnit → Prop} {h k : Heap H} (sound : h.Sound)
    (grows : h.Grows Q k) (compiled : ∀ u, Q u → u.Compiled) : k.Sound := by
  refine ⟨grows.accounted, fun i slot o found ho => ?_⟩
  have calm := grows.all i slot o found ho
  cases o with
  | callable c =>
    cases c with
    | script unit => exact compiled unit calm
    | host => trivial
  | iterator it =>
    intro f parked
    exact (sound.all.object? (calm (Iterator.isGenerator_of_parked parked))) f parked
  | _ => trivial

/-! ## Systems -/

namespace System

variable {host : Host H W} {units more : UnitTable} {s : System H W} {m m' : Machine H W}
  {jobs : List Job} {i : Nat} {job : Job}

/-- All code of the system is known to the table, and no frame and no task holds an error of a unit
that is not there. -/
structure Linked (units : UnitTable) (s : System H W) : Prop where
  table : s.machine.units = units
  running : s.Running
  quiet : s.Quiet
  order : SortedMap.Ascending units.entries
  code : s.machine.heap.All fun _ o => o.Codes units.Knows
  frames : ∀ job ∈ s.jobs, ∀ f ∈ job.frames, f.Codes units.Knows
  held : ∀ pl f, s.frameAt pl = some f → f.deferral.Mild
  tasks : ∀ job ∈ s.jobs, ∀ t, job.pending = some t → Mild t.result

theorem frameAt_concat (empty : job.frames = []) (pl : Place) :
    frameAt ⟨m, jobs ++ [job]⟩ pl = frameAt ⟨m, jobs⟩ pl := by
  cases pl with
  | parked x => rfl
  | stack i n =>
    rcases Nat.lt_trichotomy i jobs.length with low | rfl | high
    · simp [frameAt, List.getElem?_append_left low]
    · simp [frameAt, empty]
    · have past : (jobs ++ [job])[i]? = none := List.getElem?_eq_none (by simp; omega)
      simp [frameAt, past, List.getElem?_eq_none (Nat.le_of_lt high)]

theorem linked_empty (heap : m.heap = {}) (units : m.units = {}) : Linked {} ⟨m, []⟩ where
  table := units
  running := by
    refine ⟨heap ▸ Heap.sound_empty, units ▸ fun _ _ found => (by cases found),
      fun job mem => absurd mem List.not_mem_nil, fun x it found => ?_,
      fun f mem => absurd mem List.not_mem_nil⟩
    rw [heap] at found
    cases found
  quiet := fun job mem => absurd mem List.not_mem_nil
  order := SortedMap.ascending_nil
  code := by
    intro i slot o found
    rw [heap] at found
    cases found
  frames := fun job mem => absurd mem List.not_mem_nil
  held := by
    intro pl f placed
    cases pl with
    | stack => cases placed
    | parked x =>
      obtain ⟨it, found, -⟩ := Heap.parkedAt_eq_some.mp placed
      rw [heap] at found
      cases found
  tasks := fun job mem => absurd mem List.not_mem_nil

namespace Linked

/-- The machine changes between jobs: no generator does, and the table only grows. -/
theorem change (linked : Linked units ⟨m, jobs⟩) (same : m'.units = more)
    (within : units.Within more) (order : SortedMap.Ascending more.entries) (sound : more.Sound)
    (grows : m.heap.Grows more.Knows m'.heap) : Linked more ⟨m', jobs⟩ := by
  have weaker : ∀ u, units.Knows u → more.Knows u := fun u => within.knows
  refine ⟨same, ⟨linked.running.heap.grows grows fun u knows => knows.compiled, same ▸ sound,
    linked.running.frames, linked.running.protocol.grows grows⟩, linked.quiet, order,
    grows.code fun i slot o found ho => (linked.code i slot o found ho).mono weaker,
    fun job mem f on u runs => weaker u (linked.frames job mem f on u runs), fun pl f placed => ?_,
    linked.tasks⟩
  cases pl with
  | stack i n => exact linked.held (.stack i n) f placed
  | parked x =>
    have parks := (Heap.Parks.refl linked.running.heap.accounted).grows grows
    exact linked.held (.parked x) f ((parks.parked x f placed).resolve_right (by simp))

theorem here (linked : Linked units s) : s.machine.heap.Grows units.Knows s.machine.heap :=
  .refl linked.running.heap.accounted linked.code

theorem sound (linked : Linked units s) : units.Sound := linked.table ▸ linked.running.units

theorem grow (linked : Linked units ⟨m, jobs⟩) (same : m'.units = m.units)
    (grows : m.heap.Grows units.Knows m'.heap) : Linked units ⟨m', jobs⟩ :=
  linked.change (same.trans linked.table) (.refl units) linked.order linked.sound grows

theorem insert (linked : Linked units ⟨m, jobs⟩) {name : String} {u : CodeUnit}
    (free : ¬ units.contains name) (compiled : u.Compiled) (heap : m'.heap = m.heap)
    (same : m'.units = units.insert name u) :
    Linked (units.insert name u) ⟨m', jobs⟩ := by
  have within := UnitTable.within_insert linked.order free u
  refine linked.change same within (SortedMap.ascending_put linked.order name u)
    (linked.sound.insert linked.order name compiled) ?_
  rw [heap]
  exact .refl linked.running.heap.accounted fun i slot o found ho =>
    (linked.code i slot o found ho).mono fun u => within.knows

theorem dispose (linked : Linked units ⟨m, jobs⟩) (vs : List Value) :
    Linked units ⟨m.dispose vs, jobs⟩ := linked.grow rfl (linked.here.disposeAll vs)

/-! ### Jobs that come and go -/

theorem spawn (linked : Linked units ⟨m, jobs⟩) : Linked units ⟨m, jobs ++ [({} : Job)]⟩ where
  table := linked.table
  running := by
    have same : System.frames ⟨m, jobs ++ [({} : Job)]⟩ = System.frames ⟨m, jobs⟩ := by
      simp [System.frames]
    exact ⟨linked.running.heap, linked.running.units,
      List.forall_mem_append.mpr ⟨linked.running.frames,
        List.forall_mem_singleton.mpr fun f mem => absurd mem List.not_mem_nil⟩,
      same ▸ linked.running.protocol⟩
  quiet := List.forall_mem_append.mpr ⟨linked.quiet,
    List.forall_mem_singleton.mpr fun loaded => absurd rfl loaded⟩
  order := linked.order
  code := linked.code
  frames := List.forall_mem_append.mpr ⟨linked.frames,
    List.forall_mem_singleton.mpr fun f mem => absurd mem List.not_mem_nil⟩
  held := fun pl f placed => linked.held pl f ((frameAt_concat rfl pl).symm.trans placed)
  tasks := List.forall_mem_append.mpr ⟨linked.tasks,
    List.forall_mem_singleton.mpr fun t waits => (by cases waits)⟩

theorem drop (linked : Linked units ⟨m, jobs ++ [job]⟩) (empty : job.frames = []) :
    Linked units ⟨m, jobs⟩ where
  table := linked.table
  running := by
    have same : System.frames ⟨m, jobs ++ [job]⟩ = System.frames ⟨m, jobs⟩ := by
      simp [System.frames, empty]
    exact ⟨linked.running.heap, linked.running.units,
      fun job mem => linked.running.frames job (List.mem_append_left _ mem),
      same ▸ linked.running.protocol⟩
  quiet := fun job mem => linked.quiet job (List.mem_append_left _ mem)
  order := linked.order
  code := linked.code
  frames := fun job mem => linked.frames job (List.mem_append_left _ mem)
  held := fun pl f placed => linked.held pl f ((frameAt_concat empty pl).trans placed)
  tasks := fun job mem => linked.tasks job (List.mem_append_left _ mem)

/-! ### Acts -/

theorem uses (linked : Linked units s) (mem : job ∈ s.jobs) :
    Session.Uses units ⟨s.machine, job⟩ := ⟨linked.table, linked.tasks job mem⟩

theorem equipped (linked : Linked units s) (checked : units.Checked)
    (found : s.jobs[i]? = some job) : Session.Equipped units ⟨s.machine, job⟩ := by
  intro f mem
  have listed := List.mem_of_getElem? found
  obtain ⟨n, here⟩ := List.getElem?_of_mem (List.mem_reverse.mpr mem)
  obtain ⟨u, runs⟩ := linked.running.frames job listed f mem
  exact ⟨linked.held (.stack i n) f ((frameAt_stack found n).trans here), u, runs,
    (linked.frames job listed f mem u runs.unit).finds checked⟩

section
variable (plain : host.Plain fun _ => False) (mild : host.Mild) (checked : units.Checked)
include plain mild checked

/-- Whatever a job does leaves the system linked. -/
theorem act (linked : Linked units s) (act : Act) (found : s.jobs[i]? = some job)
    (admits : act.Admits job) (code : act.Codes units.Knows) {t : Session H W}
    (result : ((act.op host).outcome ⟨s.machine, job⟩).2 = t) :
    Linked units ⟨t.machine, s.jobs.set i t.job⟩ := by
  have listed := List.mem_of_getElem? found
  have compiled : host.Plain CodeUnit.Compiled := plain.mono fun u never => never.elim
  have turn : Turn host (.act i act) s ⟨t.machine, s.jobs.set i t.job⟩ :=
    .act act t found admits result
  have uses := linked.uses listed
  have equipped := linked.equipped checked found
  have used : t.Uses units := result ▸
    ((act.finds mild uses equipped).mono (fun _ _ uses => uses) fun _ _ failed => failed.2).outcome
  have moved := (act.keeps (p := ⟨units.Knows, True, True⟩) trivial trivial
    (plain.mono fun u never => never.elim) code ⟨s.machine, job⟩
    ⟨.refl, ⟨linked.running.heap.accounted, linked.code, linked.frames job listed⟩,
      linked.table ▸ linked.sound.knows⟩).outcome
  rw [result] at moved
  refine ⟨used.table, turn.running compiled linked.running,
    turn.quiet compiled linked.running linked.quiet, linked.order, moved.coded.code,
    fun other mem => ?_, fun pl f placed => ?_, fun other mem => ?_⟩
  · rcases List.mem_or_eq_of_mem_set mem with old | rfl
    · exact linked.frames other old
    · exact moved.coded.frames
  · -- a frame that was there before went through its moments, and one that was not is fresh
    by_cases old : ∃ pl', Goes s ⟨t.machine, s.jobs.set i t.job⟩ pl' pl
    · obtain ⟨pl', goes⟩ := old
      obtain ⟨g, before⟩ := goes.before
      have aged := turn.aged compiled linked.running linked.quiet goes before placed
      refine aged.follows.holds (fun e arrives => ?_) (linked.held pl' g before)
      cases pl' with
      | parked => cases arrives
      | stack j n =>
        simp only [moments] at arrives
        split at arrives
        · rw [found] at arrives
          exact Session.fails_mild mild uses equipped act arrives
        · cases arrives
    · have fresh := turn.fresh compiled linked.running linked.quiet
        (fun pl' goes => old ⟨pl', goes⟩) placed
      intro e kept
      rw [fresh.error] at kept
      cases kept
  · rcases List.mem_or_eq_of_mem_set mem with old | rfl
    · exact linked.tasks other old
    · exact used.task

theorem drive {mode : Mode} {fuel : Nat} {budget : Budget} {s : System H W} {i : Nat} {job : Job}
    {x : Except Error Outcome × Session H W} (linked : Linked units s)
    (found : s.jobs[i]? = some job)
    (ran : Session.drive host mode fuel budget ⟨s.machine, job⟩ = some x) :
    Linked units ⟨x.2.machine, s.jobs.set i x.2.job⟩ ∧ Mild x.1 := by
  refine keeps_of_drives (fun budget s job linked found => ?_) (Session.drives_of_drive ran) rfl
    found linked
  have finds := Session.tick_finds mild mode budget (linked.uses (List.mem_of_getElem? found))
    (linked.equipped checked found)
  have ticked := linked.act plain mild checked (.tick mode budget) found trivial trivial
    (Effect.outcome_bind_pure ..)
  exact (finds.and (Effect.ensures_of_outcome
    (I := fun t => Linked units ⟨t.machine, s.jobs.set i t.job⟩) ticked)).mono
    (fun _ _ after => after.2) fun _ _ after => ⟨after.1.1, after.2⟩

theorem runIn {mode : Mode} {fuel : Nat} {budget : Budget} {r : Except Error Outcome}
    {t : Session H W} (linked : Linked units s) (found : s.jobs[i]? = some job)
    (ran : Session.runIn host mode fuel budget ⟨s.machine, job⟩ = some (r, t)) :
    Linked units ⟨t.machine, s.jobs.set i t.job⟩ ∧ Mild r := by
  obtain ⟨⟨outcome, u⟩, driven, concluded⟩ := Option.map_eq_some_iff.mp ran
  obtain ⟨after, kept⟩ := linked.drive plain mild checked found driven
  have inside := (List.getElem?_eq_some_iff.mp found).1
  have here : (s.jobs.set i u.job)[i]? = some u.job := List.getElem?_set_self inside
  have finds := Session.ensures_conclude host outcome
    (after.uses (List.mem_of_getElem? here))
  refine ⟨?_, fun e failed => ?_⟩
  · have last := after.act plain mild checked (.conclude outcome) here trivial trivial
      ((Effect.outcome_bind_pure ..).trans (congrArg Prod.snd concluded))
    rwa [List.set_set] at last
  · subst failed
    simp only [Effect.outcome] at concluded
    split at concluded
    · cases concluded
    · rename_i e' u' failed
      cases concluded
      exact ((Effect.ensures_of_eq_error failed).mp finds).1 kept

end

end Linked

end System

end ScriptMachine
