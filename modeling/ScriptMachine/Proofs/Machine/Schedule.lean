import Mathlib.Algebra.Order.BigOperators.Group.List
import Mathlib.Algebra.Order.Ring.Nat
import ScriptMachine.Machine.Schedule
import ScriptMachine.Proofs.Machine.Slices

/-!
# Turns of a scheduler

A scheduler gives the first job of its queue a slice and puts it behind the others, unless it is
over then. The slices that were given are logged. The queue stands in the order of the slices that
its jobs had and of their numbers, and the last one is less than one round ahead of the first; so
the log goes up in the order of rounds and numbers, and so do the reports, which are taken from it.
What a job is when its turn comes is what its own turn before left.
-/

set_option autoImplicit false

namespace ScriptMachine

/-- The place of a queued job in the order of the slices that were given. -/
def Queued.key (q : Queued) : Nat × Nat := (q.slices, q.id)

namespace Scheduler

variable {H W : Type} {host : Host H W} {slice : Nat}

/-- One slice of a job. -/
structure Turn (H W : Type) where
  id : Nat
  /-- Slices that the job has had then. -/
  round : Nat
  before : Session H W
  outcome : Except Error Outcome
  after : Session H W

def isHalted : Except Error Outcome → Bool
  | .ok .halted => true
  | _ => false

namespace Turn

def halted (t : Turn H W) : Bool := isHalted t.outcome

def requeued (t : Turn H W) : List Queued :=
  if t.halted then [⟨t.id, t.after.job, t.round⟩] else []

def report (t : Turn H W) : Option JobReport :=
  if t.halted then none else some ⟨t.id, t.outcome, t.round⟩

/-- The machine as the next job finds it. -/
def machine (t : Turn H W) : Machine H W :=
  if t.halted then t.after.machine else t.after.machine.note .engine .debug

def key (t : Turn H W) : Nat × Nat := (t.round, t.id)

structure Of (host : Host H W) (slice : Nat) (q : Queued) (m : Machine H W) (t : Turn H W) :
    Prop where
  id : t.id = q.id
  round : t.round = q.slices + 1
  before : t.before = ⟨m, q.job⟩
  ran : ∃ fuel, Session.runBounded host fuel slice t.before = some (t.outcome, t.after)

end Turn

/-- Turns that were given, from one queue and machine to another. -/
inductive Serves (host : Host H W) (slice : Nat) :
    List Queued → Machine H W → List (Turn H W) → List Queued → Machine H W → Prop where
  | rest (queue : List Queued) (m : Machine H W) : Serves host slice queue m [] queue m
  | turn {q : Queued} {rest queue : List Queued} {m m' : Machine H W} {t : Turn H W}
      {log : List (Turn H W)} (first : t.Of host slice q m)
      (later : Serves host slice (rest ++ t.requeued) t.machine log queue m') :
      Serves host slice (q :: rest) m (t :: log) queue m'

/-- The slices of one job from some time on to its end, and what is reported of it then. -/
inductive Course (id : Nat) : (slices : Nat) → Job → List (Turn H W) → JobReport → Prop where
  | ends {slices : Nat} {job : Job} {m : Machine H W} {outcome : Except Error Outcome}
      {after : Session H W} (halted : isHalted outcome = false) :
      Course id slices job [⟨id, slices + 1, ⟨m, job⟩, outcome, after⟩] ⟨id, outcome, slices + 1⟩
  | halted {slices : Nat} {job : Job} {m : Machine H W} {after : Session H W}
      {log : List (Turn H W)} {report : JobReport}
      (later : Course id (slices + 1) after.job log report) :
      Course id slices job (⟨id, slices + 1, ⟨m, job⟩, .ok .halted, after⟩ :: log) report

def turnsOf (id : Nat) (log : List (Turn H W)) : List (Turn H W) := log.filter fun t => t.id == id

def halts (id : Nat) (log : List (Turn H W)) : Nat := (turnsOf id log).countP Turn.halted

/-- Turns given from here on halt each job a bounded number of times. -/
def Stops (host : Host H W) (slice : Nat) (queue : List Queued) (m : Machine H W) : Prop :=
  ∀ id, ∃ most, ∀ log queue' m', Serves host slice queue m log queue' m' → halts id log ≤ most

/-! ## Order -/

/-- The order of rounds, and of numbers within one round. -/
abbrev Earlier (a b : Nat × Nat) : Prop := Prod.Lex (· < ·) (· < ·) a b

structure Lined (queue : List Queued) : Prop where
  ascending : queue.Pairwise fun a b => Earlier a.key b.key
  within : ∀ q ∈ queue, ∀ first ∈ queue.head?, Earlier q.key (first.slices + 1, first.id)

/-- A job that is put back comes after all others, and all others after what it was. -/
theorem Lined.turn {q : Queued} {rest : List Queued} {m : Machine H W} {t : Turn H W}
    (lined : Lined (q :: rest)) (first : t.Of host slice q m) :
    Lined (rest ++ t.requeued) ∧ ∀ q' ∈ rest ++ t.requeued, Earlier q.key q'.key := by
  obtain ⟨above, ascending⟩ := List.pairwise_cons.mp lined.ascending
  have within : ∀ q' ∈ rest, Earlier q'.key (q.slices + 1, q.id) :=
    fun q' mem => lined.within q' (List.mem_cons_of_mem _ mem) q rfl
  have back : ∀ q' ∈ t.requeued, q'.key = (q.slices + 1, q.id) := by
    intro q' mem
    unfold Turn.requeued at mem
    split at mem
    · rw [List.mem_singleton.mp mem, Queued.key, first.round, first.id]
    · cases mem
  have above' : ∀ q' ∈ rest ++ t.requeued, Earlier q.key q'.key := by
    intro q' mem
    rcases List.mem_append.mp mem with mem | mem
    · exact above q' mem
    · rw [back q' mem, Earlier, Prod.lex_def]
      exact .inl (Nat.lt_succ_self _)
  refine ⟨⟨List.pairwise_append.mpr ⟨ascending, ?_, ?_⟩, ?_⟩, above'⟩
  · unfold Turn.requeued
    split
    · exact List.pairwise_singleton ..
    · exact .nil
  · intro q' mem q'' mem'
    rw [back q'' mem']
    exact within q' mem
  · intro q' mem head isHead
    have least : q'.key = (q.slices + 1, q.id) ∨ Earlier q'.key (q.slices + 1, q.id) :=
      (List.mem_append.mp mem).symm.imp (back q') (within q')
    have ahead := above' head (List.mem_of_mem_head? isHead)
    simp only [Earlier, Prod.lex_def, Queued.key, Prod.mk.injEq] at least ahead ⊢
    omega

theorem Serves.eq_nil {m m' : Machine H W} {queue : List Queued} {log : List (Turn H W)}
    (serves : Serves host slice [] m log queue m') : log = [] := by
  cases serves
  rfl

theorem Serves.ascending {queue queue' : List Queued} {m m' : Machine H W} {log : List (Turn H W)}
    (serves : Serves host slice queue m log queue' m') (lined : Lined queue) :
    log.Pairwise (fun a b => Earlier a.key b.key) ∧
      ∀ t ∈ log, ∀ first ∈ queue.head?, ¬ Earlier t.key (first.slices + 1, first.id) := by
  induction serves with
  | rest => exact ⟨.nil, fun t mem => by cases mem⟩
  | @turn q rest queue' m m' t log first later ih =>
    obtain ⟨lined', above⟩ := lined.turn first
    obtain ⟨ascending, least⟩ := ih lined'
    have place : t.key = (q.slices + 1, q.id) := by rw [Turn.key, first.round, first.id]
    have next : ∀ t' ∈ log, Earlier t.key t'.key := by
      intro t' mem
      cases queued : rest ++ t.requeued with
      | nil =>
        rw [queued] at later
        rw [later.eq_nil] at mem
        cases mem
      | cons head others =>
        have bound := least t' mem head (by rw [queued]; rfl)
        have ahead := above head (by rw [queued]; exact List.mem_cons_self ..)
        rw [place]
        simp only [Earlier, Prod.lex_def, Queued.key] at bound ahead ⊢
        omega
    refine ⟨List.pairwise_cons.mpr ⟨next, ascending⟩, fun t' mem head isHead => ?_⟩
    cases isHead
    have here : ¬ Earlier t.key (q.slices + 1, q.id) := by
      rw [place, Earlier, Prod.lex_def]
      omega
    rcases List.mem_cons.mp mem with rfl | mem
    · exact here
    · intro before
      have after := next t' mem
      simp only [Earlier, Prod.lex_def] at before after here
      omega

/-! ## One job among the others -/

theorem map_id_requeued {q : Queued} {rest : List Queued} {m : Machine H W} {t : Turn H W}
    (first : t.Of host slice q m) :
    ((rest ++ t.requeued).map Queued.id).Sublist ((rest ++ [q]).map Queued.id) := by
  rw [List.map_append, List.map_append]
  refine (List.Sublist.refl _).append ?_
  unfold Turn.requeued
  split
  · simp [first.id]
  · exact List.nil_sublist _

theorem Serves.mem_id {queue queue' : List Queued} {m m' : Machine H W} {log : List (Turn H W)}
    (serves : Serves host slice queue m log queue' m') :
    ∀ t ∈ log, t.id ∈ queue.map Queued.id := by
  induction serves with
  | rest =>
    intro t mem
    cases mem
  | @turn q rest queue' m m' t log first later ih =>
    intro t' mem
    rcases List.mem_cons.mp mem with rfl | mem
    · rw [first.id]
      exact List.mem_cons_self ..
    · have queued := (map_id_requeued first).subset (ih t' mem)
      simpa [or_comm] using queued

theorem turnsOf_cons (id : Nat) (t : Turn H W) (log : List (Turn H W)) :
    turnsOf id (t :: log) = if t.id = id then t :: turnsOf id log else turnsOf id log := by
  simp [turnsOf, List.filter_cons]

theorem Turn.outcome_of_halted {t : Turn H W} (halted : t.halted = true) :
    t.outcome = .ok .halted := by
  unfold Turn.halted isHalted at halted
  split at halted
  · assumption
  · cases halted

theorem Turn.Of.ends {q : Queued} {m : Machine H W} {t : Turn H W} (first : t.Of host slice q m)
    (halted : t.halted = false) : ∃ report, Course q.id q.slices q.job [t] report := by
  obtain ⟨id, round, before, outcome, after⟩ := t
  obtain ⟨rfl, rfl, rfl, _⟩ := first
  exact ⟨_, .ends halted⟩

theorem Turn.Of.goesOn {q : Queued} {m : Machine H W} {t : Turn H W} {log : List (Turn H W)}
    {report : JobReport} (first : t.Of host slice q m) (halted : t.halted = true)
    (later : Course q.id (q.slices + 1) t.after.job log report) :
    Course q.id q.slices q.job (t :: log) report := by
  obtain ⟨id, round, before, outcome, after⟩ := t
  obtain ⟨rfl, rfl, rfl, _⟩ := first
  cases Turn.outcome_of_halted halted
  exact .halted later

/-- A job that is put back is the one whose turn it was, as its slice left it. -/
theorem Turn.Of.requeued {q : Queued} {m : Machine H W} {t : Turn H W}
    (first : t.Of host slice q m) :
    t.requeued = if t.halted then [⟨q.id, t.after.job, q.slices + 1⟩] else [] := by
  rw [Turn.requeued, first.id, first.round]

theorem Serves.course {queue : List Queued} {m m' : Machine H W} {log : List (Turn H W)}
    (serves : Serves host slice queue m log [] m') (distinct : (queue.map Queued.id).Nodup) :
    ∀ q ∈ queue, ∃ report,
      Course q.id q.slices q.job (turnsOf q.id log) report := by
  generalize none : ([] : List Queued) = queue' at serves
  induction serves with
  | rest =>
    subst none
    intro q mem
    cases mem
  | @turn q rest queue' m m' t log first later ih =>
    have ⟨apart, _⟩ := List.nodup_cons.mp distinct
    have distinct' : ((rest ++ [q]).map Queued.id).Nodup :=
      ((List.perm_append_singleton q rest).map _).nodup_iff.mpr distinct
    have ih := ih (distinct'.sublist (map_id_requeued first)) none
    intro q' mem
    rcases List.mem_cons.mp mem with rfl | mem
    · rw [turnsOf_cons, if_pos first.id]
      cases halted : t.halted with
      | true =>
        obtain ⟨report, course⟩ := ih ⟨q'.id, t.after.job, q'.slices + 1⟩
          (by simp [first.requeued, halted])
        exact ⟨report, first.goesOn halted course⟩
      | false =>
        have gone : turnsOf q'.id log = [] := by
          refine List.filter_eq_nil_iff.mpr fun t' mem same => ?_
          have queued := later.mem_id t' mem
          rw [first.requeued, halted, eq_of_beq same] at queued
          exact apart (by simpa using queued)
        rw [gone]
        exact first.ends halted
    · have other : t.id ≠ q'.id := by
        intro same
        rw [← first.id, same] at apart
        exact apart (List.mem_map_of_mem mem)
      rw [turnsOf_cons, if_neg other]
      exact ih q' (List.mem_append_left _ mem)

theorem Course.filterMap_report {id slices : Nat} {job : Job} {log : List (Turn H W)}
    {report : JobReport} (course : Course id slices job log report) :
    log.filterMap Turn.report = [report] := by
  induction course with
  | ends halted => simp [Turn.report, Turn.halted, halted]
  | halted _ ih =>
    rw [List.filterMap_cons_none (by simp [Turn.report, Turn.halted, isHalted])]
    exact ih

theorem Serves.reports_perm {queue : List Queued} {m m' : Machine H W} {log : List (Turn H W)}
    (serves : Serves host slice queue m log [] m') :
    ((log.filterMap Turn.report).map JobReport.id).Perm (queue.map Queued.id) := by
  generalize none : ([] : List Queued) = queue' at serves
  induction serves with
  | rest =>
    subst none
    exact .refl _
  | @turn q rest queue' m m' t log first later ih =>
    have ih := ih none
    rw [first.requeued] at ih
    cases halted : t.halted with
    | true =>
      rw [List.filterMap_cons_none (by simp [Turn.report, halted])]
      refine ih.trans ?_
      simp only [halted, if_true, List.map_append, List.map_cons, List.map_nil]
      exact List.perm_append_singleton ..
    | false =>
      rw [List.filterMap_cons_some (by simp [Turn.report, halted]; rfl)]
      simp only [halted, Bool.false_eq_true, if_false, List.append_nil] at ih
      simpa [first.id] using ih

theorem pairwise_reports {log : List (Turn H W)}
    (ascending : log.Pairwise fun a b => Earlier a.key b.key) :
    (log.filterMap Turn.report).Pairwise fun a b => Earlier (a.slices, a.id) (b.slices, b.id) := by
  have key : ∀ {t : Turn H W} {r : JobReport}, r ∈ t.report → (r.slices, r.id) = t.key := by
    intro t r told
    unfold Turn.report at told
    split at told
    · cases told
    · cases told
      rfl
  refine List.pairwise_filterMap.mpr (ascending.imp fun before r told r' told' => ?_)
  rw [key told, key told']
  exact before

/-! ## The end -/

theorem Serves.snoc {q : Queued} {rest queue : List Queued} {m m' : Machine H W} {t : Turn H W}
    {log : List (Turn H W)} (serves : Serves host slice queue m log (q :: rest) m')
    (next : t.Of host slice q m') :
    Serves host slice queue m (log ++ [t]) (rest ++ t.requeued) t.machine := by
  generalize left : q :: rest = queue' at serves
  induction serves with
  | rest =>
    subst left
    exact .turn next (.rest ..)
  | turn first _ ih => exact .turn first (ih next left)

theorem Serves.length_le {queue queue' : List Queued} {m m' : Machine H W} {log : List (Turn H W)}
    (serves : Serves host slice queue m log queue' m') :
    log.length ≤ log.countP Turn.halted + queue.length := by
  induction serves with
  | rest => exact Nat.zero_le _
  | @turn q rest queue' m m' t log first later ih =>
    rw [first.requeued] at ih
    cases halted : t.halted <;>
      simp only [halted, List.countP_cons, List.length_cons, List.length_append, if_true,
        Bool.false_eq_true, if_false, List.length_nil] at ih ⊢ <;>
      omega

theorem halts_cons (id : Nat) (t : Turn H W) (log : List (Turn H W)) :
    halts id (t :: log) = halts id log + if t.id = id ∧ t.halted = true then 1 else 0 := by
  unfold halts
  rw [turnsOf_cons]
  by_cases same : t.id = id
  · simp [same, List.countP_cons]
  · simp [same]

theorem countP_halted_le (ids : List Nat) (log : List (Turn H W)) (known : ∀ t ∈ log, t.id ∈ ids) :
    log.countP Turn.halted ≤ (ids.map fun id => halts id log).sum := by
  induction log with
  | nil => exact Nat.zero_le _
  | cons t log ih =>
    have ih := ih fun t' mem => known t' (List.mem_cons_of_mem _ mem)
    have grows : ∀ id ∈ ids, halts id log ≤ halts id (t :: log) := by
      intro id _
      rw [halts_cons]
      exact Nat.le_add_right ..
    cases halted : t.halted with
    | false =>
      rw [List.countP_cons_of_neg (by simp [halted])]
      exact ih.trans (List.sum_le_sum grows)
    | true =>
      rw [List.countP_cons_of_pos halted]
      have mem : t.id ∈ ids := known t (List.mem_cons_self ..)
      refine Nat.lt_of_le_of_lt ih (List.sum_lt_sum _ _ grows ⟨t.id, mem, ?_⟩)
      rw [halts_cons, if_pos ⟨rfl, halted⟩]
      exact Nat.lt_succ_self _

theorem Stops.bounded {queue : List Queued} {m : Machine H W} (stops : Stops host slice queue m) :
    ∃ most, ∀ log queue' m', Serves host slice queue m log queue' m' → log.length ≤ most := by
  choose most stops using stops
  refine ⟨((queue.map Queued.id).map most).sum + queue.length, fun log queue' m' serves => ?_⟩
  have halted := countP_halted_le _ log serves.mem_id
  have few : ((queue.map Queued.id).map fun id => halts id log).sum ≤
      ((queue.map Queued.id).map most).sum :=
    List.sum_le_sum fun id _ => stops id log queue' m' serves
  have length := serves.length_le
  omega

structure Coded (Q : CodeUnit → Prop) (queue : List Queued) (m : Machine H W) : Prop where
  heap : m.heap.Coded Q []
  units : m.units.Codes Q
  frames : ∀ q ∈ queue, ∀ f ∈ q.job.frames, f.Codes Q

section Coded
variable {Q : CodeUnit → Prop} {q : Queued} {rest queue : List Queued} {m m' : Machine H W}
  {t : Turn H W} {log : List (Turn H W)}

theorem Coded.first (coded : Coded Q (q :: rest) m) : Session.Coded Q ⟨m, q.job⟩ :=
  ⟨⟨coded.heap.accounted, coded.heap.code, coded.frames q (List.mem_cons_self ..)⟩, coded.units⟩

theorem Turn.Of.coded (first : t.Of host slice q m) (plain : host.Plain Q)
    (coded : Session.Coded Q ⟨m, q.job⟩) : t.after.Coded Q := by
  obtain ⟨fuel, ran⟩ := first.ran
  obtain ⟨⟨outcome, s⟩, driven, concluded⟩ := Option.map_eq_some_iff.mp ran
  have result : ((Session.conclude host outcome).outcome s).2 = t.after :=
    congrArg Prod.snd concluded
  rw [first.before] at driven
  have drives := Session.drive_keeps (p := ⟨Q, False, True⟩) plain trivial _ _ _
    ⟨.refl, coded.heap, coded.units⟩ driven
  have moved := (Session.conclude_keeps host outcome s drives).outcome
  rw [result] at moved
  exact ⟨moved.coded, moved.units⟩

theorem Coded.turn (coded : Coded Q (q :: rest) m) (plain : host.Plain Q)
    (first : t.Of host slice q m) : Coded Q (rest ++ t.requeued) t.machine := by
  have after := first.coded plain coded.first
  refine ⟨⟨?_, ?_, fun f mem => by cases mem⟩, ?_, fun q' mem f mem' => ?_⟩
  · unfold Turn.machine
    split <;> exact after.heap.accounted
  · unfold Turn.machine
    split <;> exact after.heap.code
  · unfold Turn.machine
    split <;> exact after.units
  · rcases List.mem_append.mp mem with mem | mem
    · exact coded.frames q' (List.mem_cons_of_mem _ mem) f mem'
    · unfold Turn.requeued at mem
      split at mem
      · rw [List.mem_singleton.mp mem] at mem'
        exact after.heap.frames f mem'
      · cases mem

theorem Serves.coded (serves : Serves host slice queue m log rest m') (plain : host.Plain Q)
    (coded : Coded Q queue m) : Coded Q rest m' := by
  induction serves with
  | rest => exact coded
  | turn first _ ih => exact ih (coded.turn plain first)

/-- A slice of compiled code ends, so the job at the head of a queue has its turn. -/
theorem Coded.served (slice : Nat) (coded : Coded Q (q :: rest) m)
    (compiled : ∀ u, Q u → u.Compiled) (plain : host.Plain Q) :
    ∃ t : Turn H W, t.Of host slice q m := by
  obtain ⟨fuel, x, ends⟩ := Session.drive_bounded_ends compiled plain slice _ coded.first
  have ran : Session.runBounded host fuel slice ⟨m, q.job⟩ =
      some ((Session.conclude host x.1).outcome x.2) := by
    simp [Session.runBounded, Session.runIn, ends]
  exact ⟨⟨q.id, q.slices + 1, ⟨m, q.job⟩, _, _⟩, rfl, rfl, rfl, fuel, ran⟩

theorem Coded.serves (slice : Nat) (coded : Coded Q queue m) (compiled : ∀ u, Q u → u.Compiled)
    (plain : host.Plain Q) (n : Nat) :
    (∃ log m', Serves host slice queue m log [] m') ∨
      ∃ log queue' m', Serves host slice queue m log queue' m' ∧ log.length = n := by
  induction n with
  | zero => exact .inr ⟨[], queue, m, .rest .., rfl⟩
  | succ n ih =>
    rcases ih with finished | ⟨log, queue', m', serves, rfl⟩
    · exact .inl finished
    · cases queue' with
      | nil => exact .inl ⟨log, m', serves⟩
      | cons q rest =>
        obtain ⟨t, next⟩ := (serves.coded plain coded).served slice compiled plain
        exact .inr ⟨log ++ [t], _, _, serves.snoc next, by simp⟩

theorem Coded.finishes (coded : Coded Q queue m) (compiled : ∀ u, Q u → u.Compiled)
    (plain : host.Plain Q) (stops : Stops host slice queue m) :
    ∃ log m', Serves host slice queue m log [] m' := by
  obtain ⟨most, bounded⟩ := stops.bounded
  rcases coded.serves slice compiled plain (most + 1) with done | ⟨log, _, _, serves, long⟩
  · exact done
  · have short := bounded log _ _ serves
    omega

end Coded

/-! ## Runs -/

theorem Turn.Of.unique {q : Queued} {m : Machine H W} {t t' : Turn H W}
    (one : t.Of host slice q m) (two : t'.Of host slice q m) : t = t' := by
  obtain ⟨id, round, before, outcome, after⟩ := t
  obtain ⟨id', round', before', outcome', after'⟩ := t'
  obtain ⟨rfl, rfl, rfl, fuel, ran⟩ := one
  obtain ⟨rfl, rfl, rfl, fuel', ran'⟩ := two
  obtain ⟨x, driven, concluded⟩ := Option.map_eq_some_iff.mp ran
  obtain ⟨y, driven', concluded'⟩ := Option.map_eq_some_iff.mp ran'
  cases Session.drive_unique driven driven'
  cases concluded.symm.trans concluded'
  rfl

theorem Serves.isPrefix {queue queue' : List Queued} {m m' m'' : Machine H W}
    {log all : List (Turn H W)} (whole : Serves host slice queue m all [] m')
    (part : Serves host slice queue m log queue' m'') : log <+: all := by
  generalize none : ([] : List Queued) = left at whole
  induction whole generalizing log with
  | rest =>
    subst none
    simp [part.eq_nil]
  | turn first _ ih =>
    cases part with
    | rest => exact List.nil_prefix
    | turn first' later =>
      cases first.unique first'
      exact List.cons_prefix_cons.mpr ⟨rfl, ih later none⟩

theorem Serves.stops {queue : List Queued} {m m' : Machine H W} {log : List (Turn H W)}
    (serves : Serves host slice queue m log [] m') : Stops host slice queue m := by
  intro id
  refine ⟨halts id log, fun part _ _ given => ?_⟩
  exact ((serves.isPrefix given).sublist.filter _).countP_le

theorem turns_succ {q : Queued} {rest : List Queued} {m : Machine H W} {t : Turn H W} {fuel₀ : Nat}
    (first : t.Of host slice q m)
    (ran : Session.runBounded host fuel₀ slice t.before = some (t.outcome, t.after))
    {stepFuel : Nat} (enough : fuel₀ ≤ stepFuel) (fuel : Nat) (reports : List JobReport) :
    turns host slice stepFuel (fuel + 1) (q :: rest) reports m =
      turns host slice stepFuel fuel (rest ++ t.requeued) (t.report.toList ++ reports)
        t.machine := by
  obtain ⟨x, driven, concluded⟩ := Option.map_eq_some_iff.mp ran
  have ran : Session.runBounded host stepFuel slice ⟨m, q.job⟩ = some (t.outcome, t.after) := by
    rw [first.before] at driven
    rw [Session.runBounded, Session.runIn, Session.drive_mono enough driven, Option.map_some,
      concluded]
  rw [turns, ran, first.requeued, Turn.report, Turn.machine, first.id, first.round]
  cases halted : t.halted with
  | true =>
    rw [Turn.outcome_of_halted halted]
    rfl
  | false =>
    unfold Turn.halted at halted
    cases answer : t.outcome with
    | error e => simp
    | ok outcome =>
      cases outcome with
      | halted => simp [answer, isHalted] at halted
      | completed values => simp
      | aborted => simp

theorem Serves.turns_eq {queue : List Queued} {m m' : Machine H W} {log : List (Turn H W)}
    (serves : Serves host slice queue m log [] m') : ∃ enough, ∀ stepFuel ≥ enough,
      ∀ fuel ≥ log.length, ∀ reports, turns host slice stepFuel fuel queue reports m =
        some (reports.reverse ++ log.filterMap Turn.report, m') := by
  generalize none : ([] : List Queued) = queue' at serves
  induction serves with
  | rest =>
    subst none
    exact ⟨0, fun _ _ fuel _ reports => by simp [turns]⟩
  | @turn q rest queue' m m' t log first later ih =>
    obtain ⟨enough, later⟩ := ih none
    obtain ⟨fuel₀, ran⟩ := first.ran
    refine ⟨max fuel₀ enough, fun stepFuel most fuel long reports => ?_⟩
    obtain ⟨fuel, rfl⟩ : ∃ n, fuel = n + 1 := ⟨fuel - 1, by rw [List.length_cons] at long; omega⟩
    rw [turns_succ first ran (le_of_max_le_left most),
      later stepFuel (le_of_max_le_right most) fuel (by simpa using long)]
    cases told : t.report with
    | none => rw [List.filterMap_cons_none told, Option.toList_none, List.nil_append]
    | some r => simp [List.filterMap_cons_some told]

theorem serves_of_turns {stepFuel : Nat} (fuel : Nat) : ∀ {queue : List Queued} {m : Machine H W}
    {reports : List JobReport} {x : List JobReport × Machine H W},
      turns host slice stepFuel fuel queue reports m = some x →
        ∃ log, Serves host slice queue m log [] x.2 := by
  induction fuel with
  | zero =>
    intro queue m reports x ran
    cases queue with
    | nil =>
      rw [turns] at ran
      cases ran
      exact ⟨[], .rest ..⟩
    | cons q rest => cases ran
  | succ fuel ih =>
    intro queue m reports x ran
    cases queue with
    | nil =>
      rw [turns] at ran
      cases ran
      exact ⟨[], .rest ..⟩
    | cons q rest =>
      cases sliced : Session.runBounded host stepFuel slice ⟨m, q.job⟩ with
      | none =>
        rw [turns, sliced] at ran
        cases ran
      | some result =>
        have first : Turn.Of host slice q m
            ⟨q.id, q.slices + 1, ⟨m, q.job⟩, result.1, result.2⟩ :=
          ⟨rfl, rfl, rfl, stepFuel, sliced⟩
        rw [turns_succ first sliced (Nat.le_refl _)] at ran
        obtain ⟨log, later⟩ := ih ran
        exact ⟨_, .turn first later⟩

def spawnAll (s : Scheduler) (jobs : List Job) : Scheduler :=
  jobs.foldl (fun s job => (s.spawn job).2) s

def numbered (first : Nat) : List Job → List Queued
  | [] => []
  | job :: jobs => ⟨first, job, 0⟩ :: numbered (first + 1) jobs

theorem spawnAll_slice (jobs : List Job) : ∀ s : Scheduler, (s.spawnAll jobs).slice = s.slice := by
  induction jobs with
  | nil => exact fun _ => rfl
  | cons job jobs ih => exact fun s => ih (s.spawn job).2

theorem spawnAll_queue (jobs : List Job) : ∀ s : Scheduler,
    (s.spawnAll jobs).queue = s.queue ++ numbered s.nextId jobs := by
  induction jobs with
  | nil => exact fun s => (List.append_nil _).symm
  | cons job jobs ih =>
    intro s
    rw [spawnAll, List.foldl_cons, ← spawnAll, ih]
    exact List.append_assoc ..

theorem map_id_numbered (jobs : List Job) : ∀ first,
    (numbered first jobs).map Queued.id = List.range' first jobs.length := by
  induction jobs with
  | nil => exact fun _ => rfl
  | cons job jobs ih =>
    intro first
    rw [numbered, List.map_cons, ih, List.length_cons, List.range'_succ]

theorem numbered_getElem (jobs : List Job) : ∀ (first i : Nat) (inside : i < jobs.length),
    ⟨first + i, jobs[i], 0⟩ ∈ numbered first jobs := by
  induction jobs with
  | nil => exact fun _ _ inside => absurd inside (Nat.not_lt_zero _)
  | cons job jobs ih =>
    intro first i inside
    cases i with
    | zero => exact List.mem_cons_self ..
    | succ i =>
      have later := ih (first + 1) i (by simpa using inside)
      rw [Nat.add_assoc, Nat.add_comm 1] at later
      exact List.mem_cons_of_mem _ later

theorem mem_numbered {jobs : List Job} : ∀ {first : Nat} {q : Queued}, q ∈ numbered first jobs →
    q.job ∈ jobs ∧ q.slices = 0 ∧ first ≤ q.id := by
  induction jobs with
  | nil => exact fun mem => by cases mem
  | cons job jobs ih =>
    intro first q mem
    rcases List.mem_cons.mp mem with rfl | mem
    · exact ⟨List.mem_cons_self .., rfl, Nat.le_refl _⟩
    · obtain ⟨listed, fresh, above⟩ := ih mem
      exact ⟨List.mem_cons_of_mem _ listed, fresh, by omega⟩

theorem lined_numbered (jobs : List Job) : ∀ first, Lined (numbered first jobs) := by
  intro first
  have fresh : ∀ q ∈ numbered first jobs, q.slices = 0 := fun q mem => (mem_numbered mem).2.1
  refine ⟨?_, fun q mem head isHead => ?_⟩
  · clear fresh
    induction jobs generalizing first with
    | nil => exact .nil
    | cons job jobs ih =>
      refine List.pairwise_cons.mpr ⟨fun q mem => ?_, ih (first + 1)⟩
      obtain ⟨-, slices, above⟩ := mem_numbered mem
      exact Prod.lex_def.mpr (.inr ⟨slices.symm, above⟩)
  · simp only [Earlier, Prod.lex_def, Queued.key, fresh q mem,
      fresh head (List.mem_of_mem_head? isHead)]
    omega

/-- Jobs spawned on a scheduler all come to their end, if each stops being halted some time. There
is one report for each; slices are given in the order of rounds and numbers, and the reports stand
in the order of slices and numbers. Each job has one slice in each round up to its last, it is found
as its slice before left it, it is halted in all of them but the last, and its report tells what the
last one answered. -/
theorem run_in_rounds {Q : CodeUnit → Prop} (compiled : ∀ u, Q u → u.Compiled)
    (plain : host.Plain Q) {m : Machine H W} (heap : m.heap.Coded Q []) (units : m.units.Codes Q)
    {s : Scheduler} (empty : s.queue = []) {jobs : List Job}
    (frames : ∀ job ∈ jobs, ∀ f ∈ job.frames, f.Codes Q)
    (stops : Stops host s.slice (s.spawnAll jobs).queue m) :
    ∃ enough log reports m',
      (∀ fuel ≥ enough, (s.spawnAll jobs).run host fuel m = some (reports, m')) ∧
      Serves host s.slice (s.spawnAll jobs).queue m log [] m' ∧
      log.Pairwise (fun a b => Earlier (a.round, a.id) (b.round, b.id)) ∧
      (reports.map JobReport.id).Perm (List.range' s.nextId jobs.length) ∧
      reports.Pairwise (fun a b => Earlier (a.slices, a.id) (b.slices, b.id)) ∧
      ∀ i, (inside : i < jobs.length) → ∃ report ∈ reports,
        Course (s.nextId + i) 0 jobs[i] (turnsOf (s.nextId + i) log) report := by
  have queue : (s.spawnAll jobs).queue = numbered s.nextId jobs := by
    rw [spawnAll_queue, empty, List.nil_append]
  rw [queue] at stops ⊢
  have coded : Coded Q (numbered s.nextId jobs) m :=
    ⟨heap, units, fun q mem => frames q.job (mem_numbered mem).1⟩
  obtain ⟨log, m', serves⟩ := coded.finishes compiled plain stops
  obtain ⟨enough, turns_eq⟩ := serves.turns_eq
  have ascending := (serves.ascending (lined_numbered jobs _)).1
  refine ⟨max enough log.length, log, log.filterMap Turn.report, m', fun fuel most => ?_, serves,
    ascending, ?_, pairwise_reports ascending, fun i inside => ?_⟩
  · rw [run, queue, spawnAll_slice]
    exact turns_eq fuel (le_of_max_le_left most) fuel (le_of_max_le_right most) []
  · rw [← map_id_numbered]
    exact serves.reports_perm
  · have distinct : ((numbered s.nextId jobs).map Queued.id).Nodup := by
      rw [map_id_numbered]
      exact List.nodup_range'
    obtain ⟨report, course⟩ := serves.course distinct _ (numbered_getElem jobs _ i inside)
    refine ⟨report, ?_, course⟩
    have told : report ∈ (turnsOf (s.nextId + i) log).filterMap Turn.report := by
      rw [course.filterMap_report]
      exact List.mem_singleton_self _
    exact (List.filter_sublist.filterMap _).subset told

/-! Three jobs: one that waits for a task and is halted twice, one whose task has failed, and one
that has nothing to do. -/

def errands : List Job :=
  [{ pending := some { polls := 2, result := .ok [.null] } },
    { pending := some { result := .error (.plain "gone") } }, {}]

theorem stops_errands : Stops Session.idle 1 ((new 1).spawnAll errands).queue
    ({ world := () } : Machine Unit Unit) := by
  have ends : (turns Session.idle 1 2 5 ((new 1).spawnAll errands).queue []
      ({ world := () } : Machine Unit Unit)).isSome := rfl
  obtain ⟨x, ran⟩ := Option.isSome_iff_exists.mp ends
  obtain ⟨log, serves⟩ := serves_of_turns 5 ran
  exact serves.stops

theorem run_in_rounds_errands : ∃ enough reports m',
    (∀ fuel ≥ enough, ((new 1).spawnAll errands).run Session.idle fuel
      ({ world := () } : Machine Unit Unit) = some (reports, m')) ∧
    (reports.map JobReport.id).Perm [0, 1, 2] := by
  have heap : ({} : Heap Unit).Coded CodeUnit.Compiled [] :=
    ⟨Heap.accounted_empty, fun _ _ _ found => (by simp at found), fun _ mem => (by cases mem)⟩
  have units : UnitTable.Codes CodeUnit.Compiled {} := fun _ _ found => by cases found
  have frames : ∀ job ∈ errands, ∀ f ∈ job.frames, f.Codes CodeUnit.Compiled := by
    simp [errands]
  obtain ⟨enough, _, reports, m', runs, _, _, perm, _⟩ := run_in_rounds (fun _ compiled => compiled)
    (Session.plain_idle _) heap units (s := new 1) rfl frames stops_errands
  exact ⟨enough, reports, m', runs, perm⟩

example : (((new 1).spawnAll errands).run Session.idle 5 ({ world := () } : Machine Unit Unit)).map
    (fun result => result.1.map fun r => (r.slices, r.id)) = some [(1, 1), (1, 2), (3, 0)] := rfl

end Scheduler

end ScriptMachine
