import ScriptMachine.Proofs.Machine.Departures

/-!
# Lives of frames

A frame is on the stack of a job, or parked in the iterator that it belongs to. A turn of a system
leaves it where it is, moves it between the two, or ends it. What it keeps for its deferred blocks
is a function of its own moments, whatever other frames, generators and jobs do in between.
-/

set_option autoImplicit false

namespace ScriptMachine

variable {H W : Type}

namespace Session

variable {s t u : Session H W} {ms : Nat → List Moment} {x : Handle} {f g : Frame} {n : Nat}

theorem mark_of_frame (found : u.job.frames.reverse[n]? = some g) :
    u.marks.reverse[n]? = some g.mark := by
  rw [marks, marks_at, found]
  rfl

theorem frame_of_mark {c : Mark} (found : t.marks.reverse[n]? = some c) :
    ∃ k, t.job.frames.reverse[n]? = some k ∧ k.mark = c := by
  rw [marks, marks_at] at found
  exact Option.map_eq_some_iff.mp found

theorem exists_of_marks (marks : u.marks <:+ t.marks) (after : u.job.frames.reverse[n]? = some g) :
    ∃ k, t.job.frames.reverse[n]? = some k ∧ k.mark = g.mark :=
  frame_of_mark (getElem?_reverse_suffix marks (mark_of_frame after))

theorem Becomes.stays (becomes : s.Becomes ms u) (before : s.job.frames.reverse[n]? = some f)
    (after : u.job.frames.reverse[n]? = some g) : f.Aged (ms n) g := by
  have aged : ∀ {t : Session H W} {k : Frame}, s.Outlives ms t →
      t.job.frames.reverse[n]? = some k → f.Aged (ms n) k := by
    intro t k outlives found
    obtain ⟨f', same, aged⟩ := outlives.ages n k found
    rw [before] at same
    cases same
    exact aged
  rcases becomes with outlives | ⟨t, outlives, none, depth, shifts⟩
  · exact aged outlives after
  have lower : u.marks <:+ t.marks → f.Aged (ms n) g := by
    intro marks
    obtain ⟨k, found, same⟩ := exists_of_marks marks after
    have both := (aged outlives found).trans (none n) (.of_mark same.symm)
    rwa [List.append_nil] at both
  have pushed : ∀ {c : Mark}, u.marks = c :: t.marks → f.Aged (ms n) g := by
    intro c marks
    have inside : n < t.marks.length := by
      rw [marks_length, depth, Job.depth, ← List.length_reverse]
      exact (List.getElem?_eq_some_iff.mp before).1
    have found := mark_of_frame after
    rw [marks, getElem?_reverse_cons, if_neg (by omega)] at found
    obtain ⟨k, found, same⟩ := frame_of_mark found
    have both := (aged outlives found).trans (none n) (.of_mark same.symm)
    rwa [List.append_nil] at both
  cases shifts with
  | falls falls => exact lower falls.marks
  | enters _ marks => exact pushed marks
  | waits _ _ marks => exact lower (marks ▸ List.suffix_refl _)
  | parks marks => exact lower (marks ▸ List.suffix_cons _ _)
  | resumes _ marks => exact pushed marks

theorem Becomes.pushed (becomes : s.Becomes ms u) (before : s.job.frames.reverse[n]? = none)
    (after : u.job.frames.reverse[n]? = some g) :
    (g.generator = none ∧ g.deferral.Fresh) ∨
      ∃ x k, s.machine.heap.parkedAt x = some k ∧ g.mark = k.mark := by
  have old : ∀ {t : Session H W} {k : Frame}, s.Outlives ms t →
      t.job.frames.reverse[n]? ≠ some k := by
    intro t k outlives found
    obtain ⟨f, same, -⟩ := outlives.ages n k found
    rw [before] at same
    cases same
  rcases becomes with outlives | ⟨t, outlives, -, depth, shifts⟩
  · exact (old outlives after).elim
  have lower : ¬ u.marks <:+ t.marks := by
    intro marks
    obtain ⟨k, found, -⟩ := exists_of_marks marks after
    exact old outlives found
  have top : ∀ {c : Mark}, u.marks = c :: t.marks → g.mark = c := by
    intro c marks
    have found := mark_of_frame after
    rw [marks, getElem?_reverse_cons] at found
    split at found
    · exact (Option.some.inj found).symm
    · obtain ⟨k, found, -⟩ := frame_of_mark found
      exact (old outlives found).elim
  cases shifts with
  | falls falls => exact (lower falls.marks).elim
  | enters fresh marks =>
    obtain ⟨generator, rfl⟩ := Mark.mk.inj (top marks)
    exact .inl ⟨generator, fresh⟩
  | waits _ _ marks => exact (lower (marks ▸ List.suffix_refl _)).elim
  | parks marks => exact (lower (marks ▸ List.suffix_cons _ _)).elim
  | resumes parked marks =>
    exact .inr ⟨_, _, (outlives.heap.parked _ _ parked).resolve_right (by simp), top marks⟩

/-- A frame that is parked behind an act was parked, or is new, or is the one that was on top of the
stack. -/
theorem Becomes.parked (becomes : s.Becomes ms u) (after : u.machine.heap.parkedAt x = some g) :
    s.machine.heap.parkedAt x = some g ∨
      (¬ s.machine.heap.Issued x ∧ g.deferral.Fresh) ∨
      ∃ d f, s.job.depth = d + 1 ∧ u.job.depth = d ∧ s.job.frames.reverse[d]? = some f ∧
        f.generator = some x ∧ f.Aged (ms d) g := by
  have old : ∀ {t : Session H W}, s.machine.heap.Parks none t.machine.heap →
      t.machine.heap.parkedAt x = some g → s.machine.heap.parkedAt x = some g :=
    fun parks found => (parks.parked x g found).resolve_right (by simp)
  rcases becomes with outlives | ⟨t, outlives, none, depth, shifts⟩
  · exact .inl (old outlives.heap after)
  cases shifts with
  | falls falls => exact .inl (old (outlives.heap.trans falls.heap) after)
  | enters _ _ heap | resumes _ _ heap => exact .inl (old (outlives.heap.trans heap) after)
  | waits fresh new _ heap =>
    rcases heap.parked x g after with before | made
    · exact .inl (old outlives.heap before)
    · obtain ⟨rfl, mark⟩ := Prod.mk.inj (Option.some.inj made)
      obtain ⟨-, rfl⟩ := Mark.mk.inj mark
      exact .inr (.inl ⟨fun issued => new (outlives.heap.issued _ issued), fresh⟩)
  | @parks y d marks heap =>
    rcases heap.parked x g after with before | made
    · exact .inl (old outlives.heap before)
    · obtain ⟨rfl, mark⟩ := Prod.mk.inj (Option.some.inj made)
      have lengths := congrArg List.length marks
      rw [List.length_cons, marks_length, marks_length, depth] at lengths
      have top : t.marks.reverse[u.job.depth]? = some g.mark := by
        rw [marks, getElem?_reverse_cons, marks_length, if_pos rfl, mark]
      obtain ⟨k, found, same⟩ := frame_of_mark top
      obtain ⟨f, here, aged⟩ := outlives.ages _ _ found
      have both := aged.trans (none _) (.of_mark same.symm)
      rw [List.append_nil] at both
      refine .inr (.inr ⟨_, f, lengths, rfl, here, ?_, both⟩)
      exact both.generator.symm.trans (congrArg Mark.generator mark).symm

end Session

/-! ## Places -/

inductive Place where
  /-- On the stack of a job, at a height. -/
  | stack (job height : Nat)
  | parked (generator : Handle)
deriving DecidableEq

namespace System

variable {host : Host H W} {deed : Deed} {s t u : System H W} {pl pl' : Place} {f g : Frame}
  {i n : Nat} {x : Handle} {job : Job}

def frameAt (s : System H W) : Place → Option Frame
  | .stack i n => s.jobs[i]?.bind fun job => job.frames.reverse[n]?
  | .parked x => s.machine.heap.parkedAt x

/-- A frame is at one place before a turn and at another, or the same, behind it. It moves only
between a stack and the iterator that it belongs to. -/
inductive Goes (s t : System H W) : Place → Place → Prop
  | stays {pl : Place} : (s.frameAt pl).isSome → (t.frameAt pl).isSome → Goes s t pl pl
  | parks {i n : Nat} {x : Handle} {f : Frame} : s.frameAt (.stack i n) = some f →
      f.generator = some x → t.frameAt (.stack i n) = none → (t.frameAt (.parked x)).isSome →
      Goes s t (.stack i n) (.parked x)
  | resumes {i n : Nat} {x : Handle} {g : Frame} : (s.frameAt (.parked x)).isSome →
      s.frameAt (.stack i n) = none → t.frameAt (.stack i n) = some g → g.generator = some x →
      Goes s t (.parked x) (.stack i n)

def moments (host : Host H W) (s : System H W) (deed : Deed) (pl : Place) : List Moment :=
  match deed, pl with
  | .act i act, .stack j n =>
    if i = j then
      match s.jobs[i]? with
      | some job => act.moments host ⟨s.machine, job⟩ n
      | none => []
    else []
  | _, _ => []

def Quiet (s : System H W) : Prop := ∀ job ∈ s.jobs, Session.Quiet ⟨s.machine, job⟩

theorem Running.becomes (plain : host.Plain CodeUnit.Compiled) (running : s.Running)
    (quiet : s.Quiet) {act : Act} {u : Session H W} (found : s.jobs[i]? = some job)
    (admits : act.Admits job) (result : ((act.op host).outcome ⟨s.machine, job⟩).2 = u) :
    Session.Becomes (act.moments host ⟨s.machine, job⟩) ⟨s.machine, job⟩ u ∧ u.Quiet := by
  have mem := List.mem_of_getElem? found
  have becomes := Session.act_becomes plain.any act admits (running.session mem) (quiet job mem)
  exact result ▸ becomes.outcome

theorem Turn.quiet (plain : host.Plain CodeUnit.Compiled) (turn : Turn host deed s t)
    (running : s.Running) (quiet : s.Quiet) : t.Quiet := by
  intro job mem
  cases turn with
  | spawn =>
    rcases List.mem_append.mp mem with old | new
    · exact quiet job old
    · rw [List.mem_singleton.mp new]
      exact fun loaded => absurd rfl loaded
  | act act u found admits result =>
    rcases List.mem_or_eq_of_mem_set mem with old | rfl
    · exact quiet job old
    · exact (running.becomes plain quiet found admits result).2
  | embed => exact quiet job mem

theorem Underway.quiet (plain : host.Plain CodeUnit.Compiled) (underway : Underway host s) :
    s.Quiet := by
  induction underway with
  | start => exact fun job mem => absurd mem List.not_mem_nil
  | turn before turn ih => exact turn.quiet plain (before.running plain) ih

/-! ## One turn -/

theorem frameAt_stack (found : s.jobs[i]? = some job) (n : Nat) :
    s.frameAt (.stack i n) = job.frames.reverse[n]? := by
  rw [frameAt, found, Option.bind_some]

theorem mem_frames (placed : s.frameAt (.stack i n) = some f) : f ∈ s.frames := by
  obtain ⟨job, found, here⟩ := Option.bind_eq_some_iff.mp placed
  exact List.mem_flatMap.mpr ⟨job, List.mem_of_getElem? found,
    List.mem_reverse.mp (List.mem_of_getElem? here)⟩

theorem Running.parkedAt_eq_none (running : s.Running) (placed : s.frameAt (.stack i n) = some f)
    (belongs : f.generator = some x) : s.machine.heap.parkedAt x = none := by
  cases away : s.machine.heap.parkedAt x with
  | none => rfl
  | some g =>
    obtain ⟨it, found, parked⟩ := Heap.parkedAt_eq_some.mp away
    have pos : 0 < runners x s.frames :=
      List.countP_pos_iff.mpr ⟨f, mem_frames placed, by simpa using belongs⟩
    have generates := Iterator.isGenerator_of_parked parked
    have none := (running.protocol.running_of_pos pos found generates).2.1
    rw [parked] at none
    cases none

theorem Running.generator_of_parked (running : s.Running)
    (away : s.machine.heap.parkedAt x = some f) : f.generator = some x := by
  obtain ⟨it, found, parked⟩ := Heap.parkedAt_eq_some.mp away
  have keeps := running.protocol.keeps x it found (Iterator.isGenerator_of_parked parked)
  have own : (∃ f, it.parked = some f ∧ f.generator = some x) → f.generator = some x := by
    rintro ⟨g, parked', belongs⟩
    rw [parked] at parked'
    cases parked'
    exact belongs
  unfold Iterator.Keeps at keeps
  cases state : it.state <;> simp only [state] at keeps
  · exact own keeps.1
  · exact own keeps.1
  · simp [parked] at keeps
  · simp [parked] at keeps

theorem Turn.aged_stack (plain : host.Plain CodeUnit.Compiled) (turn : Turn host deed s t)
    (running : s.Running) (quiet : s.Quiet) (before : s.frameAt (.stack i n) = some f)
    (after : t.frameAt (.stack i n) = some g) : f.Aged (s.moments host deed (.stack i n)) g := by
  obtain ⟨job, found, here⟩ := Option.bind_eq_some_iff.mp before
  have inside : i < s.jobs.length := (List.getElem?_eq_some_iff.mp found).1
  have unmoved : t.jobs[i]? = some job → f.Aged [] g := by
    intro same
    rw [frameAt_stack same, here] at after
    cases after
    exact .of_mark rfl
  cases turn with
  | spawn => exact unmoved ((List.getElem?_append_left inside).trans found)
  | embed => exact unmoved found
  | @act _ j job' act u found' admits result =>
    by_cases same : j = i
    · subst same
      rw [found] at found'
      cases found'
      have becomes := (running.becomes plain quiet found admits result).1
      have now := frameAt_stack (s := ⟨u.machine, s.jobs.set j u.job⟩)
        (List.getElem?_set_self inside) n
      simp only [moments, if_true, found]
      exact becomes.stays here (now.symm.trans after)
    · simp only [moments, if_neg same]
      exact unmoved ((List.getElem?_set_ne same).trans found)

theorem Turn.pushed (plain : host.Plain CodeUnit.Compiled) (turn : Turn host deed s t)
    (running : s.Running) (quiet : s.Quiet) (before : s.frameAt (.stack i n) = none)
    (after : t.frameAt (.stack i n) = some g) :
    (g.generator = none ∧ g.deferral.Fresh) ∨
      ∃ x f, s.machine.heap.parkedAt x = some f ∧ g.mark = f.mark := by
  obtain ⟨job, found, here⟩ := Option.bind_eq_some_iff.mp after
  have absent : ∀ job', s.jobs[i]? = some job' → job'.frames.reverse[n]? = none := fun job' old =>
    (frameAt_stack old n).symm.trans before
  cases turn with
  | spawn =>
    by_cases inside : i < s.jobs.length
    · rw [absent job ((List.getElem?_append_left inside).symm.trans found)] at here
      cases here
    · rw [List.getElem?_append_right (by omega)] at found
      rw [List.mem_singleton.mp (List.mem_of_getElem? found)] at here
      cases here
  | embed =>
    rw [absent job found] at here
    cases here
  | @act _ j job' act u found' admits result =>
    by_cases same : j = i
    · subst same
      rw [List.getElem?_set_self (List.getElem?_eq_some_iff.mp found').1] at found
      cases found
      have becomes := (running.becomes plain quiet found' admits result).1
      exact becomes.pushed (absent job' found') here
    · rw [absent job ((List.getElem?_set_ne same).symm.trans found)] at here
      cases here

/-- What a turn leaves parked was parked, or is new, or is the one frame that it took off a
stack. -/
theorem Turn.parked (plain : host.Plain CodeUnit.Compiled) (turn : Turn host deed s t)
    (running : s.Running) (quiet : s.Quiet) (after : t.machine.heap.parkedAt x = some g) :
    s.machine.heap.parkedAt x = some g ∨
      (¬ s.machine.heap.Issued x ∧ g.deferral.Fresh) ∨
      ∃ i n f, s.frameAt (.stack i n) = some f ∧ t.frameAt (.stack i n) = none ∧
        f.generator = some x ∧ f.Aged (s.moments host deed (.stack i n)) g ∧
        ∀ j k f', s.frameAt (.stack j k) = some f' → t.frameAt (.stack j k) = none →
          j = i ∧ k = n := by
  cases turn with
  | spawn => exact .inl after
  | embed _ m ops makes heap =>
    have parks := Heap.Parks.refl running.heap.accounted
    have grows := Heap.Grows.after parks.here fun op mem => (makes op mem).any
    exact .inl (((parks.grows (heap ▸ grows)).parked x g after).resolve_right (by simp))
  | @act _ i job act u found admits result =>
    have inside : i < s.jobs.length := (List.getElem?_eq_some_iff.mp found).1
    have becomes := (running.becomes plain quiet found admits result).1
    rcases becomes.parked after with old | new | ⟨d, f, depth, depth', here, belongs, aged⟩
    · exact .inl old
    · exact .inr (.inl new)
    have now : ∀ k, frameAt ⟨u.machine, s.jobs.set i u.job⟩ (.stack i k) =
        u.job.frames.reverse[k]? := frameAt_stack (List.getElem?_set_self inside)
    refine .inr (.inr ⟨i, d, f, (frameAt_stack found d).trans here, ?_, belongs, ?_, ?_⟩)
    · rw [now, List.getElem?_eq_none]
      simpa [Job.depth] using Nat.le_of_eq depth'
    · simp only [moments, if_true, found]
      exact aged
    · intro j k f' was gone
      by_cases same : j = i
      · subst same
        rw [frameAt_stack found] at was
        rw [now] at gone
        have low := (List.getElem?_eq_some_iff.mp was).1
        have high := List.getElem?_eq_none_iff.mp gone
        rw [List.length_reverse] at low high
        simp only [Job.depth] at depth depth'
        exact ⟨rfl, by omega⟩
      · have kept : frameAt ⟨u.machine, s.jobs.set i u.job⟩ (.stack j k) =
            s.frameAt (.stack j k) := by
          simp only [frameAt, List.getElem?_set_ne (Ne.symm same)]
        rw [kept, was] at gone
        cases gone

theorem Turn.aged (plain : host.Plain CodeUnit.Compiled) (turn : Turn host deed s t)
    (running : s.Running) (quiet : s.Quiet) (goes : Goes s t pl pl')
    (before : s.frameAt pl = some f) (after : t.frameAt pl' = some g) :
    f.Aged (s.moments host deed pl) g := by
  have unmoved : ∀ x, s.moments host deed (.parked x) = [] := fun x => by cases deed <;> rfl
  have parkedAt : ∀ {x k}, s.machine.heap.parkedAt x = some k → s.frameAt (.parked x) = some k :=
    fun found => found
  cases goes with
  | stays =>
    cases pl with
    | stack i n => exact turn.aged_stack plain running quiet before after
    | parked x =>
      rw [unmoved]
      rcases turn.parked plain running quiet after with same | ⟨new, -⟩ |
        ⟨i, n, f', here, -, belongs, -⟩
      · rw [parkedAt same] at before
        cases before
        exact .of_mark rfl
      · obtain ⟨it, found, -⟩ := Heap.parkedAt_eq_some.mp before
        exact absurd (running.heap.accounted.issued_of_live found) new
      · have none := running.parkedAt_eq_none here belongs
        rw [show s.machine.heap.parkedAt x = some f from before] at none
        cases none
  | @parks i n x f' here belongs gone =>
    rw [before] at here
    cases here
    rcases turn.parked plain running quiet after with same | ⟨new, -⟩ |
      ⟨j, k, f', there, -, -, aged, only⟩
    · rw [running.parkedAt_eq_none before belongs] at same
      cases same
    · exact absurd (running.protocol.frames f (mem_frames before) x belongs).issued new
    · -- only one frame can go from a stack in a turn, so it is this one
      obtain ⟨rfl, rfl⟩ := only i n f before gone
      rw [before] at there
      cases there
      exact aged
  | @resumes i n x g' away absent here belongs =>
    rw [after] at here
    cases here
    rw [unmoved]
    rcases turn.pushed plain running quiet absent after with ⟨none, -⟩ | ⟨y, f', parked, same⟩
    · rw [belongs] at none
      cases none
    · have generator : g.generator = f'.generator := congrArg Mark.generator same
      rw [belongs, running.generator_of_parked parked] at generator
      cases generator
      rw [parkedAt parked] at before
      cases before
      exact .of_mark same

theorem Turn.fresh (plain : host.Plain CodeUnit.Compiled) (turn : Turn host deed s t)
    (running : s.Running) (quiet : s.Quiet) (born : ∀ pl', ¬ Goes s t pl' pl)
    (after : t.frameAt pl = some g) : g.deferral.Fresh := by
  have absent : s.frameAt pl = none := by
    cases before : s.frameAt pl with
    | none => rfl
    | some f => exact absurd (.stays (by simp [before]) (by simp [after])) (born pl)
  cases pl with
  | stack i n =>
    rcases turn.pushed plain running quiet absent after with ⟨-, fresh⟩ | ⟨x, f, parked, same⟩
    · exact fresh
    · have own := running.generator_of_parked parked
      have belongs : g.generator = some x := (congrArg Mark.generator same).trans own
      exact absurd (.resumes (Option.isSome_iff_exists.mpr ⟨f, parked⟩) absent after belongs)
        (born (.parked x))
  | parked x =>
    rcases turn.parked plain running quiet after with same | ⟨-, fresh⟩ |
      ⟨i, n, f, here, gone, belongs, -⟩
    · rw [show s.frameAt (.parked x) = s.machine.heap.parkedAt x from rfl, same] at absent
      cases absent
    · exact fresh
    · exact absurd (.parks here belongs gone (Option.isSome_iff_exists.mpr ⟨g, after⟩))
        (born (.stack i n))

/-! ## Many turns -/

/-- A frame from one system to another: the places where it is and the moments that it goes through,
turn by turn. -/
inductive Life (host : Host H W) (s : System H W) (pl : Place) :
    List Moment → System H W → Place → Prop
  | here : (s.frameAt pl).isSome → Life host s pl [] s pl
  | turn {ms : List Moment} {t u : System H W} {pl' pl'' : Place} {deed : Deed} :
      Life host s pl ms t pl' → Turn host deed t u → Goes t u pl' pl'' →
      Life host s pl (ms ++ t.moments host deed pl') u pl''

theorem Goes.before (goes : Goes s t pl pl') : ∃ f, s.frameAt pl = some f := by
  cases goes with
  | stays found | resumes found => exact Option.isSome_iff_exists.mp found
  | parks found => exact ⟨_, found⟩

theorem Goes.after (goes : Goes s t pl pl') : (t.frameAt pl').isSome := by
  cases goes with
  | stays _ found | parks _ _ _ found => exact found
  | resumes _ _ found => simp [found]

namespace Life

variable {ms ns : List Moment} {pl'' : Place}

theorem underway (life : Life host s pl ms t pl') (underway : Underway host s) :
    Underway host t := by
  induction life with
  | here => exact underway
  | turn _ turn _ ih => exact ih.turn turn

theorem before (life : Life host s pl ms t pl') : ∃ f, s.frameAt pl = some f := by
  induction life with
  | here found => exact Option.isSome_iff_exists.mp found
  | turn _ _ _ ih => exact ih

theorem after (life : Life host s pl ms t pl') : (t.frameAt pl').isSome := by
  cases life with
  | here found => exact found
  | turn _ _ goes => exact goes.after

theorem trans (first : Life host s pl ms t pl') (second : Life host t pl' ns u pl'') :
    Life host s pl (ms ++ ns) u pl'' := by
  induction second with
  | here => rwa [List.append_nil]
  | turn _ turn goes ih =>
    rw [← List.append_assoc]
    exact ih.turn turn goes

theorem follows (plain : host.Plain CodeUnit.Compiled) (underway : Underway host s)
    (life : Life host s pl ms t pl') (before : s.frameAt pl = some f)
    (after : t.frameAt pl' = some g) : f.deferral.Follows ms g.deferral := by
  induction life generalizing g with
  | here =>
    rw [before] at after
    cases after
    exact rfl
  | turn life turn goes ih =>
    have here := life.underway underway
    obtain ⟨f', found⟩ := goes.before
    exact (ih found).append (turn.aged plain (here.running plain) (here.quiet plain) goes found
      after).follows

end Life

/-! ## Runs as lives -/

def history (host : Host H W) (i : Nat) (pl : Place) : List Act → System H W → List Moment
  | [], _ => []
  | act :: acts, s =>
    s.moments host (.act i act) pl ++ history host i pl acts (s.perform host i act)

/-- The frame at a place is there all the while that a job does some things. -/
def remains (host : Host H W) (i : Nat) (pl : Place) : List Act → System H W → Bool
  | [], s => (s.frameAt pl).isSome
  | act :: acts, s => (s.frameAt pl).isSome && remains host i pl acts (s.perform host i act)

theorem Life.performs {acts : List Act} :
    (∀ act ∈ acts, ∀ job, act.Admits job) → ∀ {s : System H W}, i < s.jobs.length →
      remains host i pl acts s →
        Life host s pl (history host i pl acts s) (s.performs host i acts) pl := by
  induction acts with
  | nil => exact fun _ _ _ here => .here here
  | cons act acts ih =>
    intro admits s inside stays
    obtain ⟨first, others⟩ := List.forall_mem_cons.mp admits
    obtain ⟨here, later⟩ := Bool.and_eq_true_iff.mp stays
    have found : s.jobs[i]? = some s.jobs[i] := List.getElem?_eq_getElem inside
    have still : ((s.perform host i act).frameAt pl).isSome := by
      cases acts with
      | nil => exact later
      | cons => exact (Bool.and_eq_true_iff.mp later).1
    have one := (Life.here here).turn (turn_perform found (first _)) (.stays here still)
    have inside' : i < (s.perform host i act).jobs.length := by simpa [perform, found] using inside
    exact one.trans (ih others inside' later)

end System

end ScriptMachine
