import ScriptMachine.Proofs.Machine.Leaks
import ScriptMachine.Proofs.Machine.Routing

/-!
# Tearing a job down

What a job holds goes with it: the values of its frames and of its channel, and the current entries
of the generators that its frames belong to, which have ended then. Frames are let go one after the
other, and each may free what a later one leads to; what is gone in the end is what all of them led
to at the start.
-/

set_option autoImplicit false

namespace ScriptMachine

open Relation (ReflTransGen TransGen)

variable {H W : Type}

/-- What goes with a frame that is let go: its values and the entry of its generator. -/
def Frame.roots (h : Heap H) (f : Frame) : List Value := f.held ++ (f.generator.map h.entry).getD []

/-- What goes with a job. -/
def Job.roots (h : Heap H) (j : Job) : List Value := j.frames.flatMap (Frame.roots h) ++ j.channel

/-- The frame of a generator is on the stack. -/
def Job.Drives (j : Job) (x : Handle) : Prop := ∃ f ∈ j.frames, f.generator = some x

theorem Frame.tally_roots_pos {h : Heap H} {f : Frame} {y : Handle} :
    0 < tally y (f.roots h) ↔
      0 < tally y f.held ∨ ∃ x, f.generator = some x ∧ 0 < tally y (h.entry x) := by
  unfold Frame.roots
  rw [tally_append_pos]
  cases f.generator <;> simp

theorem Job.tally_roots_pos {h : Heap H} {j : Job} {y : Handle} :
    0 < tally y (j.roots h) ↔
      0 < tally y j.held ∨ ∃ x, j.Drives x ∧ 0 < tally y (h.entry x) := by
  have frames : 0 < tally y (j.frames.flatMap (Frame.roots h)) ↔
      0 < tally y (j.frames.flatMap Frame.held) ∨ ∃ x, j.Drives x ∧ 0 < tally y (h.entry x) := by
    simp only [tally_flatMap_pos, Frame.tally_roots_pos, Job.Drives]
    constructor
    · rintro ⟨f, mem, held | ⟨x, belongs, pos⟩⟩
      · exact .inl ⟨f, mem, held⟩
      · exact .inr ⟨x, ⟨f, mem, belongs⟩, pos⟩
    · rintro (⟨f, mem, held⟩ | ⟨x, ⟨f, mem, belongs⟩, pos⟩)
      · exact ⟨f, mem, .inl held⟩
      · exact ⟨f, mem, .inr ⟨x, belongs, pos⟩⟩
  rw [Job.roots, Job.held, tally_append_pos, tally_append_pos, frames, or_right_comm]

namespace Heap

variable {h : Heap H} {x y : Handle}

/-! ## Frames that are let go -/

theorem clears_abandon (h : Heap H) (f : Frame) :
    h.Clears (h.Below (f.roots h)) (fun x => f.generator = some x) (h.abandon f) := by
  have retired := clears_retire h f
  unfold Heap.abandon Frame.roots
  cases f.generator with
  | none => exact retired.congr (fun _ _ => by simp) fun _ _ => by simp
  | some x =>
    have both := retired.followed (h.includes_none _) (clears_exhaust (h.retire f 0).2 x)
    refine (both.recount (fun y pos => ?_) fun y pos => ?_).congr (fun _ _ => Iff.rfl)
      fun z _ => by simp [eq_comm]
    · refine below_of_tally (tally_append_pos.mpr ?_)
      exact (tally_append_pos.mp pos).imp_right retired.entry_back
    · rw [below_append]
      rcases tally_append_pos.mp pos with held | entry
      · exact .inl (below_of_tally held)
      · exact (retired.entry (h.includes_none _) entry).imp_right below_of_tally

theorem includes_roots (h : Heap H) (f : Frame) :
    h.Includes (f.roots h) fun x => f.generator = some x :=
  fun x belongs _ pos => below_of_tally (Frame.tally_roots_pos.mpr (.inr ⟨x, belongs, pos⟩))

theorem clears_abandonAll (fs : List Frame) : ∀ h : Heap H,
    h.Clears (h.Below (fs.flatMap (Frame.roots h))) (fun x => ∃ f ∈ fs, f.generator = some x)
      (fs.foldl Heap.abandon h) := by
  induction fs with
  | nil =>
    exact fun h => (Clears.refl h).congr (fun _ _ => iff_of_false id not_below_nil)
      fun _ _ => by simp
  | cons f fs ih =>
    intro h
    have first := clears_abandon h f
    have both := first.followed (h.includes_roots f) (ih (h.abandon f))
    refine (both.recount (fun y pos => ?_) fun y pos => ?_).congr (fun _ _ => Iff.rfl)
      fun _ _ => by simp
    · refine below_of_tally (tally_append_pos.mpr ?_)
      refine (tally_append_pos.mp pos).imp_right fun pos => ?_
      obtain ⟨g, mem, pos⟩ := tally_flatMap_pos.mp pos
      refine tally_flatMap_pos.mpr ⟨g, mem, Frame.tally_roots_pos.mpr ?_⟩
      exact (Frame.tally_roots_pos.mp pos).imp_right fun ⟨x, belongs, entry⟩ =>
        ⟨x, belongs, first.entry_back entry⟩
    · rw [below_append]
      refine (tally_append_pos.mp pos).elim (fun here => .inl (below_of_tally here)) fun pos => ?_
      obtain ⟨g, mem, pos⟩ := tally_flatMap_pos.mp pos
      have later : ∀ {z}, (0 < tally z g.held ∨
          ∃ x, g.generator = some x ∧ 0 < tally z ((h.abandon f).entry x)) →
          0 < tally z (fs.flatMap (Frame.roots (h.abandon f))) := fun either =>
        tally_flatMap_pos.mpr ⟨g, mem, Frame.tally_roots_pos.mpr either⟩
      rcases Frame.tally_roots_pos.mp pos with held | ⟨x, belongs, entry⟩
      · exact .inr (below_of_tally (later (.inl held)))
      · exact (first.entry (h.includes_roots f) entry).imp_right fun still =>
          below_of_tally (later (.inr ⟨x, belongs, still⟩))

/-- In a forest, a generator that goes with a job leads to nothing that the values of the job, or
generators that stay, do not lead to. -/
theorem Forest.below_roots (forest : h.Forest) (j : Job) :
    h.Below (j.roots h) x ↔ h.Below j.held x ∨
      ∃ y, j.Drives y ∧ ¬ h.Below (j.roots h) y ∧ h.Below (h.entry y) x := by
  have owner : ∀ {y z}, 0 < tally z (h.entry y) → (h.object? y).isSome ∧ h.Owns y z := by
    intro y z pos
    cases found : h.object? y with
    | none =>
      rw [entry_of_gone found] at pos
      cases pos
    | some o => exact ⟨rfl, owns_entry found (entry_of_object? found ▸ pos)⟩
  -- the generators above the object are followed up until one stays
  have above : ∀ y : { y // (h.object? y).isSome }, ∀ z, ReflTransGen h.Owns y.1 z →
      h.Below (j.roots h) y → h.Below j.held z ∨
        ∃ y, j.Drives y ∧ ¬ h.Below (j.roots h) y ∧ h.Below (h.entry y) z := by
    intro y
    induction y using forest.wellFounded.induction with
    | h y ih =>
      rintro z path ⟨w, pos, down⟩
      rcases Job.tally_roots_pos.mp pos with held | ⟨g, drives, entry⟩
      · exact .inl ⟨w, held, down.trans path⟩
      · obtain ⟨live, owns⟩ := owner entry
        by_cases gone : h.Below (j.roots h) g
        · exact ih ⟨g, live⟩ (.head' owns down) z (.head owns (down.trans path)) gone
        · exact .inr ⟨g, drives, gone, w, entry, down.trans path⟩
  constructor
  · rintro ⟨w, pos, path⟩
    rcases Job.tally_roots_pos.mp pos with held | ⟨g, drives, entry⟩
    · exact .inl ⟨w, held, path⟩
    · obtain ⟨live, owns⟩ := owner entry
      by_cases gone : h.Below (j.roots h) g
      · exact above ⟨g, live⟩ x (.head owns path) gone
      · exact .inr ⟨g, drives, gone, w, entry, path⟩
  · rintro (⟨w, pos, path⟩ | ⟨g, drives, -, w, pos, path⟩)
    · exact ⟨w, Job.tally_roots_pos.mpr (.inl pos), path⟩
    · exact ⟨w, Job.tally_roots_pos.mpr (.inr ⟨g, drives, pos⟩), path⟩

end Heap

namespace Session

theorem clears_torn (m : Machine H W) (j : Job) :
    m.heap.Clears (m.heap.Below (j.roots m.heap)) j.Drives (torn m j).heap := by
  rw [torn_heap]
  have frames := Heap.clears_abandonAll j.frames m.heap
  have includes : m.heap.Includes (j.frames.flatMap (Frame.roots m.heap)) j.Drives :=
    fun x ⟨f, mem, belongs⟩ _ pos => Heap.below_of_tally (tally_flatMap_pos.mpr
      ⟨f, mem, Frame.tally_roots_pos.mpr (.inr ⟨x, belongs, pos⟩)⟩)
  have both := frames.followed includes (Heap.clears_disposeAll j.channel _)
  exact both.congr (fun _ _ => Iff.rfl) fun _ _ => or_iff_left id

end Session

namespace Estate

variable {host : Host H W} {keeps : W → List Value} {m : Machine H W} {before after : List Job}
  {job : Job} {hand : List Value}

theorem reachable_torn (reachable : Reachable host keeps ⟨m, before ++ job :: after, hand⟩) :
    Reachable host keeps ⟨Session.torn m job, before ++ {} :: after, hand⟩ := by
  obtain ⟨first, heap, globals, units, bare, steps⟩ := reachable
  have ran : (Act.teardown.run host).outcome ⟨m, job⟩ = (.ok [], ⟨Session.torn m job, {}⟩) := by
    have torn := Session.teardown_eq m job
    simp [Act.run, Act.op, Effect.outcome, bind, EStateM.bind, torn, pure, EStateM.pure]
  exact ⟨first, heap, globals, units, bare, steps.tail (.act m before after job hand hand .teardown
    trivial id (.refl _) (.ok []) _ ran)⟩

/-- To tear a job down frees what its values and the current entries of its generators own, and
nothing else. A generator that stays has ended; whatever else stays is as it was. No value of
another job, of the globals or of the embedding program leads to anything that is gone. -/
theorem teardown_releases (linear : host.Linear CodeUnit.Compiled keeps)
    (reachable : Reachable host keeps ⟨m, before ++ job :: after, hand⟩) :
    ∃ heap journal,
      Session.teardown ⟨m, job⟩ = .ok () ⟨{ m with heap, journal }, {}⟩ ∧
      Reachable host keeps ⟨{ m with heap, journal }, before ++ {} :: after, hand⟩ ∧
      m.heap.Clears (m.heap.Below (job.roots m.heap)) job.Drives heap ∧
      (∀ x, job.Drives x → (m.heap.object? x).isSome → ¬ m.heap.Below (job.roots m.heap) x →
        ∃ it, m.heap.object? x = some (.iterator it) ∧ it.state = .running ∧
          heap.object? x =
            some (.iterator { it with state := .exhausted, key := .null, current := [] })) ∧
      (∀ x, 0 < tally x (outside keeps ⟨m, before ++ after, hand⟩) →
        ¬ m.heap.Below (job.roots m.heap) x) ∧
      (m.heap.Forest → ∀ x, m.heap.Below (job.roots m.heap) x ↔ m.heap.Below job.held x ∨
        ∃ y, job.Drives y ∧ ¬ m.heap.Below (job.roots m.heap) y ∧
          m.heap.Below (m.heap.entry y) x) := by
  have clears := Session.clears_torn m job
  have sound := reachable.sound linear
  have torn := reachable_torn reachable
  have machine : Session.torn m job =
      { m with heap := (Session.torn m job).heap, journal := (Session.torn m job).journal } := by
    unfold Session.torn
    cases job.frames.isEmpty <;> rfl
  refine ⟨(Session.torn m job).heap, (Session.torn m job).journal, ?_, ?_, clears, ?_, ?_,
    fun forest x => forest.below_roots job⟩
  · rw [← machine]
    exact Session.teardown_eq m job
  · rw [← machine]
    exact torn
  · rintro x ⟨f, mem, belongs⟩ live kept
    have stacked : f ∈ frames ⟨m, before ++ job :: after, hand⟩ := by
      rw [(frames_focus m before after job hand).mem_iff]
      exact List.mem_append_left _ mem
    obtain ⟨o, found⟩ := Option.isSome_iff_exists.mp live
    obtain ⟨it, rfl, generates⟩ := (sound.protocol.frames f stacked x belongs).generator o found
    have runs : 0 < runners x (frames ⟨m, before ++ job :: after, hand⟩) :=
      List.countP_pos_iff.mpr ⟨f, stacked, by simp [belongs]⟩
    have running : it.state = .running := by
      have place := sound.protocol.keeps x it found generates
      unfold Iterator.Keeps at place
      split at place <;> first | assumption | omega
    refine ⟨it, found, running, ?_⟩
    rw [clears.ended found kept ⟨f, mem, belongs⟩]
    obtain ⟨state, source, key, current, yields⟩ := it
    cases source with
    | walk => cases generates
    | generator => rfl
  · -- an owner that stays has its object before and after, as both systems are sound
    intro x pos below
    have live : (m.heap.object? x).isSome := by
      refine sound.owned.heap.live (x := x) ?_
      have focused := held_focus before after job x
      simp only [outside, tally_append] at pos focused ⊢
      omega
    have still : ((Session.torn m job).heap.object? x).isSome := by
      refine (torn.sound linear).owned.heap.live (x := x) ?_
      have focused := held_focus before after {} x
      rw [machine]
      simp only [outside, tally_append] at pos focused ⊢
      omega
    rw [clears.gone live below] at still
    cases still

/-! A job that is torn down while the generator runs that it pulled an entry from. The generator
belongs to a global. -/

def source : Function :=
  { name := "source", generator := true
    code := [{ op := .newStruct }, { op := .yield, int := 1 }, { op := .ret }] }

def pull : Function :=
  { name := "pull"
    code :=
      [{ op := .callDirect, str := "source" }, { op := .storeGlobal, str := "it" },
       { op := .loadGlobal, str := "it" }, { op := .iterNext },
       { op := .loadGlobal, str := "it" }, { op := .iterNext }] }

def sourceUnit : CodeUnit := source.assemble (List.replicate 3 none) false

def pullUnit : CodeUnit := pull.assemble [none, none, none, some 5, none, some 6] false

theorem compiled_sourceUnit : sourceUnit.Compiled :=
  ⟨false, Function.compile_eq_ok_iff.mpr ⟨rfl, List.replicate 3 none, rfl, rfl⟩⟩

theorem compiled_pullUnit : pullUnit.Compiled :=
  ⟨false, Function.compile_eq_ok_iff.mpr ⟨rfl, [none, none, none, some 5, none, some 6], rfl, rfl⟩⟩

def pulling : Machine Unit Unit := { units := ⟨[("source", sourceUnit)]⟩, world := () }

theorem codes_pulling : UnitTable.Codes CodeUnit.Compiled pulling.units :=
  UnitTable.codes_single compiled_sourceUnit "source"

def pulled : Nat → Session Unit Unit
  | 0 => (((Act.callUnit pullUnit []).run Session.idle).outcome ⟨pulling, {}⟩).2
  | n + 1 => (((Act.tick .blocking none).run Session.idle).outcome (pulled n)).2

theorem reachable_pulled : ∀ n, n ≤ 8 →
    Reachable Session.idle (fun _ => []) ⟨(pulled n).machine, [(pulled n).job], []⟩
  | 0, _ => by
    refine ⟨pulling, rfl, rfl, codes_pulling, fun _ => rfl, .tail (.single (.spawn _ _ _)) ?_⟩
    exact .act _ [] [] {} [] [] (.callUnit pullUnit []) compiled_pullUnit id (.refl _) (.ok [])
      (pulled 0) rfl
  | n + 1, more => by
    obtain ⟨m, heap, globals, units, bare, steps⟩ := reachable_pulled n (by omega)
    have ran : ((Act.tick .blocking none).run Session.idle).outcome (pulled n) =
        (.ok [], pulled (n + 1)) := by
      match n, more with
      | 0, _ | 1, _ | 2, _ | 3, _ | 4, _ | 5, _ | 6, _ | 7, _ => rfl
    have enough : ¬ (Act.tick .blocking none).Underflows (pulled n) := by
      rintro ⟨-, -, underflows⟩
      revert underflows
      match n, more with
      | 0, _ | 1, _ | 2, _ | 3, _ | 4, _ | 5, _ | 6, _ | 7, _ =>
        exact Session.not_underflows rfl rfl rfl rfl
    exact ⟨m, heap, globals, units, bare, steps.tail (.act _ [] [] _ [] [] (.tick .blocking none)
      trivial enough (.refl _) (.ok []) (pulled (n + 1)) ran)⟩

theorem teardown_releases_pulled : ∃ heap journal,
    Session.teardown (pulled 8) = .ok () ⟨{ (pulled 8).machine with heap, journal }, {}⟩ ∧
      (pulled 8).machine.heap.live = 2 ∧ heap.object? ⟨1, 0⟩ = none ∧
      heap.object? ⟨0, 0⟩ = some (.iterator
        { state := .exhausted, source := .generator none, key := .null, current := []
          yields := 1 }) := by
  obtain ⟨heap, journal, torn, -, clears, ended, spared, -⟩ :=
    @teardown_releases _ _ _ _ _ [] [] _ _ linear_idle (reachable_pulled 8 (Nat.le_refl 8))
  have drives : (pulled 8).job.Drives ⟨0, 0⟩ := ⟨_, List.mem_cons_self, rfl⟩
  have stays := spared ⟨0, 0⟩ (by decide)
  obtain ⟨it, found, -, after⟩ := ended ⟨0, 0⟩ drives rfl stays
  cases found
  refine ⟨heap, journal, torn, by decide +kernel, clears.gone (by decide +kernel) ?_, after⟩
  exact Heap.below_of_tally (Job.tally_roots_pos.mpr (.inr ⟨_, drives, by decide⟩))

end Estate

end ScriptMachine
