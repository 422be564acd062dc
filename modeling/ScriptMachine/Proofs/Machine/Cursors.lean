import ScriptMachine.Proofs.Machine.Slices
import ScriptMachine.Proofs.Machine.Turns

/-!
# Control never lands inside a folded run

The steps of a compiled unit cover its code without a gap, and whatever control can jump to starts a
step. So wherever the frames of a system are, on a stack or parked, each is before a step or behind
the end of its code.
-/

set_option autoImplicit false

namespace ScriptMachine

namespace Function

/-- The positions of the code that some steps cover, in order. -/
def covered (steps : List Step) : List Nat :=
  steps.flatMap fun step => List.range' step.start step.length

theorem covered_cut {patterns : List (Pattern Fusion.Fold)} {code : List Instruction}
    {resolved : List Resolved} {landings : List Nat} {fuel : Nat} :
    ∀ {position : Nat}, position ≤ code.length → code.length ≤ position + fuel →
      covered (cut patterns code resolved landings position fuel) =
        List.range' position (code.length - position) := by
  induction fuel with
  | zero =>
    intro position before enough
    rw [show code.length - position = 0 by omega]
    rfl
  | succ fuel ih =>
    intro position before enough
    by_cases inside : position < code.length
    · -- the first step covers what is before its end, and the others all that is behind it
      rw [cut_of_lt inside]
      obtain ⟨positive, bound, -⟩ := stepFrom_bounds patterns resolved landings inside
      have start : (stepFrom patterns code resolved landings position).start = position :=
        stepFrom_start
      generalize stepFrom patterns code resolved landings position = step at *
      have rest := ih bound (by omega)
      rw [covered, List.flatMap_cons, start]
      rw [covered] at rest
      rw [rest, List.range'_append_1]
      congr 1
      omega
    · rw [cut, if_neg inside, show code.length - position = 0 by omega]
      rfl

end Function

namespace CodeUnit.Laid

variable {u : CodeUnit} {targets : List (Option Nat)} {fusion : Bool} {p : Nat}

theorem covered_steps (laid : u.Laid targets fusion) :
    Function.covered u.steps = List.range u.code.length := by
  rw [laid.steps, Function.covered_cut (Nat.zero_le _) (Nat.le_add_left _ _), List.range_eq_range',
    Nat.sub_zero]

theorem step_of_boundary (laid : u.Laid targets fusion) (boundary : u.Boundary p) :
    u.code.length ≤ p ∨ ∃ step ∈ u.steps, step.start = p := by
  rcases boundary with starts | beyond
  · obtain ⟨step, found⟩ := Option.isSome_iff_exists.mp starts
    exact .inr ⟨step, laid.mem_of_stepAt? found⟩
  · exact .inl beyond

theorem step_of_landing (laid : u.Laid targets fusion) (boundary : u.Boundary p)
    (inside : p < u.code.length) : ∃ step ∈ u.steps, step.start = p :=
  (laid.step_of_boundary boundary).resolve_left (by omega)

theorem step_of_deferEntry (laid : u.Laid targets fusion) (entry : u.deferEntry = some p) :
    ∃ step ∈ u.steps, step.start = p := by
  obtain ⟨step, found⟩ := Option.isSome_iff_exists.mp (laid.stepAt?_deferEntry entry)
  exact ⟨step, laid.mem_of_stepAt? found⟩

end CodeUnit.Laid

namespace Session

variable {H W : Type} {host : Host H W} {f : Frame} {u : CodeUnit}

/-- Executes a step of the running frame. -/
def carryOut (host : Host H W) (frame : Frame) (step : Step) : SessionM H W Unit := do
  let units := (← get).machine.units
  let flow ← (Exec.action units step.action).onPart (context frame) withContext
  apply host flow (step.start + step.length)

theorem executeStep_of_step {step : Step} (unit : f.unit = some u)
    (found : u.stepAt? f.cursor = some step) : executeStep host f = carryOut host f step := by
  simp only [executeStep, unit, found]
  rfl

theorem executeStep_of_end (unit : f.unit = some u) (none : u.stepAt? f.cursor = none)
    (beyond : u.code.length ≤ f.cursor) : executeStep host f = apply host .ret f.cursor := by
  simp only [executeStep, unit, none, beyond, if_true]

end Session

namespace System

variable {H W : Type} {host : Host H W}

/-- A frame that can run is before a step of its unit, or behind the end of the code. -/
theorem stands_of_sound {f : Frame} (sound : f.Sound) :
    ∃ u, f.unit = some u ∧ u.Compiled ∧
      (u.code.length ≤ f.cursor ∨ ∃ step ∈ u.steps, step.start = f.cursor) := by
  obtain ⟨u, runs⟩ := sound
  obtain ⟨targets, fusion, laid⟩ := runs.laid
  exact ⟨u, runs.unit, runs.compiled, laid.step_of_boundary runs.cursor⟩

/-- Control never lands inside a folded run. The steps of every unit cover its code in order, and
what can be jumped to starts one; every frame of a system stands before a step or behind the end of
its code, so a running frame always finds a step to execute or returns. -/
theorem never_inside_step (plain : host.Plain CodeUnit.Compiled) :
    (∀ (f : Function) (fusion : Bool) (u : CodeUnit), f.compile fusion = .ok u →
      Function.covered u.steps = List.range f.code.length ∧
      (∀ step ∈ u.steps, 0 < step.length) ∧
      u.resolved.map Resolved.ins = f.code ∧
      (∀ r ∈ u.resolved, r.ins.scan?.isSome → r.jump < f.code.length →
        ∃ step ∈ u.steps, step.start = r.jump) ∧
      (∀ p, u.deferEntry = some p → ∃ step ∈ u.steps, step.start = p)) ∧
    ∀ s : System H W, Underway host s →
      (∀ f : Frame, (f ∈ s.frames ∨
          ∃ x it, s.machine.heap.iteratorAt x = .ok it ∧ it.parked = some f) →
        ∃ u, f.unit = some u ∧ u.Compiled ∧
          (u.code.length ≤ f.cursor ∨ ∃ step ∈ u.steps, step.start = f.cursor)) ∧
      (∀ f ∈ s.frames, ∃ u, f.unit = some u ∧
        ((∃ step, u.stepAt? f.cursor = some step ∧
            Session.executeStep host f = Session.carryOut host f step) ∨
          u.code.length ≤ f.cursor ∧
            Session.executeStep host f = Session.apply host .ret f.cursor)) := by
  refine ⟨fun f fusion u compiled => ?_, fun s underway => ?_⟩
  · cases Function.function_of_compile compiled
    obtain ⟨targets, laid⟩ := CodeUnit.laid_of_compile compiled
    refine ⟨laid.covered_steps, fun step mem => ?_, laid.map_resolved,
      fun r mem scans => laid.step_of_landing (laid.boundary_jump mem scans),
      fun p entry => laid.step_of_deferEntry entry⟩
    obtain ⟨length, positive⟩ := laid.length_span mem
    exact positive
  · have running := underway.running plain
    have onStack : ∀ f ∈ s.frames, f.Sound := by
      intro f mem
      obtain ⟨job, listed, mem⟩ := List.mem_flatMap.mp mem
      exact running.frames job listed f mem
    refine ⟨fun f placed => ?_, fun f mem => ?_⟩
    · rcases placed with stacked | ⟨x, it, found, parked⟩
      · exact stands_of_sound (onStack f stacked)
      · exact stands_of_sound (running.heap.parked found parked)
    · obtain ⟨u, runs⟩ := onStack f mem
      obtain ⟨targets, fusion, laid⟩ := runs.laid
      refine ⟨u, runs.unit, ?_⟩
      rcases runs.cursor with starts | beyond
      · obtain ⟨step, found⟩ := Option.isSome_iff_exists.mp starts
        exact .inl ⟨step, found, Session.executeStep_of_step runs.unit found⟩
      · exact .inr ⟨beyond,
          Session.executeStep_of_end runs.unit (laid.stepAt?_eq_none beyond) beyond⟩

/-! A function that counts up in a loop of one folded run. -/

def counting : Function :=
  { name := "counting", locals := 1
    code := [{ op := .pushInt, int := 5 }, { op := .storeLocal }, { op := .loadLocal, depth := 1 },
      { op := .pushInt, int := 1, depth := 1 }, { op := .add, depth := 1 },
      { op := .storeLocal, depth := 1 }, { op := .jumpBack, depth := 1 }] }

def countingUnit : CodeUnit :=
  counting.assemble [none, none, none, none, none, none, some 2] true

theorem compile_counting : counting.compile true = .ok countingUnit :=
  Function.compile_eq_ok_iff.mpr ⟨rfl, [none, none, none, none, none, none, some 2], rfl, rfl⟩

def counted : System Unit Unit :=
  System.performs Session.idle 0
    (.callUnit countingUnit [] :: List.replicate 4 (.tick .blocking none))
    ⟨{ world := () }, [{}]⟩

theorem underway_counted : Underway Session.idle counted := by
  have units : UnitTable.Sound {} := fun _ _ found => by cases found
  refine .performs (fun act mem job => ?_) (.turn (.start { world := () } rfl units) (.spawn _))
    Nat.one_pos
  rcases List.mem_cons.mp mem with rfl | mem
  · exact ⟨true, compile_counting⟩
  · rw [List.eq_of_mem_replicate mem]
    trivial

theorem never_inside_step_counted :
    Function.covered countingUnit.steps = List.range 7 ∧
      ∃ f ∈ counted.frames, ∃ u, f.unit = some u ∧
        (u.code.length ≤ f.cursor ∨ ∃ step ∈ u.steps, step.start = f.cursor) := by
  obtain ⟨units, runs⟩ := never_inside_step (Session.plain_idle CodeUnit.Compiled)
  have stacked : counted.frames ≠ [] := List.ne_nil_of_length_pos (by decide +kernel)
  have mem := List.head_mem stacked
  obtain ⟨u, unit, -, stands⟩ := (runs counted underway_counted).1 _ (.inl mem)
  exact ⟨(units counting true countingUnit compile_counting).1, _, mem, u, unit, stands⟩

example : counted.frames.map Frame.cursor = [2] := by decide +kernel

end System

end ScriptMachine
