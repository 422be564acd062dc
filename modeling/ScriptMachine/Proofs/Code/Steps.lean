import ScriptMachine.Code.Unit
import ScriptMachine.Proofs.Code.Selection
import ScriptMachine.Proofs.Effect

/-!
# How code is cut into steps

Whatever the patterns are, the steps of a unit cover its code without gaps, and every position that
control can jump to starts a step or lies behind the code. `CodeUnit.Boundary` is that property of a
position. `CodeUnit.recompiled` is a unit whose code was cut again, with or without fusion.
-/

set_option autoImplicit false

namespace ScriptMachine

namespace Function

section Cut
variable {patterns : List (Pattern Fusion.Fold)} {code : List Instruction}
  {resolved : List Resolved} {landings : List Nat} {position fuel : Nat} {step : Step}

theorem stepFrom_start : (stepFrom patterns code resolved landings position).start = position := by
  unfold stepFrom
  split <;> rfl

theorem stepFrom_cases (patterns : List (Pattern Fusion.Fold)) (code : List Instruction)
    (resolved : List Resolved) (landings : List Nat) (position : Nat) :
    let step := stepFrom patterns code resolved landings position
    (step.length = 1 ∧ step.action = .single (resolved.getD position default)) ∨
      ∃ p ∈ patterns, p.Matches code position landings step.length ∧
        step.action = p.build ((resolved.drop position).take step.length) := by
  unfold stepFrom
  cases selected : Pattern.select patterns code position landings with
  | none => exact .inl ⟨rfl, rfl⟩
  | some best =>
    obtain ⟨p, length⟩ := best
    obtain ⟨known, found⟩ := Pattern.matches_of_select selected
    exact .inr ⟨p, known, found, rfl⟩

/-- A step covers instructions of the code, at least one of them, and none but the first can be
jumped to. -/
theorem stepFrom_bounds (patterns : List (Pattern Fusion.Fold)) (resolved : List Resolved)
    (landings : List Nat) (inside : position < code.length) :
    0 < (stepFrom patterns code resolved landings position).length ∧
      position + (stepFrom patterns code resolved landings position).length ≤ code.length ∧
      ∀ q ∈ landings, position < q →
        position + (stepFrom patterns code resolved landings position).length ≤ q := by
  rcases stepFrom_cases patterns code resolved landings position with
    ⟨alone, -⟩ | ⟨p, -, found, -⟩
  · rw [alone]
    exact ⟨Nat.one_pos, inside, fun q _ after => after⟩
  · have two := found.two_le
    exact ⟨by omega, found.inside, found.unentered⟩

theorem mem_cut (mem : step ∈ cut patterns code resolved landings position fuel) :
    position ≤ step.start ∧ step.start < code.length ∧
      step = stepFrom patterns code resolved landings step.start := by
  induction fuel generalizing position with
  | zero => simp [cut] at mem
  | succ fuel ih =>
    rw [cut] at mem
    split at mem
    · rename_i inside
      rcases List.mem_cons.mp mem with rfl | mem
      · simp only [stepFrom_start]
        exact ⟨Nat.le_refl _, inside, trivial⟩
      · obtain ⟨after, bound, eq⟩ := ih mem
        exact ⟨by omega, bound, eq⟩
    · simp at mem

theorem cut_of_lt (inside : position < code.length) :
    cut patterns code resolved landings position (fuel + 1) =
      stepFrom patterns code resolved landings position ::
        cut patterns code resolved landings
          (position + (stepFrom patterns code resolved landings position).length) fuel := by
  rw [cut, if_pos inside]

theorem cut_first (enough : code.length ≤ position + fuel) (inside : position < code.length) :
    ∃ step ∈ cut patterns code resolved landings position fuel, step.start = position := by
  cases fuel with
  | zero => omega
  | succ fuel =>
    rw [cut_of_lt inside]
    exact ⟨_, List.mem_cons_self, stepFrom_start⟩

/-- With enough fuel, a position that no step runs across starts a step. -/
theorem cut_starts {q : Nat} (enough : code.length ≤ position + fuel) (after : position ≤ q)
    (inside : q < code.length)
    (uncrossed : ∀ p, p < q → p + (stepFrom patterns code resolved landings p).length ≤ q) :
    ∃ step ∈ cut patterns code resolved landings position fuel, step.start = q := by
  induction fuel generalizing position with
  | zero => omega
  | succ fuel ih =>
    have here : position < code.length := by omega
    rw [cut_of_lt here]
    by_cases start : position = q
    · exact ⟨_, List.mem_cons_self, stepFrom_start.trans start⟩
    · have positive := (stepFrom_bounds patterns resolved landings here).1
      obtain ⟨step, mem, eq⟩ := ih (by omega) (uncrossed position (by omega))
      exact ⟨step, List.mem_cons_of_mem _ mem, eq⟩

/-- Behind a step another one starts, unless the code ends there. -/
theorem cut_next (enough : code.length ≤ position + fuel)
    (mem : step ∈ cut patterns code resolved landings position fuel)
    (inside : step.start + step.length < code.length) :
    ∃ other ∈ cut patterns code resolved landings position fuel,
      other.start = step.start + step.length := by
  induction fuel generalizing position with
  | zero => simp [cut] at mem
  | succ fuel ih =>
    by_cases here : position < code.length
    · rw [cut_of_lt here] at mem ⊢
      have positive := (stepFrom_bounds patterns resolved landings here).1
      rcases List.mem_cons.mp mem with rfl | mem
      · rw [stepFrom_start] at inside ⊢
        have left : code.length ≤
            position + (stepFrom patterns code resolved landings position).length + fuel := by
          omega
        obtain ⟨other, mem, eq⟩ := cut_first left inside
        exact ⟨other, List.mem_cons_of_mem _ mem, eq⟩
      · obtain ⟨other, mem, eq⟩ := ih (by omega) mem
        exact ⟨other, List.mem_cons_of_mem _ mem, eq⟩
    · rw [cut, if_neg here] at mem
      simp at mem

end Cut

/-! ## The table of steps -/

theorem mem_of_stepTable {steps : List Step} {size p : Nat} {step : Step}
    (found : ((stepTable size steps)[p]?).join = some step) : step ∈ steps ∧ step.start = p := by
  have folded : ∀ (rest : List Step) (entry : Array (Option Step)),
      ((rest.foldl (fun entry step => entry.setIfInBounds step.start (some step)) entry)[p]?).join
        = some step →
      (step ∈ rest ∧ step.start = p) ∨ (entry[p]?).join = some step := by
    intro rest
    induction rest with
    | nil => exact fun _ found => Or.inr found
    | cons first rest ih =>
      intro entry found
      rcases ih _ found with ⟨mem, start⟩ | found
      · exact Or.inl ⟨List.mem_cons_of_mem _ mem, start⟩
      · rw [Array.getElem?_setIfInBounds] at found
        split at found
        · rename_i start
          split at found
          · cases found
            exact Or.inl ⟨List.mem_cons_self, start⟩
          · simp at found
        · exact Or.inr found
  rcases folded steps _ found with listed | initial
  · exact listed
  · rw [Array.getElem?_replicate] at initial
    split at initial <;> simp at initial

theorem stepTable_isSome {steps : List Step} {size : Nat} {step : Step} (mem : step ∈ steps)
    (inside : step.start < size) : (((stepTable size steps)[step.start]?).join).isSome := by
  have folded : ∀ (rest : List Step) (entry : Array (Option Step)), entry.size = size →
      (step ∈ rest ∨ ((entry[step.start]?).join).isSome) →
      (((rest.foldl (fun entry step => entry.setIfInBounds step.start (some step))
        entry)[step.start]?).join).isSome := by
    intro rest
    induction rest with
    | nil =>
      intro entry _ known
      exact known.resolve_left (List.not_mem_nil)
    | cons first rest ih =>
      intro entry sized known
      refine ih _ (by rw [Array.size_setIfInBounds, sized]) ?_
      by_cases start : first.start = step.start
      · right
        rw [Array.getElem?_setIfInBounds, if_pos start, if_pos (by omega)]
        rfl
      · rw [Array.getElem?_setIfInBounds, if_neg start]
        rcases known with mem | known
        · rcases List.mem_cons.mp mem with rfl | mem
          · exact absurd rfl start
          · exact Or.inl mem
        · exact Or.inr known
  exact folded steps _ Array.size_replicate (Or.inl mem)

/-! ## Compiled units -/

theorem compile_eq_ok_iff {f : Function} {fusion : Bool} {u : CodeUnit} :
    f.compile fusion = .ok u ↔
      f.verify = .ok () ∧ ∃ targets, Target.resolveAll f.name f.code = .ok targets ∧
        u = f.assemble targets fusion := by
  unfold compile
  cases f.verify with
  | error e => simp [bind, Except.bind]
  | ok checked =>
    cases Target.resolveAll f.name f.code with
    | error e => simp [bind, Except.bind]
    | ok targets => simp [bind, Except.bind, pure, Except.pure, eq_comm]

end Function

namespace CodeUnit

def function (u : CodeUnit) : Function :=
  ⟨u.name, u.params, u.locals, u.variadic, u.generator, u.code⟩

/-- A unit that came out of a compilation. -/
def Compiled (u : CodeUnit) : Prop := ∃ fusion, u.function.compile fusion = .ok u

def recompiled (fusion : Bool) (u : CodeUnit) : CodeUnit :=
  match u.function.compile fusion with
  | .ok v => { u with steps := v.steps, entry := v.entry }
  | .error _ => u

end CodeUnit

namespace Function

theorem function_of_compile {f : Function} {fusion : Bool} {u : CodeUnit}
    (compiled : f.compile fusion = .ok u) : u.function = f := by
  obtain ⟨_, targets, _, rfl⟩ := compile_eq_ok_iff.mp compiled
  rfl

theorem compile_recompiled {f : Function} {fusion : Bool} {u : CodeUnit}
    (compiled : f.compile fusion = .ok u) (other : Bool) :
    f.compile other = .ok (u.recompiled other) := by
  obtain ⟨verified, targets, resolved, rfl⟩ := compile_eq_ok_iff.mp compiled
  have again : f.compile other = .ok (f.assemble targets other) :=
    compile_eq_ok_iff.mpr ⟨verified, targets, resolved, rfl⟩
  rw [CodeUnit.recompiled, function_of_compile compiled, again]
  rfl

end Function

namespace CodeUnit

section Recompiled
variable (fusion : Bool) (u : CodeUnit)

theorem recompiled_eq : ∃ steps entry, u.recompiled fusion = { u with steps, entry } := by
  unfold recompiled
  split
  · exact ⟨_, _, rfl⟩
  · exact ⟨u.steps, u.entry, rfl⟩

@[simp] theorem recompiled_name : (u.recompiled fusion).name = u.name := by
  obtain ⟨_, _, eq⟩ := recompiled_eq fusion u
  rw [eq]

@[simp] theorem recompiled_params : (u.recompiled fusion).params = u.params := by
  obtain ⟨_, _, eq⟩ := recompiled_eq fusion u
  rw [eq]

@[simp] theorem recompiled_variadic : (u.recompiled fusion).variadic = u.variadic := by
  obtain ⟨_, _, eq⟩ := recompiled_eq fusion u
  rw [eq]

@[simp] theorem recompiled_generator : (u.recompiled fusion).generator = u.generator := by
  obtain ⟨_, _, eq⟩ := recompiled_eq fusion u
  rw [eq]

@[simp] theorem recompiled_code : (u.recompiled fusion).code = u.code := by
  obtain ⟨_, _, eq⟩ := recompiled_eq fusion u
  rw [eq]

@[simp] theorem recompiled_deferEntry : (u.recompiled fusion).deferEntry = u.deferEntry := by
  obtain ⟨_, _, eq⟩ := recompiled_eq fusion u
  rw [eq]

@[simp] theorem recompiled_deferSlots : (u.recompiled fusion).deferSlots = u.deferSlots := by
  obtain ⟨_, _, eq⟩ := recompiled_eq fusion u
  rw [eq]

@[simp] theorem recompiled_slots : (u.recompiled fusion).slots = u.slots := by
  obtain ⟨_, _, eq⟩ := recompiled_eq fusion u
  rw [eq]
  rfl

@[simp] theorem recompiled_function : (u.recompiled fusion).function = u.function := by
  obtain ⟨_, _, eq⟩ := recompiled_eq fusion u
  rw [eq]
  rfl

@[simp] theorem recompiled_misfit? : (u.recompiled fusion).misfit? = u.misfit? := by
  obtain ⟨_, _, eq⟩ := recompiled_eq fusion u
  rw [eq]
  rfl

@[simp] theorem recompiled_frameCapacity :
    (u.recompiled fusion).frameCapacity = u.frameCapacity := by
  obtain ⟨_, _, eq⟩ := recompiled_eq fusion u
  rw [eq]
  rfl

end Recompiled

/-! ## Instructions and their targets -/

/-- The instructions of a unit with their jump targets. -/
def resolved (u : CodeUnit) : List Resolved :=
  match Target.resolveAll u.name u.code with
  | .ok targets => Function.resolved u.code targets
  | .error _ => []

def Boundary (u : CodeUnit) (position : Nat) : Prop :=
  (u.stepAt? position).isSome ∨ u.code.length ≤ position

@[simp] theorem recompiled_resolved (fusion : Bool) (u : CodeUnit) :
    (u.recompiled fusion).resolved = u.resolved := by
  simp [resolved]

theorem targets_spec {name : String} {code : List Instruction} :
    ∀ {rest : List Instruction} {n : Nat} {targets : List (Option Nat)},
      ((rest.zipIdx n).mapM fun (ins, position) => Target.resolve name code position ins)
        = .ok targets →
      targets.length = rest.length ∧
        ∀ i ins, rest[i]? = some ins → ∃ target, targets[i]? = some target ∧
          Target.resolve name code (n + i) ins = .ok target := by
  intro rest
  induction rest with
  | nil =>
    intro n targets found
    cases found
    exact ⟨rfl, fun i ins at_ => by simp at at_⟩
  | cons first rest ih =>
    intro n targets found
    rw [List.zipIdx_cons, List.mapM_cons] at found
    obtain ⟨target, head, found⟩ := ok_of_bind found
    obtain ⟨others, tail, found⟩ := ok_of_bind found
    cases found
    obtain ⟨length, each⟩ := ih tail
    refine ⟨by simp [length], fun i ins at_ => ?_⟩
    cases i with
    | zero =>
      simp only [List.getElem?_cons_zero, Option.some.injEq] at at_
      subst at_
      exact ⟨target, rfl, head⟩
    | succ i =>
      obtain ⟨target, found, eq⟩ := each i ins (by simpa using at_)
      exact ⟨target, by simpa using found, by rw [← eq]; congr 1; omega⟩

theorem resolve_isSome {name : String} {code : List Instruction} {position : Nat}
    {ins : Instruction} {target : Option Nat} (scans : ins.scan?.isSome)
    (found : Target.resolve name code position ins = .ok target) : target.isSome := by
  unfold Target.resolve at found
  cases scan : ins.scan? with
  | none => simp [scan] at scans
  | some direction =>
    obtain ⟨direction, depth⟩ := direction
    cases direction with
    | forward =>
      simp only [scan, Except.ok.injEq] at found
      simp [← found]
    | backward =>
      simp only [scan] at found
      cases back : Target.backward? code position depth with
      | none => simp [back] at found
      | some t =>
        simp only [back, Except.ok.injEq] at found
        simp [← found]

structure Laid (u : CodeUnit) (targets : List (Option Nat)) (fusion : Bool) : Prop where
  verified : u.function.verify = .ok ()
  resolves : Target.resolveAll u.name u.code = .ok targets
  resolved : u.resolved = Function.resolved u.code targets
  steps : u.steps = Function.cut (Fusion.patterns fusion) u.code u.resolved
    (Function.landings u.code targets) 0 u.code.length
  entry : u.entry = Function.stepTable u.code.length u.steps
  deferEntry : u.deferEntry = Function.firstDeferred? u.code

theorem laid_of_compile {u : CodeUnit} {fusion : Bool}
    (compiled : u.function.compile fusion = .ok u) : ∃ targets, u.Laid targets fusion := by
  obtain ⟨verified, targets, found, eq⟩ := Function.compile_eq_ok_iff.mp compiled
  have resolved : u.resolved = Function.resolved u.code targets := by
    rw [CodeUnit.resolved, show Target.resolveAll u.name u.code = .ok targets from found]
  refine ⟨targets, verified, found, resolved, ?_, ?_, ?_⟩
  · rw [resolved]
    exact congrArg CodeUnit.steps eq
  · rw [congrArg CodeUnit.steps eq]
    exact congrArg CodeUnit.entry eq
  · exact congrArg CodeUnit.deferEntry eq

namespace Laid

variable {u : CodeUnit} {targets : List (Option Nat)} {fusion : Bool} {p : Nat} {step : Step}

theorem mem_of_stepAt? (laid : u.Laid targets fusion) (found : u.stepAt? p = some step) :
    step ∈ u.steps ∧ step.start = p := by
  rw [stepAt?, laid.entry] at found
  exact Function.mem_of_stepTable found

theorem stepAt?_eq_none (laid : u.Laid targets fusion) (beyond : u.code.length ≤ p) :
    u.stepAt? p = none := by
  cases found : u.stepAt? p with
  | none => rfl
  | some step =>
    obtain ⟨mem, start⟩ := laid.mem_of_stepAt? found
    rw [laid.steps] at mem
    have inside := (Function.mem_cut mem).2.1
    omega

theorem step_eq (laid : u.Laid targets fusion) (mem : step ∈ u.steps) :
    step.start < u.code.length ∧
      step = Function.stepFrom (Fusion.patterns fusion) u.code u.resolved
        (Function.landings u.code targets) step.start := by
  rw [laid.steps] at mem
  exact (Function.mem_cut mem).2

theorem boundary_of_start (laid : u.Laid targets fusion) (mem : step ∈ u.steps) :
    u.Boundary step.start := by
  left
  rw [stepAt?, laid.entry]
  exact Function.stepTable_isSome mem (laid.step_eq mem).1

theorem boundary_of_cut (laid : u.Laid targets fusion)
    (starts : p < u.code.length → ∃ step ∈ Function.cut (Fusion.patterns fusion) u.code u.resolved
      (Function.landings u.code targets) 0 u.code.length, step.start = p) : u.Boundary p := by
  rcases Nat.lt_or_ge p u.code.length with inside | beyond
  · obtain ⟨step, mem, start⟩ := starts inside
    rw [← laid.steps] at mem
    exact start ▸ laid.boundary_of_start mem
  · exact Or.inr beyond

theorem boundary_zero (laid : u.Laid targets fusion) : u.Boundary 0 :=
  laid.boundary_of_cut fun inside => Function.cut_first (Nat.le_add_left _ 0) inside

theorem boundary_next (laid : u.Laid targets fusion) (mem : step ∈ u.steps) :
    u.Boundary (step.start + step.length) := by
  rw [laid.steps] at mem
  exact laid.boundary_of_cut fun inside => Function.cut_next (Nat.le_add_left _ 0) mem inside

theorem boundary_of_landing (laid : u.Laid targets fusion)
    (landing : p ∈ Function.landings u.code targets) : u.Boundary p :=
  laid.boundary_of_cut fun inside =>
    Function.cut_starts (Nat.le_add_left _ 0) (Nat.zero_le p) inside fun _ before =>
      (Function.stepFrom_bounds _ _ _ (Nat.lt_trans before inside)).2.2 p landing before

theorem boundary_deferEntry (laid : u.Laid targets fusion) (entry : u.deferEntry = some p) :
    u.Boundary p := by
  apply laid.boundary_of_landing
  rw [laid.deferEntry] at entry
  simp [Function.landings, entry]

/-- Deferred blocks start inside the code. -/
theorem stepAt?_deferEntry (laid : u.Laid targets fusion) (entry : u.deferEntry = some p) :
    (u.stepAt? p).isSome := by
  rcases laid.boundary_deferEntry entry with step | beyond
  · exact step
  · rw [laid.deferEntry] at entry
    obtain ⟨inside, _⟩ := List.findIdx?_eq_some_iff_findIdx_eq.mp entry
    omega

theorem length_pos (laid : u.Laid targets fusion) (found : u.stepAt? p = some step) :
    0 < step.length := by
  obtain ⟨inside, eq⟩ := laid.step_eq (laid.mem_of_stepAt? found).1
  rw [eq]
  exact (Function.stepFrom_bounds _ _ _ inside).1

theorem length_eq_one (laid : u.Laid targets false) (found : u.stepAt? p = some step) :
    step.length = 1 := by
  rw [(laid.step_eq (laid.mem_of_stepAt? found).1).2]
  rfl

theorem length_resolved (laid : u.Laid targets fusion) : u.resolved.length = u.code.length := by
  rw [laid.resolved, Function.resolved, List.length_zipWith, (targets_spec laid.resolves).1,
    Nat.min_self]

theorem map_resolved (laid : u.Laid targets fusion) :
    u.resolved.map Resolved.ins = u.code := by
  have length := (targets_spec laid.resolves).1
  rw [laid.resolved, Function.resolved, List.map_zipWith]
  apply List.ext_getElem
  · simp [length]
  · simp

theorem boundary_jump (laid : u.Laid targets fusion) {r : Resolved} (mem : r ∈ u.resolved)
    (scans : r.ins.scan?.isSome) : u.Boundary r.jump := by
  obtain ⟨i, found⟩ := List.getElem?_of_mem mem
  rw [laid.resolved, Function.resolved, List.getElem?_zipWith] at found
  cases code : u.code[i]? with
  | none => simp [code] at found
  | some ins =>
    obtain ⟨target, placed, resolves⟩ := (targets_spec laid.resolves).2 i ins code
    simp only [code, placed, Option.some.injEq] at found
    subst found
    obtain ⟨t, rfl⟩ := Option.isSome_iff_exists.mp (resolve_isSome scans resolves)
    apply laid.boundary_of_landing
    simp only [Function.landings, List.mem_append, List.mem_filterMap, id]
    exact Or.inl ⟨some t, List.mem_of_getElem? placed, rfl⟩

end Laid

end CodeUnit

end ScriptMachine
