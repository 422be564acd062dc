import ScriptMachine.Proofs.Code.Steps

/-!
# Which runs are folded, and into what

`Action.Folds` lists the actions that a compilation makes, each with the instructions it stands for.
Every step of a compiled unit is one of them, over the instructions that the step covers, and only
the last of these may hand control away.
-/

set_option autoImplicit false

namespace ScriptMachine

/-- An action that stands for a run of instructions. -/
inductive Action.Folds : Action → List Resolved → Prop
  | single (r : Resolved) : Folds (.single r) [r]
  | incrementLocal (load push arith store : Resolved) (loads : load.ins.op = .loadLocal)
      (pushes : push.ins.op = .pushInt) (computes : arith.ins.op = .add ∨ arith.ins.op = .sub)
      (stores : store.ins.op = .storeLocal) (same : load.ins.int = store.ins.int) :
      Folds (.incrementLocal load.ins.count push.ins.int (arith.ins.op == .add)
        [load, push, arith, store]) [load, push, arith, store]
  | branchOnLocal (load push compare branch : Resolved) (loads : load.ins.op = .loadLocal)
      (pushes : push.ins.op = .pushInt) (compares : compare.ins.op ∈ Fusion.comparisons)
      (branches : branch.ins.op = .jumpIfFalse) :
      Folds (.branchOnLocal load.ins.count push.ins.int compare.ins.op.comparison branch.jump)
        [load, push, compare, branch]
  | compareLocals (a b compare : Resolved) (loads : a.ins.op = .loadLocal)
      (loads' : b.ins.op = .loadLocal) (compares : compare.ins.op ∈ Fusion.comparisons) :
      Folds (.compareLocals a.ins.count b.ins.count compare.ins.op.comparison) [a, b, compare]
  | localLiteralArith (load push arith : Resolved) (loads : load.ins.op = .loadLocal)
      (pushes : push.ins.op ∈ Fusion.literals) (computes : arith.ins.op ∈ Fusion.ariths) :
      Folds (.localLiteralArith load.ins.count push.ins.literal arith.ins.op.arithOp)
        [load, push, arith]
  | storeReload (store load : Resolved) (stores : store.ins.op = .storeLocal)
      (loads : load.ins.op = .loadLocal) (same : store.ins.int = load.ins.int) :
      Folds (.storeReload store.ins.count) [store, load]
  | discard (push pop : Resolved) (pushes : push.ins.op ∈ Fusion.purePushes)
      (pops : pop.ins.op = .pop) : Folds .discard [push, pop]
  | pushLiterals (span : List Resolved) (pushes : ∀ r ∈ span, r.ins.op ∈ Fusion.literals) :
      Folds (.pushLiterals (span.map (·.ins.literal))) span
  | skipNops (r : Resolved) (nops : List Resolved) (idle : ∀ n ∈ nops, n.ins.op = .nop) :
      Folds (.skipNops r) (r :: nops)

namespace Fusion

theorem takes_cons {m : Matcher} {parts : List Matcher} {rs : List Resolved}
    {rest : List Instruction} (single : ∀ inner min, m ≠ .repeated inner min)
    (takes : Pattern.Takes (m :: parts) (rs.map Resolved.ins) rest) :
    ∃ r others, rs = r :: others ∧ m.accepts r.ins = true ∧
      Pattern.Takes parts (others.map Resolved.ins) rest := by
  generalize spanned : rs.map Resolved.ins = span at takes
  cases takes with
  | cons first takes =>
    cases first with
    | one _ accepted =>
      obtain ⟨r, others, rfl, rfl, rfl⟩ := List.map_eq_cons_iff.mp spanned
      exact ⟨r, others, rfl, accepted, takes⟩
    | run => exact absurd rfl (single _ _)

theorem takes_nil {rs : List Resolved} {rest : List Instruction}
    (takes : Pattern.Takes [] (rs.map Resolved.ins) rest) : rs = [] := by
  generalize spanned : rs.map Resolved.ins = span at takes
  cases takes
  exact List.map_eq_nil_iff.mp spanned

theorem takes_repeated {m : Matcher} {min : Nat} {rs : List Resolved} {rest : List Instruction}
    (takes : Pattern.Takes [.repeated m min] (rs.map Resolved.ins) rest) :
    ∀ r ∈ rs, m.accepts r.ins = true := by
  generalize spanned : rs.map Resolved.ins = span at takes
  cases takes with
  | cons first takes =>
    cases takes
    cases first with
    | one single => exact absurd rfl (single _ _)
    | run accepted =>
      intro r mem
      apply accepted
      rw [List.append_nil] at spanned
      exact spanned ▸ List.mem_map_of_mem mem

theorem folds_of_match {p : Pattern Fold} (known : p ∈ registry) {rs : List Resolved}
    {rest : List Instruction} (takes : Pattern.Takes p.parts (rs.map Resolved.ins) rest)
    (guarded : ∀ guard, p.guard = some guard → guard (rs.map Resolved.ins) = true) :
    (p.build rs).Folds rs := by
  simp only [registry, List.mem_cons, List.not_mem_nil, or_false] at known
  rcases known with rfl | rfl | rfl | rfl | rfl | rfl | rfl | rfl
  · obtain ⟨load, rs, rfl, loads, takes⟩ := takes_cons (by simp) takes
    obtain ⟨push, rs, rfl, pushes, takes⟩ := takes_cons (by simp) takes
    obtain ⟨arith, rs, rfl, computes, takes⟩ := takes_cons (by simp) takes
    obtain ⟨store, rs, rfl, stores, takes⟩ := takes_cons (by simp) takes
    cases takes_nil takes
    have same := guarded sameEnds rfl
    exact .incrementLocal load push arith store (by simpa [Matcher.accepts] using loads)
      (by simpa [Matcher.accepts] using pushes) (by simpa [Matcher.accepts] using computes)
      (by simpa [Matcher.accepts] using stores) (by simpa [sameEnds] using same)
  · obtain ⟨load, rs, rfl, loads, takes⟩ := takes_cons (by simp) takes
    obtain ⟨push, rs, rfl, pushes, takes⟩ := takes_cons (by simp) takes
    obtain ⟨compare, rs, rfl, compares, takes⟩ := takes_cons (by simp) takes
    obtain ⟨branch, rs, rfl, branches, takes⟩ := takes_cons (by simp) takes
    cases takes_nil takes
    exact .branchOnLocal load push compare branch (by simpa [Matcher.accepts] using loads)
      (by simpa [Matcher.accepts] using pushes) (by simpa [Matcher.accepts] using compares)
      (by simpa [Matcher.accepts] using branches)
  · obtain ⟨one, rs, rfl, loads, takes⟩ := takes_cons (by simp) takes
    obtain ⟨two, rs, rfl, loads', takes⟩ := takes_cons (by simp) takes
    obtain ⟨compare, rs, rfl, compares, takes⟩ := takes_cons (by simp) takes
    cases takes_nil takes
    exact .compareLocals one two compare (by simpa [Matcher.accepts] using loads)
      (by simpa [Matcher.accepts] using loads') (by simpa [Matcher.accepts] using compares)
  · obtain ⟨load, rs, rfl, loads, takes⟩ := takes_cons (by simp) takes
    obtain ⟨push, rs, rfl, pushes, takes⟩ := takes_cons (by simp) takes
    obtain ⟨arith, rs, rfl, computes, takes⟩ := takes_cons (by simp) takes
    cases takes_nil takes
    exact .localLiteralArith load push arith (by simpa [Matcher.accepts] using loads)
      (by simpa [Matcher.accepts] using pushes) (by simpa [Matcher.accepts] using computes)
  · obtain ⟨store, rs, rfl, stores, takes⟩ := takes_cons (by simp) takes
    obtain ⟨load, rs, rfl, loads, takes⟩ := takes_cons (by simp) takes
    cases takes_nil takes
    have same := guarded sameEnds rfl
    exact .storeReload store load (by simpa [Matcher.accepts] using stores)
      (by simpa [Matcher.accepts] using loads) (by simpa [sameEnds] using same)
  · obtain ⟨push, rs, rfl, pushes, takes⟩ := takes_cons (by simp) takes
    obtain ⟨pop, rs, rfl, pops, takes⟩ := takes_cons (by simp) takes
    cases takes_nil takes
    exact .discard push pop (by simpa [Matcher.accepts] using pushes)
      (by simpa [Matcher.accepts] using pops)
  · apply Action.Folds.pushLiterals
    intro r mem
    simpa [Matcher.accepts] using takes_repeated takes r mem
  · obtain ⟨first, rs, rfl, _, takes⟩ := takes_cons (by simp) takes
    apply Action.Folds.skipNops
    intro nop mem
    simpa [Matcher.accepts] using takes_repeated takes nop mem

end Fusion

/-! ## Steps of compiled units -/

namespace CodeUnit

def span (u : CodeUnit) (step : Step) : List Resolved :=
  (u.resolved.drop step.start).take step.length

namespace Laid

variable {u : CodeUnit} {targets : List (Option Nat)} {fusion : Bool} {p : Nat} {step : Step}

theorem resolved_getD (laid : u.Laid targets fusion) (inside : p < u.code.length) :
    u.resolved[p]? = some (u.resolved.getD p default) := by
  rw [List.getD_eq_getElem?_getD, List.getElem?_eq_getElem (by rw [laid.length_resolved]; exact inside)]
  rfl

theorem length_span (laid : u.Laid targets fusion) (mem : step ∈ u.steps) :
    (u.span step).length = step.length ∧ 0 < step.length := by
  obtain ⟨inside, eq⟩ := laid.step_eq mem
  have bounds := Function.stepFrom_bounds (Fusion.patterns fusion) u.resolved
    (Function.landings u.code targets) inside
  rw [← eq] at bounds
  refine ⟨?_, bounds.1⟩
  rw [span, List.length_take, List.length_drop, laid.length_resolved]
  omega

theorem resolved_of_span {i : Nat} {r : Resolved} (found : (u.span step)[i]? = some r) :
    u.resolved[step.start + i]? = some r := by
  rw [span, List.getElem?_take] at found
  split at found
  · rwa [List.getElem?_drop] at found
  · cases found

theorem covered_eq (laid : u.Laid targets fusion) (step : Step) :
    Pattern.covered u.code step.start step.length = (u.span step).map Resolved.ins := by
  rw [Pattern.covered, span, List.map_take, List.map_drop, laid.map_resolved]

theorem alone_or_match (laid : u.Laid targets fusion) (mem : step ∈ u.steps) :
    (step.length = 1 ∧ step.action = .single (u.resolved.getD step.start default)) ∨
      ∃ p ∈ Fusion.registry,
        p.Matches u.code step.start (Function.landings u.code targets) step.length ∧
          step.action = p.build (u.span step) := by
  have made := Function.stepFrom_cases (Fusion.patterns fusion) u.code u.resolved
    (Function.landings u.code targets) step.start
  rw [← (laid.step_eq mem).2] at made
  rcases made with alone | ⟨p, known, found, action⟩
  · exact .inl alone
  · have registered : p ∈ Fusion.registry := by
      unfold Fusion.patterns at known
      split at known
      · exact known
      · simp at known
    exact .inr ⟨p, registered, found, action⟩

theorem folds (laid : u.Laid targets fusion) (mem : step ∈ u.steps) :
    step.action.Folds (u.span step) := by
  rcases laid.alone_or_match mem with ⟨alone, action⟩ | ⟨p, registered, found, action⟩
  · have one : u.span step = [u.resolved.getD step.start default] := by
      rw [span, alone, List.take_one, List.head?_drop, laid.resolved_getD (laid.step_eq mem).1]
      rfl
    rw [one, action]
    exact .single _
  · have takes := found.takes
    have guarded := found.guarded
    rw [laid.covered_eq] at takes guarded
    rw [action]
    exact Fusion.folds_of_match registered takes guarded

theorem transfers_last (laid : u.Laid targets fusion) (mem : step ∈ u.steps) :
    ∀ r ∈ (u.span step).take (step.length - 1), r.ins.op.transfersControl = false := by
  intro r member
  rcases laid.alone_or_match mem with ⟨alone, -⟩ | ⟨p, -, found, -⟩
  · rw [alone] at member
    simp at member
  · apply found.unbroken
    rw [laid.covered_eq, List.dropLast_eq_take, List.length_map, (laid.length_span mem).1,
      ← List.map_take]
    exact List.mem_map_of_mem member

/-- Without fusion, every position of the code has a step for its instruction alone. -/
theorem stepAt?_plain (laid : u.Laid targets false) (inside : p < u.code.length) :
    ∃ step, u.stepAt? p = some step ∧ step.start = p ∧ step.length = 1 ∧
      step.action = .single (u.resolved.getD p default) := by
  have boundary : u.Boundary p :=
    laid.boundary_of_cut fun inside =>
      Function.cut_starts (Nat.le_add_left _ 0) (Nat.zero_le p) inside fun _ before => before
  obtain ⟨step, found⟩ := Option.isSome_iff_exists.mp (boundary.resolve_right (by omega))
  obtain ⟨mem, rfl⟩ := laid.mem_of_stepAt? found
  have eq := (laid.step_eq mem).2
  exact ⟨step, found, rfl, congrArg Step.length eq, congrArg Step.action eq⟩

theorem check_of_verify {f : Function} :
    ∀ {rest : List Instruction} {n : Nat},
      ((rest.zipIdx n).forM fun (ins, position) => f.check position ins) = .ok () →
      ∀ ins ∈ rest, ∃ position, f.check position ins = .ok () := by
  intro rest
  induction rest with
  | nil => intro n _ ins mem; simp at mem
  | cons first rest ih =>
    intro n checked ins mem
    rw [List.zipIdx_cons, List.forM_eq_forM, List.forM_cons] at checked
    obtain ⟨_, head, checked⟩ := ok_of_bind checked
    rcases List.mem_cons.mp mem with rfl | mem
    · exact ⟨n, head⟩
    · exact ih checked ins mem

theorem slot_lt (laid : u.Laid targets fusion) {r : Resolved} (mem : r ∈ u.resolved)
    (loads : r.ins.op = .loadLocal) : r.ins.count < u.slots := by
  have listed : r.ins ∈ u.code := by
    rw [← laid.map_resolved]
    exact List.mem_map_of_mem mem
  obtain ⟨position, checked⟩ := check_of_verify laid.verified r.ins listed
  unfold Function.check at checked
  simp only [loads] at checked
  split at checked
  · simp at checked
  · rename_i within
    have bound : r.ins.int.toInt < (u.function.slots : Int) := by omega
    have slots : u.function.slots = u.slots := rfl
    unfold Instruction.count Word.toCount
    omega

end Laid

end CodeUnit

end ScriptMachine
