import ScriptMachine.Proofs.Exec.Calm
import ScriptMachine.Proofs.Exec.Folding

/-!
# What instructions do to deferred blocks

A frame keeps which of its deferred blocks are armed, and the exit that is held back for them. Only
three instructions have to do with these: one arms a block, one lets control into an armed block,
and one issues the exit again that is held back. A `Moment` is what happens to a frame in this
respect; what the frame keeps is a function of its moments.
-/

set_option autoImplicit false

namespace ScriptMachine

/-- How control wants to leave a frame. -/
inductive Departure where
  | returns (exit : PendingReturn)
  | fails (e : Error)

/-- What happens to a frame that concerns its deferred blocks. -/
inductive Moment where
  | armed (k : Nat)
  | entered (k : Nat)
  /-- The exit that is held back is issued again. -/
  | reissued
  /-- An exit is issued, or an error arrives that no trap takes. -/
  | left (departure : Departure)

namespace Deferral

/-- What is kept after a moment that the frame outlives. An error is issued again before a
return. -/
def after (d : Deferral) : Moment → Deferral
  | .armed k => { d with armed := d.armed.set k true }
  | .entered k => { d with armed := d.armed.set k false }
  | .reissued => if d.error.isSome then { d with error := none } else { d with returns := none }
  | .left (.returns exit) => { d with returns := some exit }
  | .left (.fails e) => { d with returns := none, error := some e }

def Permits (d : Deferral) : Moment → Prop
  | .entered k => d.armed[k]? = some true
  | .left _ => true ∈ d.armed
  | _ => True

def Follows : Deferral → List Moment → Deferral → Prop
  | d, [], d' => d' = d
  | d, m :: ms, d' => d.Permits m ∧ (d.after m).Follows ms d'

theorem Follows.append {ms ns : List Moment} :
    ∀ {a b c : Deferral}, a.Follows ms b → b.Follows ns c → a.Follows (ms ++ ns) c := by
  induction ms with
  | nil =>
    intro a b c same rest
    cases same
    exact rest
  | cons m ms ih => exact fun first rest => ⟨first.1, ih first.2 rest⟩

end Deferral

/-- What an instruction has to do with deferred blocks, by how control goes on behind it; an
instruction that fails has no flow. -/
def Instruction.moments (ins : Instruction) (flow : Option Flow) : List Moment :=
  match ins.op, flow with
  | .deferArm, _ => [.armed ins.count]
  | .deferCheck, some .next => [.entered ins.count]
  | .deferEnd, _ => [.reissued]
  | _, _ => []

theorem Instruction.moments_of_plain {ins : Instruction} (plain : ins.op.defers = false)
    (flow : Option Flow) : ins.moments flow = [] := by
  unfold moments
  split <;> first | rfl | simp_all [Opcode.defers]

namespace Exec

variable {H α : Type} {d : Deferral} {P : List Value → Prop} {c : Context H}

structure Spares (d : Deferral) (P : List Value → Prop) (c : Context H) : Prop where
  deferral : c.frame.deferral = d
  channel : P c.channel

/-- An instruction that is none of the three leaves alone what the frame keeps, and the channel
unless control goes on with what it put there. -/
theorem single_spares (units : UnitTable) {r : Resolved} (plain : r.ins.op.defers = false)
    (c : Context H) :
    (single units r).Ensures c
      (fun flow t => Spares c.frame.deferral (fun vs => flow.sends = false → vs = c.channel) t)
      (fun _ t => t.frame.deferral = c.frame.deferral) := by
  have keeps : (single units r).Keeps (Watch.still c (r.ins.op.sends = false)).Holds :=
    single_keeps (fun _ _ _ => trivial) r (fun _ => plain) id
  have kept := keeps c (Watch.holds_still c _)
  have apart : r.ins.op ≠ .deferEnd := fun last => by simp [last, Opcode.defers] at plain
  refine (kept.and (single_asks units r c)).mono (fun flow _ after => ?_) fun _ _ after =>
    after.1.deferral trivial
  obtain ⟨holds, asked⟩ := after
  refine ⟨holds.deferral trivial, fun silent => holds.channel ?_⟩
  cases sends : r.ins.op.sends with
  | false => rfl
  | true => simp [asked.sends sends apart] at silent

theorem armDefer_moments (k : Nat) (c : Context H) :
    (changeFrame fun f => f.armDefer k : Exec H Unit).Ensures c
      (fun _ t => t.frame.deferral = c.frame.deferral.after (.armed k) ∧ t.channel = c.channel)
      (fun _ t => t.frame.deferral = c.frame.deferral.after (.armed k)) := by
  simp only [changeFrame, onFrame, Effect.ensures_bind, Effect.ensures_get, Effect.ensures_liftM,
    Frame.armDefer]
  split
  · rename_i inside
    split at inside <;> cases inside
    exact ⟨rfl, rfl⟩
  · -- there is no such block, so arming it in the list changes nothing
    rename_i outside
    split at outside
    · cases outside
    · rename_i beyond
      simp only [Frame.deferral, Deferral.after, List.set_eq_of_length_le (Nat.le_of_not_lt beyond)]

theorem checkDefer_eq (k target : Nat) (c : Context H) :
    checkDefer k target c =
      .ok (if c.frame.defers[k]? = some true then .next else .jump target)
        { c with frame := { c.frame with defers := c.frame.defers.set k false } } := by
  refine Effect.eq_ok_of_ensures ?_
  simp only [checkDefer, Effect.ensures_bind, Effect.ensures_get, Effect.ensures_set,
    Effect.ensures_pure, Frame.takeDefer, List.getD_eq_getElem?_getD]
  cases c.frame.defers[k]? with
  | none => exact ⟨rfl, trivial⟩
  | some armed => cases armed <;> exact ⟨rfl, trivial⟩

def reissue (c : Context H) : EStateM.Result Error (Context H) Flow :=
  match c.frame.pendingError, c.frame.pendingReturn with
  | some e, _ => .error e { c with frame := { c.frame with pendingError := none } }
  | none, some (.values vs) =>
    .ok .ret { c with frame := { c.frame with pendingReturn := none }, channel := c.channel ++ vs }
  | none, some (.locals mask) =>
    .ok (.returnLocals mask) { c with frame := { c.frame with pendingReturn := none } }
  | none, none => .ok .next c

theorem endDefer_eq (c : Context H) : endDefer c = reissue c := by
  obtain ⟨heap, globals, frame, channel⟩ := c
  obtain ⟨unit, locals, stack, shadows, cursor, trap, defers, pendingReturn, pendingError, this,
    closure, generator, onExhaust, capacity⟩ := frame
  cases pendingError with
  | some e => rfl
  | none =>
    cases pendingReturn with
    | none => rfl
    | some exit => cases exit <;> rfl

theorem endDefer_moments (c : Context H) :
    (endDefer : Exec H Flow).Ensures c
      (fun flow t => t.frame.deferral = c.frame.deferral.after .reissued ∧
        (flow.sends = false → t.channel = c.channel))
      (fun _ t => t.frame.deferral = c.frame.deferral.after .reissued) := by
  unfold Effect.Ensures
  rw [endDefer_eq]
  obtain ⟨heap, globals, frame, channel⟩ := c
  obtain ⟨unit, locals, stack, shadows, cursor, trap, defers, pendingReturn, pendingError, this,
    closure, generator, onExhaust, capacity⟩ := frame
  cases pendingError with
  | some e => exact rfl
  | none =>
    cases pendingReturn with
    | none => exact ⟨rfl, fun _ => rfl⟩
    | some exit =>
      cases exit with
      | values vs => exact ⟨rfl, fun silent => by cases silent⟩
      | locals mask => exact ⟨rfl, fun _ => rfl⟩

theorem set_of_not_armed {armed : List Bool} {k : Nat} (idle : armed[k]? ≠ some true) :
    armed.set k false = armed := by
  refine List.ext_getElem? fun i => ?_
  rw [List.getElem?_set]
  by_cases here : k = i
  · subst here
    cases found : armed[k]? with
    | none => simpa using found
    | some b =>
      have inside := (List.getElem?_eq_some_iff.mp found).1
      cases b <;> simp_all
  · rw [if_neg here]

theorem single_moments (units : UnitTable) (r : Resolved) (c : Context H) :
    (single units r).Ensures c
      (fun flow t => c.frame.deferral.Follows (r.ins.moments (some flow)) t.frame.deferral ∧
        (flow.sends = false → t.channel = c.channel))
      (fun _ t => c.frame.deferral.Follows (r.ins.moments none) t.frame.deferral) := by
  by_cases plain : r.ins.op.defers = false
  · refine (single_spares units plain c).mono (fun flow t spares => ?_) fun _ t same => ?_
    · rw [r.ins.moments_of_plain plain]
      exact ⟨spares.deferral, spares.channel⟩
    · rw [r.ins.moments_of_plain plain]
      exact same
  unfold single
  unfold Instruction.moments
  cases op : r.ins.op <;> simp only [op] <;> try exact absurd (by rw [op]; rfl) plain
  case deferArm =>
    simp only [thenNext, Effect.ensures_bind, Effect.ensures_pure]
    exact (armDefer_moments r.ins.count c).mono
      (fun _ t armed => ⟨⟨trivial, armed.1⟩, fun _ => armed.2⟩) fun _ t armed => ⟨trivial, armed⟩
  case deferCheck =>
    rw [Effect.ensures_of_eq_ok (checkDefer_eq ..)]
    by_cases armed : c.frame.defers[r.ins.count]? = some true
    · rw [if_pos armed]
      exact ⟨⟨armed, rfl⟩, fun _ => rfl⟩
    · rw [if_neg armed, set_of_not_armed armed]
      exact ⟨rfl, fun _ => rfl⟩
  case deferEnd =>
    exact (endDefer_moments c).mono (fun _ t ended => ⟨⟨trivial, ended.1⟩, ended.2⟩)
      fun _ t ended => ⟨trivial, ended⟩

end Exec

/-! ## Steps of compiled units -/

def Fusion.folded : List Opcode :=
  [.loadLocal, .storeLocal, .pop, .jumpIfFalse] ++ literals ++ comparisons ++ ariths

theorem Action.Folds.alone {a : Action} {span : List Resolved} (folds : a.Folds span)
    {p : Opcode → Bool} (apart : ∀ op ∈ Fusion.folded, p op = false) :
    (∃ r nops, span = r :: nops ∧ (∀ n ∈ nops, n.ins.op = .nop) ∧
      (a = .single r ∨ a = .skipNops r)) ∨ ∀ r ∈ span, p r.ins.op = false := by
  have load := apart .loadLocal (by decide)
  have store := apart .storeLocal (by decide)
  have push := apart .pushInt (by decide)
  have comparison : ∀ op ∈ Fusion.comparisons, p op = false := fun op mem =>
    apart op (by simp [Fusion.folded, mem])
  have arith : ∀ op ∈ Fusion.ariths, p op = false := fun op mem =>
    apart op (by simp [Fusion.folded, mem])
  have literal : ∀ op ∈ Fusion.literals, p op = false := fun op mem =>
    apart op (by simp [Fusion.folded, mem])
  cases folds with
  | single r => exact .inl ⟨r, [], rfl, by simp, .inl rfl⟩
  | skipNops r nops idle => exact .inl ⟨r, nops, rfl, idle, .inr rfl⟩
  | incrementLocal _ _ sum _ loads pushes computes stores =>
    have sums : sum.ins.op ∈ Fusion.ariths := by
      rcases computes with computes | computes <;> simp [Fusion.ariths, computes]
    simp [loads, pushes, stores, load, push, store, arith _ sums]
  | branchOnLocal _ _ _ _ loads pushes compares branches =>
    have branch := apart .jumpIfFalse (by decide)
    simp [loads, pushes, branches, load, push, branch, comparison _ compares]
  | compareLocals _ _ _ loads loads' compares =>
    simp [loads, loads', load, comparison _ compares]
  | localLiteralArith _ _ _ loads pushes computes =>
    simp [loads, load, literal _ pushes, arith _ computes]
  | storeReload _ _ stores loads => simp [stores, loads, store, load]
  | discard pushed _ pushes pops =>
    have pop := apart .pop (by decide)
    have pure : p pushed.ins.op = false := by
      rcases List.mem_cons.mp pushes with loads | pushes
      · rw [loads, load]
      · exact literal _ pushes
    simp [pops, pop, pure]
  | pushLiterals _ pushes => exact .inr fun r mem => literal _ (pushes r mem)

theorem Fusion.folded_defers : ∀ op ∈ folded, op.defers = false := by decide

namespace CodeUnit.Laid

variable {H : Type} {u : CodeUnit} {targets : List (Option Nat)} {fusion : Bool} {step : Step}

theorem code_start (laid : u.Laid targets fusion) {r : Resolved}
    (first : (u.span step).head? = some r) : u.code[step.start]? = some r.ins := by
  have found : u.resolved[step.start + 0]? = some r :=
    resolved_of_span (by rw [← List.head?_eq_getElem?, first])
  rw [← laid.map_resolved, List.getElem?_map, show u.resolved[step.start]? = some r from found]
  rfl

theorem action_of_alone (laid : u.Laid targets fusion) (mem : step ∈ u.steps) {p : Opcode → Bool}
    (apart : ∀ op ∈ Fusion.folded, p op = false) (idle : p .nop = false) {r : Resolved}
    (covered : r ∈ u.span step) (holds : p r.ins.op = true) :
    u.code[step.start]? = some r.ins ∧
      ∀ (units : UnitTable) (c : Context H), Exec.action units step.action c =
        Exec.single units r c := by
  rcases (laid.folds mem).alone apart with ⟨r', nops, span, plain, acts⟩ | plain
  · rw [span] at covered
    rcases List.mem_cons.mp covered with rfl | behind
    · refine ⟨laid.code_start (by rw [span]; rfl), fun units c => ?_⟩
      rcases acts with acts | acts <;> rw [acts] <;> rfl
    · rw [plain r behind, idle] at holds
      cases holds
  · rw [plain r covered] at holds
    cases holds

theorem covers_start (laid : u.Laid targets fusion) (mem : step ∈ u.steps) {ins : Instruction}
    (starts : u.code[step.start]? = some ins) : ∃ r ∈ u.span step, r.ins = ins := by
  have positive := laid.length_span mem
  cases covers : u.span step with
  | nil => simp [covers] at positive; omega
  | cons r rest =>
    have first : (u.span step).head? = some r := by rw [covers]; rfl
    exact ⟨r, List.mem_cons_self,
      Option.some.inj ((laid.code_start first).symm.trans starts)⟩

end CodeUnit.Laid

namespace Exec

variable {H : Type} {u : CodeUnit} {targets : List (Option Nat)} {fusion : Bool} {step : Step}

theorem action_of_runs (units : UnitTable) (laid : u.Laid targets fusion) (mem : step ∈ u.steps)
    {c : Context H} (runs : c.frame.Runs u) :
    action units step.action c = sequence units (u.span step) c := by
  refine action_eq_sequence units (laid.folds mem) fun r member loads => ?_
  rw [runs.slots]
  exact laid.slot_lt (List.mem_of_mem_drop (List.mem_of_mem_take member)) loads

theorem sequence_spares (units : UnitTable) {span : List Resolved} :
    (∀ r ∈ span, r.ins.op.defers = false) → ∀ c : Context H, (sequence units span).Ensures c
      (fun flow t => t.frame.deferral = c.frame.deferral ∧
        (flow.sends = false → t.channel = c.channel))
      (fun _ t => t.frame.deferral = c.frame.deferral) := by
  induction span with
  | nil => exact fun _ _ => ⟨rfl, fun _ => rfl⟩
  | cons r span ih =>
    intro plain c
    obtain ⟨first, others⟩ := List.forall_mem_cons.mp plain
    have spares := single_spares units first c
    unfold Effect.Ensures
    cases run : single units r c with
    | error e t =>
      rw [sequence_error units run]
      exact (Effect.ensures_of_eq_error run).mp spares
    | ok flow t =>
      obtain ⟨same, channel⟩ := (Effect.ensures_of_eq_ok run).mp spares
      by_cases next : flow = .next
      · subst next
        rw [sequence_next units run]
        have later := ih others t
        rw [same, channel rfl] at later
        exact later
      · rw [sequence_stop units run next]
        exact ⟨same, channel⟩

/-- What a step of a compiled unit makes of what its frame keeps is what the moments of its first
instruction make of it. -/
theorem action_moments (units : UnitTable) (laid : u.Laid targets fusion) (mem : step ∈ u.steps)
    {c : Context H} (runs : c.frame.Runs u) :
    ∃ ins, u.code[step.start]? = some ins ∧ (action units step.action).Ensures c
      (fun flow t => c.frame.deferral.Follows (ins.moments (some flow)) t.frame.deferral ∧
        (flow.sends = false → t.channel = c.channel))
      (fun _ t => c.frame.deferral.Follows (ins.moments none) t.frame.deferral) := by
  have positive := laid.length_span mem
  cases covers : u.span step with
  | nil => simp [covers] at positive; omega
  | cons r rest =>
    have first : (u.span step).head? = some r := by rw [covers]; rfl
    refine ⟨r.ins, laid.code_start first, ?_⟩
    rcases (laid.folds mem).alone Fusion.folded_defers with ⟨r', _, span, -, acts⟩ | plain
    · cases covers.symm.trans span
      have moments := single_moments units r c
      rcases acts with acts | acts <;> rw [acts] <;> exact moments
    · have spares := sequence_spares units plain c
      unfold Effect.Ensures at spares ⊢
      rw [action_of_runs units laid mem runs]
      have quiet := r.ins.moments_of_plain (plain r (List.mem_of_mem_head? first))
      cases ran : sequence units (u.span step) c with
      | ok flow t =>
        rw [ran] at spares
        simp only [quiet]
        exact spares
      | error e t =>
        rw [ran] at spares
        simp only [quiet]
        exact spares

end Exec

end ScriptMachine
