import ScriptMachine.Proofs.Machine.Calls

/-!
# What callers receive

A frame leaves its job at the end of its code or by an instruction that returns. `Frame.exit?` reads
off what it returns then. Where no deferred block is armed, just these values go to the frame below;
otherwise they are held back, and the instruction that ends the deferred blocks returns them.
-/

set_option autoImplicit false

namespace ScriptMachine

variable {H W : Type}

def Frame.selected (f : Frame) (mask : UInt64) : List Value :=
  (f.locals.zipIdx.filter fun (_, slot) =>
    decide (slot < 64) && mask.toNat.testBit slot).map Prod.fst

def PendingReturn.brings (f : Frame) : PendingReturn → List Value
  | .values vs => vs
  | .locals mask => f.selected mask

def Frame.exit? (f : Frame) : Option PendingReturn :=
  match f.instruction? with
  | none => some (.values [])
  | some ins =>
    match ins.op with
    | .ret => if ins.count ≤ f.stack.length then some (.values (f.arguments ins)) else none
    | .returnLocals => some (.locals ins.int.toUInt64)
    | .finalize => some (.values [])
    | .deferEnd => if f.pendingError.isNone then f.pendingReturn else none
    | _ => none

/-- Operations of the instructions that return. -/
def Opcode.returns : Opcode → Bool
  | .ret | .returnLocals | .finalize | .deferEnd => true
  | _ => false

theorem Frame.returns_of_exit? {f : Frame} {ins : Instruction} {e : PendingReturn}
    (before : f.instruction? = some ins) (exits : f.exit? = some e) : ins.op.returns := by
  unfold exit? at exits
  rw [before] at exits
  simp only at exits
  split at exits <;> first | cases exits; done | rename_i op; rw [op]; rfl

/-- What matters of a frame for the values that its exit brings, and where they go. -/
structure Frame.Leaves (f g : Frame) : Prop where
  locals : g.locals = f.locals
  generator : g.generator = f.generator
  diversion : g.diversion = f.diversion

theorem PendingReturn.brings_congr {f g : Frame} (leaves : f.Leaves g) (e : PendingReturn) :
    e.brings g = e.brings f := by
  cases e with
  | values => rfl
  | locals mask => simp only [brings, Frame.selected, leaves.locals]

namespace Session

variable {host : Host H W} {m : Machine H W} {f : Frame} {rest : List Frame} {u : CodeUnit}
  {e : PendingReturn} {exit : Exit} {vs : List Value}

def Issues (m : Machine H W) (f : Frame) (rest : List Frame) (e : PendingReturn)
    (r : EStateM.Result Error (Session H W) Unit) : Prop :=
  ∃ g vs exit, f.Leaves g ∧ e = Exit.held vs exit ∧ (exit = .values ∨ vs = []) ∧
    r = leave exit ⟨m, ⟨g :: rest, vs, none⟩⟩

theorem arrived_exits {r : Resolved} (before : f.instruction? = some r.ins)
    (exits : f.exit? = some e) (next : Nat) :
    Issues m f rest e
      (arrived host m rest next (Exec.single m.units r ⟨m.heap, m.globals, f, []⟩)) := by
  have returns := Frame.returns_of_exit? before exits
  unfold Frame.exit? at exits
  rw [before] at exits
  cases op : r.ins.op <;> rw [op] at returns <;> try exact absurd returns (by decide)
  case ret =>
    simp only [op] at exits
    split at exits <;> cases exits
    rename_i enough
    refine ⟨{ f with stack := f.stack.drop r.ins.count, cursor := next }, f.arguments r.ins,
      .values, ⟨rfl, rfl, rfl⟩, rfl, .inl rfl, ?_⟩
    have sent : Exec.single m.units r ⟨m.heap, m.globals, f, []⟩ = .ok .ret
        ⟨m.heap, m.globals, { f with stack := f.stack.drop r.ins.count }, f.arguments r.ins⟩ := by
      refine Effect.eq_ok_of_ensures ?_
      simp only [Exec.single, op]
      rw [Exec.sendTop, Effect.ensures_bind, Effect.ensures_of_eq_ok (Exec.popN_eq enough)]
      exact ⟨rfl, rfl⟩
    rw [sent]
    rfl
  case returnLocals =>
    simp only [op] at exits
    cases exits
    refine ⟨{ f with cursor := next }, [], .locals r.ins.int.toUInt64, ⟨rfl, rfl, rfl⟩, rfl,
      .inr rfl, ?_⟩
    simp only [Exec.single, op]
    rfl
  case finalize =>
    simp only [op] at exits
    cases exits
    refine ⟨{ f with cursor := next }, [], .values, ⟨rfl, rfl, rfl⟩, rfl, .inl rfl, ?_⟩
    simp only [Exec.single, op]
    rfl
  case deferEnd =>
    simp only [op] at exits
    split at exits
    · rename_i errorless
      rw [Option.isNone_iff_eq_none] at errorless
      have again : Exec.single m.units r ⟨m.heap, m.globals, f, []⟩ =
          Exec.reissue ⟨m.heap, m.globals, f, []⟩ := by
        rw [← Exec.endDefer_eq, Exec.single]
        simp only [op]
      rw [again, Exec.reissue]
      simp only [errorless, exits]
      cases e with
      | values vs =>
        exact ⟨{ f with pendingReturn := none, pendingError := none, cursor := next }, vs, .values,
          ⟨rfl, rfl, rfl⟩, rfl, .inl rfl, rfl⟩
      | locals mask =>
        exact ⟨{ f with pendingReturn := none, pendingError := none, cursor := next }, [],
          .locals mask, ⟨rfl, rfl, rfl⟩, rfl, .inr rfl, rfl⟩
    · cases exits

theorem executeStep_exits (runs : f.Runs u) (exits : f.exit? = some e) :
    Issues m f rest e (executeStep host f ⟨m, ⟨f :: rest, [], none⟩⟩) := by
  obtain ⟨targets, fusion, laid⟩ := runs.laid
  cases before : f.instruction? with
  | none =>
    have beyond : u.code.length ≤ f.cursor := by
      simpa [Frame.instruction?, runs.unit] using before
    have found : u.stepAt? f.cursor = none := laid.stepAt?_eq_none beyond
    obtain rfl : PendingReturn.values [] = e := by simpa [Frame.exit?, before] using exits
    refine ⟨f, [], .values, ⟨rfl, rfl, rfl⟩, rfl, .inl rfl, ?_⟩
    rw [executeStep_of_end runs.unit found beyond]
    rfl
  | some ins =>
    have code : u.code[f.cursor]? = some ins := by
      simpa [Frame.instruction?, runs.unit] using before
    have inside : ¬ u.code.length ≤ f.cursor :=
      Nat.not_le.mpr (List.getElem?_eq_some_iff.mp code).1
    obtain ⟨step, found⟩ := Option.isSome_iff_exists.mp (runs.cursor.resolve_right inside)
    obtain ⟨mem, start⟩ := laid.mem_of_stepAt? found
    obtain ⟨r, covered, rfl⟩ := laid.covers_start mem (start ▸ code)
    have returns := Frame.returns_of_exit? before exits
    have acts := (laid.action_of_alone (H := H) mem (by decide) rfl covered returns).2
    have ran := executeStep_eq host m rest (c := ⟨m.heap, m.globals, f, []⟩) runs.unit found
    rw [acts] at ran
    rw [show executeStep host f ⟨m, ⟨f :: rest, [], none⟩⟩ = _ from ran]
    exact arrived_exits before exits _

theorem single_silent (units : UnitTable) {r : Resolved} (other : r.ins.op.returns = false) :
    (Exec.single (H := H) units r).Answers fun flow => ∀ channel, flow.exits channel = [] := by
  intro c
  refine (Exec.single_asks units r c).mono (fun flow _ asked channel => ?_) fun _ _ _ => trivial
  cases flow with
  | ret => rcases asked with op | op <;> simp [op, Opcode.returns] at other
  | returnLocals => rcases asked with ⟨op, -⟩ | op <;> simp [op, Opcode.returns] at other
  | finalize =>
    have op : r.ins.op = _ := asked
    simp [op, Opcode.returns] at other
  | _ => rfl

theorem sequence_silent (units : UnitTable) {span : List Resolved} :
    (∀ r ∈ span, r.ins.op.returns = false) →
      (Exec.sequence (H := H) units span).Answers
        fun flow => ∀ channel, flow.exits channel = [] := by
  induction span with
  | nil => exact fun _ => .pure fun _ => rfl
  | cons r span ih =>
    intro others c
    obtain ⟨first, others⟩ := List.forall_mem_cons.mp others
    rw [Exec.sequence, Effect.ensures_bind]
    refine (single_silent units first c).mono (fun flow d silent => ?_) fun _ _ _ => trivial
    cases flow <;> first | exact ih others d | exact silent

theorem single_exit? (units : UnitTable) {r : Resolved} {c : Context H}
    (returns : r.ins.op.returns = true) (empty : c.channel = [])
    (before : c.frame.instruction? = some r.ins) :
    (Exec.single units r).Ensures c
      (fun flow d => ∀ e, .left (.returns e) ∈ flow.exits d.channel → c.frame.exit? = some e)
      (fun _ _ => True) := by
  unfold Frame.exit?
  rw [before]
  unfold Exec.single
  cases op : r.ins.op <;> rw [op] at returns <;> try exact absurd returns (by decide)
  case ret =>
    simp only [op, Exec.sendTop]
    rw [Effect.ensures_bind]
    by_cases enough : r.ins.count ≤ c.frame.stack.length
    · rw [Effect.ensures_of_eq_ok (Exec.popN_eq enough), if_pos enough]
      intro e issued
      cases List.mem_singleton.mp issued
      simp [Context.drawn, empty, Frame.arguments]
    · rw [Effect.ensures_of_eq_error ((Exec.draws_popN _).1 c (Nat.not_le.mp enough))]
      trivial
  case returnLocals | finalize =>
    simp only [op, Effect.ensures_pure]
    intro e issued
    cases List.mem_singleton.mp issued
    rfl
  case deferEnd =>
    simp only [op]
    unfold Effect.Ensures
    rw [Exec.endDefer_eq, Exec.reissue]
    cases c.frame.pendingError with
    | some e => trivial
    | none =>
      cases held : c.frame.pendingReturn with
      | none => exact fun e issued => absurd issued List.not_mem_nil
      | some exit =>
        cases exit with
        | values vs =>
          intro e issued
          cases List.mem_singleton.mp issued
          simp [empty]
        | locals mask =>
          intro e issued
          cases List.mem_singleton.mp issued
          rfl

theorem stride_exit? (runs : f.Runs u) :
    (stride f).Ensures ⟨m, ⟨f :: rest, [], none⟩⟩
      (fun flow t => ∀ e, .left (.returns e) ∈ flow.exits t.job.channel → f.exit? = some e)
      (fun _ _ => True) := by
  obtain ⟨targets, fusion, laid⟩ := runs.laid
  cases found : u.stepAt? f.cursor with
  | none =>
    have beyond : u.code.length ≤ f.cursor := runs.cursor.resolve_left (by simp [found])
    have none : f.instruction? = Option.none := by
      simpa [Frame.instruction?, runs.unit] using beyond
    simp only [stride, runs.unit, Option.bind_some, found, Effect.ensures_pure]
    intro e issued
    cases List.mem_singleton.mp issued
    rw [Frame.exit?, none]
  | some step =>
    obtain ⟨mem, start⟩ := laid.mem_of_stepAt? found
    simp only [stride, runs.unit, Option.bind_some, found, Effect.ensures_bind, Effect.ensures_get,
      Effect.ensures_onPart]
    by_cases returning : ∃ r ∈ u.span step, r.ins.op.returns = true
    · obtain ⟨r, covered, returns⟩ := returning
      obtain ⟨code, acts⟩ := laid.action_of_alone (H := H) mem (by decide) rfl covered returns
      have before : f.instruction? = some r.ins := by
        rw [Frame.instruction?, runs.unit, Option.bind_some, ← start, code]
      rw [show Exec.action m.units step.action = Exec.single (H := H) m.units r from
        funext (acts m.units)]
      exact (single_exit? m.units returns rfl before).mono (fun _ _ only => only)
        fun _ _ _ => trivial
    · have none : ∀ r ∈ u.span step, r.ins.op.returns = false := fun r covered => by
        simpa using fun returns => returning ⟨r, covered, returns⟩
      have silent : (Exec.action (H := H) m.units step.action).Ensures
          (context f ⟨m, ⟨f :: rest, [], Option.none⟩⟩)
          (fun flow _ => ∀ channel, flow.exits channel = []) (fun _ _ => True) := by
        unfold Effect.Ensures
        rw [Exec.action_of_runs m.units laid mem runs]
        exact sequence_silent m.units none _
      refine silent.mono (fun flow c quiet e issued => ?_) fun _ _ _ => trivial
      rw [quiet] at issued
      cases issued

theorem exit?_of_left (runs : f.Runs u)
    (issued : Moment.left (.returns e) ∈ strideMoments f ⟨m, ⟨f :: rest, [], none⟩⟩) :
    f.exit? = some e := by
  unfold strideMoments at issued
  split at issued
  · rename_i flow t ran
    have only := (Effect.ensures_of_eq_ok ran).mp (stride_exit? runs)
    rcases List.mem_append.mp issued with early | issued
    · exact absurd early (f.noExit_moments _ _)
    · exact only e issued
  · exact absurd issued (f.noExit_moments _ _)

/-! ## Exits -/

theorem leave_given (m : Machine H W) (rest : List Frame) (undiverted : f.diversion = none)
    (plain : f.generator = none) (quiet : exit = .values ∨ vs = []) :
    ∃ m' : Machine H W, leave exit ⟨m, ⟨f :: rest, vs, none⟩⟩ =
      .ok () ⟨m', Job.given ⟨rest, [], none⟩ ((exit.held vs).brings f)⟩ := by
  unfold leave handOver
  cases exit with
  | values =>
    refine ⟨{ m with heap := (m.heap.retire f 0).2 }, Effect.eq_ok_of_ensures ?_⟩
    simp only [Effect.ensures_bind, Effect.ensures_get, undiverted, ensures_changeJob,
      ensures_drainChannel, ensures_retire, Effect.ensures_pure, plain]
    rw [Effect.ensures_of_eq_ok (deliver_eq _ _ _)]
    exact ⟨trivial, rfl⟩
  | locals mask =>
    obtain rfl := quiet.resolve_left (by simp)
    refine ⟨{ m with heap := (m.heap.retire f mask).2 }, Effect.eq_ok_of_ensures ?_⟩
    simp only [Effect.ensures_bind, Effect.ensures_get, undiverted, ensures_changeJob,
      ensures_retire, plain]
    rw [Effect.ensures_of_eq_ok (deliver_eq _ _ _)]
    exact ⟨trivial, rfl⟩

theorem leave_holds (m : Machine H W) (rest : List Frame) {entry : Nat}
    (diverted : f.diversion = some entry) (quiet : exit = .values ∨ vs = []) :
    ∃ m' : Machine H W, leave exit ⟨m, ⟨f :: rest, vs, none⟩⟩ =
      .ok () ⟨m', ⟨{ f with pendingReturn := some (exit.held vs), cursor := entry } :: rest, [],
        none⟩⟩ := by
  refine ⟨m.dispose f.returnedValues, Effect.eq_ok_of_ensures ?_⟩
  unfold leave holdExit
  simp only [Effect.ensures_bind, Effect.ensures_get, diverted]
  cases exit with
  | values => exact ⟨trivial, rfl⟩
  | locals mask =>
    obtain rfl := quiet.resolve_left (by simp)
    exact ⟨trivial, rfl⟩

/-- The frame below receives what the exit brings, or `null`; nothing else becomes of it. -/
theorem executeStep_given (runs : f.Runs u) (exits : f.exit? = some e)
    (undiverted : f.diversion = none) (plain : f.generator = none) :
    ∃ m' : Machine H W, executeStep host f ⟨m, ⟨f :: rest, [], none⟩⟩ =
      .ok () ⟨m', Job.given ⟨rest, [], none⟩ (e.brings f)⟩ := by
  have issues : Issues m f rest e (executeStep host f ⟨m, ⟨f :: rest, [], none⟩⟩) :=
    executeStep_exits runs exits
  obtain ⟨g, vs, exit, leaves, rfl, quiet, ran⟩ := issues
  obtain ⟨m', left⟩ := leave_given m rest (f := g)
    (leaves.diversion.trans undiverted) (leaves.generator.trans plain) quiet
  exact ⟨m', by rw [ran, left, PendingReturn.brings_congr leaves]⟩

theorem executeStep_holds (runs : f.Runs u) (exits : f.exit? = some e) {entry : Nat}
    (diverted : f.diversion = some entry) :
    ∃ (m' : Machine H W) (g : Frame), g.pendingReturn = some e ∧
      executeStep host f ⟨m, ⟨f :: rest, [], none⟩⟩ = .ok () ⟨m', ⟨g :: rest, [], none⟩⟩ := by
  have issues : Issues m f rest e (executeStep host f ⟨m, ⟨f :: rest, [], none⟩⟩) :=
    executeStep_exits runs exits
  obtain ⟨g, vs, exit, leaves, rfl, quiet, ran⟩ := issues
  obtain ⟨m', left⟩ := leave_holds m rest (f := g)
    (leaves.diversion.trans diverted) quiet
  exact ⟨m', _, rfl, ran.trans left⟩

theorem settle_given (m : Machine H W) (j : Job) {task : HostTask} {values : List Value}
    (result : task.result = .ok values) :
    settle task ⟨m, j⟩ =
      .ok () ⟨m, Job.given { j with channel := [], pending := none } (j.channel ++ values)⟩ := by
  refine Effect.eq_ok_of_ensures ?_
  unfold settle
  simp only [Effect.ensures_bind, ensures_changeJob, result, ensures_drainChannel]
  rw [Effect.ensures_of_eq_ok (deliver_eq _ _ _)]
  exact ⟨trivial, rfl⟩

end Session

end ScriptMachine
