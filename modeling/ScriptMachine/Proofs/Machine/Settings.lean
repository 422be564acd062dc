import ScriptMachine.Machine.Load
import ScriptMachine.Proofs.Machine.Upkeep

/-!
# Settings and notes of a machine last

Whatever a program, the embedding program or a loader does with a machine, its settings stay as they
are, and what was noted once is not forgotten. `Machine.Lasts` says so of a machine and what became
of it; runs and loads keep it.
-/

set_option autoImplicit false

namespace ScriptMachine

variable {H W α : Type}

/-- What is noted already is not noted again. -/
theorem Journal.note_of_mem {j : Journal} {topic : Topic} {severity : Severity}
    (mem : (topic, severity) ∈ j.notes) : j.note topic severity = j := by
  simp [note, mem]

theorem Journal.mem_of_note (j : Journal) (topic : Topic) (severity : Severity) :
    (topic, severity) ∈ (j.note topic severity).notes := by
  unfold note
  split
  · rename_i noted
    exact List.contains_iff_mem.mp noted
  · exact List.mem_cons_self ..

theorem Fueled.keeps_iff {σ : Type} {I : σ → Prop} {op : Fueled σ α} :
    op.Keeps I ↔ ∀ s, I s → ∀ x, op s = some x → I x.2 := by
  constructor
  · rintro keeps s here ⟨r, t⟩ ran
    have kept := keeps s here r t ran
    cases r <;> exact kept
  · intro keeps s here r t ran
    have kept := keeps s here (r, t) ran
    cases r <;> exact kept

namespace Session

variable {m : Machine H W} {host : Host H W}

/-! ## Runs -/

theorem tick_lasts (mode : Mode) (budget : Budget) : (tick host mode budget).Keeps (Lasts m) :=
  fun _ lasts => (tick_tends False.elim mode budget (Watch.holds_lasting lasts) False.elim).mono
    (fun _ _ holds => holds.lasts) fun _ _ failed => failed.2.lasts

theorem conclude_lasts (outcome : Except Error Outcome) :
    (conclude host outcome).Keeps (Lasts m) := fun _ lasts =>
  (conclude_tends host outcome (Watch.holds_lasting lasts)).mono (fun _ _ holds => holds.lasts)
    fun _ _ failed => failed.2.lasts

theorem runIn_lasts (mode : Mode) (fuel : Nat) (budget : Budget) :
    (runIn host mode fuel budget).Keeps (Lasts m) := by
  refine Fueled.keeps_iff.mpr fun s lasts x ran => ?_
  obtain ⟨⟨outcome, t⟩, driven, rfl⟩ := Option.map_eq_some_iff.mp ran
  have lasts : Lasts m t := (drives_of_drive driven).keeps (tick_lasts mode) lasts
  exact (conclude_lasts outcome t lasts).outcome

theorem startUnit_lasts (unit : CodeUnit) (args : List Value) :
    (startUnit unit args : SessionM H W Unit).Keeps (Lasts m) :=
  Watch.keeps_lasts fun _ => startUnit_tends unit args

theorem startPath_lasts (path : String) (args : List Value) :
    (startPath host path args).Keeps (Lasts m) :=
  Watch.keeps_lasts fun _ => startPath_tends False.elim path args

end Session

/-! ## Loads -/

namespace Machine

variable {m : Machine H W} {host : Host H W}

theorem define_lasts (path : String) (v : Value) (overwritable : Bool) :
    (define path v overwritable : MachineM H W Unit).Keeps m.Lasts := by
  refine .get_bind fun k lasts => ?_
  cases k.globals.define path v overwritable with
  | error e => exact ⟨lasts.config, lasts.notes⟩
  | ok bound =>
    have noted := lasts.note .globals .trace
    exact ⟨noted.config, noted.notes⟩

theorem alloc_lasts (o : Object H) : (alloc o : MachineM H W Value).Keeps m.Lasts :=
  fun _ lasts => ⟨lasts.config, lasts.notes⟩

theorem registerHost_lasts (path : String) (function : H) (overwritable : Bool) :
    (registerHost path function overwritable : MachineM H W Unit).Keeps m.Lasts :=
  (alloc_lasts _).bind fun _ => define_lasts _ _ _

theorem compile_lasts (f : Function) : (compile f : MachineM H W CodeUnit).Keeps m.Lasts := by
  refine Effect.Keeps.bind (fun _ lasts => lasts) fun k =>
    (Effect.Keeps.liftM _ _).bind fun unit => ?_
  exact (Effect.Keeps.modify fun _ lasts => lasts.note .fusion .debug).bind fun _ => .pure _ _

theorem addUnit_lasts (f : Function) : (addUnit f : MachineM H W CodeUnit).Keeps m.Lasts := by
  have added : ((compile f : MachineM H W CodeUnit) >>= fun unit =>
      modify (fun m => { m with units := m.units.insert unit.name unit }) >>= fun _ =>
      pure unit).Keeps m.Lasts :=
    (compile_lasts f).bind fun _ =>
      (Effect.Keeps.modify fun _ lasts => ⟨lasts.config, lasts.notes⟩).bind fun _ => .pure _ _
  refine Effect.Keeps.bind (fun _ lasts => lasts) fun k => ?_
  split
  · exact Effect.keeps_throw_bind _ _ _
  · exact added

theorem loadFunctions_lasts (mod : Module) :
    (loadFunctions mod : MachineM H W Unit).Keeps m.Lasts := by
  refine Effect.Keeps.bind (.forM fun f _ => ?_) fun _ => .modify fun _ lasts => lasts.note _ _
  refine Effect.Keeps.bind (fun k lasts => ?_) fun unit => (alloc_lasts _).bind fun _ =>
    define_lasts _ _ _
  rw [Effect.ensures_within]
  exact addUnit_lasts f k lasts

theorem loadData_lasts (mod : Module) : (loadData mod : MachineM H W Unit).Keeps m.Lasts := by
  refine .forM fun d _ => Effect.Keeps.bind (fun k lasts => ?_) fun _ => define_lasts _ _ _
  refine (Effect.ensures_onPart ..).mpr ?_
  exact (Effect.ensures_true _ _).mono (fun _ _ _ => ⟨lasts.config, lasts.notes⟩)
    fun _ _ _ => ⟨lasts.config, lasts.notes⟩

theorem loadEnums_lasts (mod : Module) : (loadEnums mod : MachineM H W Unit).Keeps m.Lasts :=
  .bind (.forM fun _ _ => .forM fun _ _ => define_lasts _ _ _) fun _ =>
    .modify fun _ lasts => lasts.note _ _

theorem inNewJob_lasts {op : Fueled (Session H W) α} (lasts : op.Keeps (Session.Lasts m)) :
    (inNewJob op).Keeps m.Lasts := by
  refine Fueled.keeps_iff.mpr fun k here x ran => ?_
  obtain ⟨⟨result, t⟩, within, rfl⟩ := Option.map_eq_some_iff.mp ran
  exact Fueled.keeps_iff.mp lasts ⟨k, {}⟩ here _ within

theorem runUnbound_lasts (fuel : Nat) (f : Function) :
    (runUnbound host fuel f).Keeps m.Lasts := by
  refine (Fueled.Keeps.lift (compile_lasts f)).bind fun unit =>
    (inNewJob_lasts ?_).bind fun outcome => ?_
  · exact (Fueled.Keeps.lift (Session.startUnit_lasts unit [])).bind fun _ =>
      Session.runIn_lasts .blocking fuel none
  · cases outcome with
    | completed values =>
      rintro k lasts r t ⟨⟩
      exact ⟨lasts.config, lasts.notes⟩
    | _ =>
      rintro k lasts r t ⟨⟩
      exact lasts

theorem loadStatics_lasts (fuel : Nat) (mod : Module) :
    (loadStatics host fuel mod).Keeps m.Lasts :=
  .forM fun d _ => ((runUnbound_lasts fuel d.init).within _).bind fun v =>
    .lift (define_lasts d.path v false)

theorem loadInit_lasts (fuel : Nat) (mod : Module) : (loadInit host fuel mod).Keeps m.Lasts := by
  unfold loadInit
  cases mod.init with
  | none => exact .pure _
  | some f =>
    refine ((runUnbound_lasts fuel f).within _).bind fun v => ?_
    rintro k lasts r t ⟨⟩
    have noted := lasts.note .globals .debug
    exact ⟨noted.config, noted.notes⟩

/-- A load leaves the settings as they are, whether it was done or not. -/
theorem load_lasts (fuel : Nat) (modules : List Module) :
    (load host fuel modules).Keeps m.Lasts := by
  refine .bind (.forM fun mod _ => .lift (loadFunctions_lasts mod)) fun _ => ?_
  refine .bind (fun k lasts => (Fueled.ensures_get ..).mpr lasts) fun k => ?_
  refine .bind (fun l lasts => (Fueled.ensures_liftExcept ..).mpr ?_) fun _ => ?_
  · cases checkReferences k.units <;> exact lasts
  · exact .bind (.forM fun mod _ => loadStatics_lasts fuel mod) fun _ =>
      .bind (.forM fun mod _ => .lift (loadData_lasts mod)) fun _ =>
      .bind (.forM fun mod _ => .lift (loadEnums_lasts mod)) fun _ =>
      .forM fun mod _ => loadInit_lasts fuel mod

end Machine

end ScriptMachine
