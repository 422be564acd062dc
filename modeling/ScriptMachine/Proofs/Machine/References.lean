import ScriptMachine.Proofs.Machine.Lives
import ScriptMachine.Proofs.Machine.Upkeep

/-!
# Jobs that miss no unit

A job whose code finds in the unit table whatever it names gets no error of a unit that is not
there, and no such error arrives at a frame; so code stays equipped, act by act.
-/

set_option autoImplicit false

namespace ScriptMachine

variable {H W α β : Type}

namespace Session

variable {host : Host H W} {units : UnitTable} {s : Session H W}

theorem executeStep_finds (mild : host.Mild) (uses : s.Uses units) {f : Frame} {u : CodeUnit}
    (runs : f.Runs u) (finds : u.Finds units) (held : f.deferral.Mild) :
    (executeStep host f).Ensures s (fun _ => Uses units)
      fun e t => e.lacksUnit = false ∧ t.Uses units :=
  (executeStep_tends (fun _ => mild) (Watch.holds_strict uses) fun _ => ⟨held, u, runs, finds⟩).mono
    (fun _ _ holds => holds.uses trivial) fun _ _ failed =>
      ⟨failed.1 trivial, failed.2.uses trivial⟩

theorem tick_finds (mild : host.Mild) (mode : Mode) (budget : Budget) (uses : s.Uses units)
    (equipped : s.Equipped units) :
    (tick host mode budget).Ensures s (fun _ => Uses units)
      fun e t => e.lacksUnit = false ∧ t.Uses units :=
  (tick_tends (fun _ => mild) mode budget (Watch.holds_strict uses) fun _ => equipped).mono
    (fun _ _ holds => holds.uses trivial) fun _ _ failed =>
      ⟨failed.1 trivial, failed.2.uses trivial⟩

theorem ensures_conclude (host : Host H W) (outcome : Except Error Outcome)
    (uses : s.Uses units) :
    (conclude host outcome).Ensures s (fun _ => Uses units)
      fun e t => (Mild outcome → e.lacksUnit = false) ∧ t.Uses units :=
  (conclude_tends host outcome (Watch.holds_strict uses)).mono
    (fun _ _ holds => holds.uses trivial) fun _ _ failed =>
      ⟨failed.1 trivial, failed.2.uses trivial⟩

end Session

/-- An act of a job that is equipped misses no unit, but may pass on what a run came to. -/
theorem Act.finds {host : Host H W} (mild : host.Mild) {units : UnitTable} (act : Act)
    {s : Session H W} (uses : s.Uses units) (equipped : s.Equipped units) :
    (act.op host).Ensures s (fun _ => Session.Uses units) fun e t =>
      ((∀ outcome, act = .conclude outcome → Mild outcome) → e.lacksUnit = false) ∧
        t.Uses units := by
  have finds : ∀ {op : SessionM H W Unit}, (∀ m, (Session.Watch.strict m units).Tends op) →
      op.Ensures s (fun _ => Session.Uses units) fun e t =>
        ((∀ outcome, act = .conclude outcome → Mild outcome) → e.lacksUnit = false) ∧
          t.Uses units := fun tends =>
    (Session.Watch.finds tends s uses).mono (fun _ _ uses => uses) fun _ _ failed =>
      ⟨fun _ => failed.1, failed.2⟩
  cases act with
  | callPath path args => exact finds fun _ => Session.startPath_tends (fun _ => mild) path args
  | callValue callee args =>
    exact finds fun _ =>
      Session.start_tends args (Session.invoke_tends (fun _ => mild) .null (by simp))
  | callUnit unit args => exact finds fun _ => Session.startUnit_tends unit args
  | resume x => exact finds fun _ => Session.advance_tends x 0
  | tick mode budget =>
    unfold Act.op
    rw [Effect.ensures_bind]
    exact (Session.tick_finds mild mode budget uses equipped).mono (fun _ _ uses => uses)
      fun _ _ failed => ⟨fun _ => failed.1, failed.2⟩
  | conclude outcome =>
    unfold Act.op
    rw [Effect.ensures_bind]
    exact (Session.ensures_conclude host outcome uses).mono (fun _ _ uses => uses)
      fun _ _ failed => ⟨fun passes => failed.1 (passes outcome rfl), failed.2⟩
  | teardown => exact finds fun _ => Session.teardown_tends

/-! ## What a tick brings to frames -/

namespace Session

variable {host : Host H W} {units : UnitTable} {s : Session H W} {n : Nat}

theorem struck_mild {e : Error} (mild : e.lacksUnit = false) {frames : List Frame} {e' : Error}
    (arrives : .left (.fails e') ∈ struck e frames n) : e'.lacksUnit = false := by
  unfold struck at arrives
  split at arrives
  · cases List.mem_singleton.mp arrives
    exact mild
  · cases arrives

theorem fails_not_mem_strideMoments (f : Frame) (s : Session H W) (e : Error) :
    .left (.fails e) ∉ strideMoments f s := by
  intro mem
  unfold strideMoments at mem
  split at mem
  · rename_i flow t _
    rcases List.mem_append.mp mem with early | issued
    · exact f.noExit_moments _ _ early
    · cases flow with
      | ret | returnLocals | finalize => cases List.mem_singleton.mp issued
      | _ => cases issued
  · exact f.noExit_moments _ _ mem

theorem fails_mild (mild : host.Mild) (uses : s.Uses units) (equipped : s.Equipped units)
    (act : Act) {e : Error} (arrives : .left (.fails e) ∈ act.moments host s n) :
    e.lacksUnit = false := by
  cases act with
  | tick mode budget =>
    simp only [Act.moments, tickMoments] at arrives
    split at arrives
    · rename_i task waits
      split at arrives
      · cases arrives
      · simp only [settleMoments] at arrives
        cases failed : task.result with
        | ok values => simp [failed] at arrives
        | error e' =>
          rw [failed] at arrives
          exact struck_mild (uses.task task waits e' failed) arrives
    · cases arrives
    · cases arrives
    · rename_i f _ _ frames _
      rcases List.mem_append.mp arrives with issued | struck
      · unfold atTop at issued
        split at issued
        · exact absurd issued (fails_not_mem_strideMoments f _ e)
        · cases issued
      · obtain ⟨held, u, runs, finds⟩ := equipped f (frames ▸ List.mem_cons_self)
        have steps := executeStep_finds mild uses runs finds held
        split at struck
        · cases struck
        · rename_i ran
          exact struck_mild ((Effect.ensures_of_eq_error ran).mp steps).1 struck
  | _ => cases arrives

end Session

end ScriptMachine
