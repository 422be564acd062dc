import ScriptMachine.Machine.Load
import ScriptMachine.Proofs.Machine.Driving

/-!
# More fuel

An operation that has a result leads another one, which is given more and more fuel, to that result:
from some fuel on the other one has it too. The steps of a load are led to their results by
themselves, so a load that ends does not depend on the fuel.
-/

set_option autoImplicit false

namespace ScriptMachine

namespace Fueled

variable {σ τ α β : Type}

/-- From states with `I`, a result of `op` is the result of `op'` from some fuel on. -/
def Leads (I : σ → Prop) (op : Fueled σ α) (op' : Nat → Fueled σ α) : Prop :=
  ∀ s, I s → ∀ x, op s = some x → ∃ enough, ∀ fuel, enough ≤ fuel → op' fuel s = some x

variable {I J : σ → Prop} {op : Fueled σ α} {op' : Nat → Fueled σ α}

theorem Leads.refl (op : Fueled σ α) : Leads I op fun _ => op :=
  fun _ _ _ ran => ⟨0, fun _ _ => ran⟩

theorem Leads.mono (leads : Leads J op op') (less : ∀ s, I s → J s) : Leads I op op' :=
  fun s here => leads s (less s here)

theorem Leads.bind {next : α → Fueled σ β} {next' : Nat → α → Fueled σ β} (first : Leads I op op')
    (between : ∀ s, I s → op.Ensures s (fun _ => J) fun _ _ => True)
    (rest : ∀ a, Leads J (next a) fun fuel => next' fuel a) :
    Leads I (op >>= next) fun fuel => op' fuel >>= next' fuel := by
  intro s here x ran
  rw [bind_apply] at ran
  cases begun : op s with
  | none =>
    rw [begun] at ran
    cases ran
  | some y =>
    obtain ⟨result, t⟩ := y
    obtain ⟨enough, same⟩ := first s here _ begun
    rw [begun] at ran
    cases result with
    | error e =>
      cases ran
      exact ⟨enough, fun fuel bound => by simp only [bind_apply, same fuel bound]⟩
    | ok a =>
      obtain ⟨enough', after⟩ := rest a t (between s here _ t begun) x ran
      refine ⟨max enough enough', fun fuel bound => ?_⟩
      simp only [bind_apply, same fuel (by omega)]
      exact after fuel (by omega)

theorem Leads.andThen {next : α → Fueled σ β} {next' : Nat → α → Fueled σ β}
    (first : Leads I op op')
    (rest : ∀ a, Leads (fun _ => True) (next a) fun fuel => next' fuel a) :
    Leads I (op >>= next) fun fuel => op' fuel >>= next' fuel := by
  refine first.bind (fun s _ => ?_) rest
  intro r t _
  cases r <;> trivial

/-- What needs no fuel, and then something else. -/
theorem Leads.after (op : Fueled σ α) {next : α → Fueled σ β} {next' : Nat → α → Fueled σ β}
    (rest : ∀ a, Leads (fun _ => True) (next a) fun fuel => next' fuel a) :
    Leads I (op >>= next) fun fuel => op >>= next' fuel := (Leads.refl op).andThen rest

theorem Leads.forM {ι : Type} {items : List ι} {body : ι → Fueled σ PUnit}
    {body' : Nat → ι → Fueled σ PUnit}
    (each : ∀ item, Leads (fun _ => True) (body item) fun fuel => body' fuel item) :
    Leads (fun _ => True) (items.forM body) fun fuel => items.forM (body' fuel) := by
  induction items with
  | nil => exact .refl _
  | cons item items ih =>
    simp only [List.forM_eq_forM, List.forM_cons] at ih ⊢
    exact (each item).andThen fun _ => ih

theorem Leads.within (leads : Leads I op op') (context : String) :
    Leads I (op.within context) fun fuel => (op' fuel).within context := by
  intro s here x ran
  obtain ⟨y, begun, rfl⟩ := Option.map_eq_some_iff.mp ran
  obtain ⟨enough, same⟩ := leads s here y begun
  refine ⟨enough, fun fuel bound => ?_⟩
  show (op' fuel s).map _ = _
  rw [same fuel bound]
  rfl

theorem Leads.onLarger {enter : τ → σ} {exit : σ → τ} {K : τ → Prop} (leads : Leads I op op')
    (enters : ∀ s, K s → I (enter s)) :
    Leads K (op.onLarger enter exit) fun fuel => (op' fuel).onLarger enter exit := by
  intro s here x ran
  obtain ⟨y, begun, rfl⟩ := Option.map_eq_some_iff.mp ran
  obtain ⟨enough, same⟩ := leads (enter s) (enters s here) y begun
  refine ⟨enough, fun fuel bound => ?_⟩
  show (op' fuel (enter s)).map _ = _
  rw [same fuel bound]
  rfl

theorem tryCatch_apply (op : Fueled σ α) (handler : Error → Fueled σ α) (s : σ) :
    tryCatch op handler s =
      match op s with
      | some (.error e, t) => handler e t
      | result => result := by
  show ExceptT.tryCatch op handler s = _
  simp only [ExceptT.tryCatch, ExceptT.mk, bind, StateT.bind]
  cases op s with
  | none => rfl
  | some y =>
    obtain ⟨result, t⟩ := y
    cases result <;> rfl

theorem Leads.tryCatch (leads : Leads I op op') (handler : Error → Fueled σ α) :
    Leads I (tryCatch op handler) fun fuel => MonadExcept.tryCatch (op' fuel) handler := by
  intro s here x ran
  rw [tryCatch_apply] at ran
  cases begun : op s with
  | none =>
    rw [begun] at ran
    cases ran
  | some y =>
    obtain ⟨enough, same⟩ := leads s here y begun
    refine ⟨enough, fun fuel bound => ?_⟩
    rw [begun] at ran
    simp only [tryCatch_apply, same fuel bound]
    exact ran

end Fueled

namespace Machine

variable {H W : Type} {host : Host H W}

theorem run_leads (fuel : Nat) :
    Fueled.Leads (fun _ => True) (Session.run host fuel) (Session.run host) := by
  intro s _ x ran
  refine ⟨fuel, fun more bound => ?_⟩
  obtain ⟨y, driven, rfl⟩ := Option.map_eq_some_iff.mp ran
  show (Session.drive host .blocking more none s).map _ = _
  rw [Session.drive_mono bound driven]
  rfl

theorem runUnbound_leads (fuel : Nat) (f : Function) :
    Fueled.Leads (fun _ => True) (runUnbound host fuel f) fun fuel => runUnbound host fuel f := by
  have started : ∀ unit : CodeUnit, Fueled.Leads (fun _ : Session H W => True)
      (liftM (Session.startUnit unit [] : SessionM H W Unit) >>= fun _ => Session.run host fuel)
      fun fuel => liftM (Session.startUnit unit [] : SessionM H W Unit) >>= fun _ =>
        Session.run host fuel := fun unit =>
    .after _ fun _ => run_leads fuel
  exact .after _ fun unit => ((started unit).onLarger fun _ here => here).andThen fun _ => .refl _

theorem loadStatics_leads (fuel : Nat) (mod : Module) :
    Fueled.Leads (fun _ => True) (loadStatics host fuel mod)
      fun fuel => loadStatics host fuel mod :=
  .forM fun d => ((runUnbound_leads fuel d.init).within _).andThen fun _ => .refl _

theorem loadInit_leads (fuel : Nat) (mod : Module) :
    Fueled.Leads (fun _ => True) (loadInit host fuel mod) fun fuel => loadInit host fuel mod := by
  unfold loadInit
  cases mod.init with
  | none => exact .refl _
  | some f => exact ((runUnbound_leads fuel f).within _).andThen fun _ => .refl _

theorem load_leads (fuel : Nat) (modules : List Module) :
    Fueled.Leads (fun _ => True) (load host fuel modules) fun fuel => load host fuel modules := by
  refine .after _ fun _ => .after _ fun _ => .after _ fun _ => ?_
  refine (Fueled.Leads.forM fun mod => loadStatics_leads fuel mod).andThen fun _ => ?_
  refine .after _ fun _ => .after _ fun _ => ?_
  exact .forM fun mod => loadInit_leads fuel mod

end Machine

end ScriptMachine
