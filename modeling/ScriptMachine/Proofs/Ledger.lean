import ScriptMachine.Proofs.Effect
import ScriptMachine.Proofs.Value.Light

/-!
# Operations that neither lose nor double an owner

A ledger says when the owners that are in a state, together with those in hand, account for all
objects. An operation conserves a ledger if it gives back as many owners as it takes: its caller
hands the values `takes` over and has the values `gives a` afterwards, or those that an error
carries. What else the caller has in hand stays there.

A steady operation has no failure but those that the ledger excuses, so its caller may have more in
hand meanwhile.
-/

set_option autoImplicit false

namespace ScriptMachine

structure Ledger (σ : Type) where
  /-- The owners in a state and in hand account for all objects. -/
  Settled : List Value → σ → Prop
  recount : ∀ {vs ws : List Value} {s : σ}, SameOwners vs ws → Settled vs s → Settled ws s
  /-- Failures after which nothing is claimed. -/
  Excused : Error → Prop

namespace Effect

variable {σ τ α β : Type} {L : Ledger σ} {op : Effect σ α} {next : α → Effect σ β}
  {takes extra : List Value} {gives : α → List Value} {gives' : β → List Value} {s : σ}

def handed (gives : α → List Value) : Except Error α → List Value
  | .ok a => gives a
  | .error e => e.carried

/-- A run from a state gives back as many owners as it takes. -/
def ConservesAt (L : Ledger σ) (takes : List Value) (op : Effect σ α) (gives : α → List Value)
    (s : σ) : Prop :=
  ∀ rest, L.Settled (takes ++ rest) s →
    op.Ensures s (fun a t => L.Settled (gives a ++ rest) t)
      (fun e t => L.Excused e ∨ L.Settled (e.carried ++ rest) t)

def Conserves (L : Ledger σ) (takes : List Value) (op : Effect σ α) (gives : α → List Value) : Prop :=
  ∀ s, ConservesAt L takes op gives s

/-- An operation gives back as many owners as it takes, and fails only in ways that are excused. -/
def Steady (L : Ledger σ) (takes : List Value) (op : Effect σ α) (gives : α → List Value) : Prop :=
  ∀ s rest, L.Settled (takes ++ rest) s →
    op.Ensures s (fun a t => L.Settled (gives a ++ rest) t) (fun e _ => L.Excused e)

/-- What is settled after a run whose failures are not excused. -/
theorem ConservesAt.outcome (conserves : ConservesAt L takes op gives s) (never : ∀ e, ¬ L.Excused e)
    {rest : List Value} (settled : L.Settled (takes ++ rest) s) :
    L.Settled (handed gives (op.outcome s).1 ++ rest) (op.outcome s).2 := by
  have done := conserves rest settled
  unfold Effect.outcome
  cases ran : op s with
  | ok a t => exact (ensures_of_eq_ok ran).mp done
  | error e t => exact ((ensures_of_eq_error ran).mp done).resolve_left (never e)

theorem Steady.conserves (steady : Steady L takes op gives) : Conserves L takes op gives :=
  fun s rest settled => (steady s rest settled).mono (fun _ _ done => done) fun _ _ => .inl

theorem Steady.beside (steady : Steady L takes op gives) (extra : List Value) :
    Steady L (takes ++ extra) op fun a => gives a ++ extra := by
  intro s rest settled
  rw [List.append_assoc] at settled
  exact (steady s _ settled).mono (fun _ _ done => by rwa [List.append_assoc]) fun _ _ excused =>
    excused

theorem Steady.recount {takes' : List Value} {gives' : α → List Value}
    (steady : Steady L takes op gives) (before : SameOwners takes' takes)
    (after : ∀ a, SameOwners (gives a) (gives' a)) : Steady L takes' op gives' :=
  fun s rest settled => (steady s rest (L.recount (before.append (.refl rest)) settled)).mono
    (fun a _ done => L.recount ((after a).append (.refl rest)) done) fun _ _ excused => excused

theorem Steady.bind_steady {mid : α → List Value} (first : Steady L takes op mid)
    (second : ∀ a, Steady L (mid a) (next a) gives') : Steady L takes (op >>= next) gives' := by
  intro s rest settled
  rw [ensures_bind]
  exact (first s rest settled).mono (fun a t done => second a t rest done) fun _ _ excused => excused

/-- Whatever a caller has in hand, it has after a steady operation. -/
theorem Steady.bind {mid : α → List Value} (first : Steady L takes op mid)
    (second : ∀ a, Conserves L (mid a) (next a) gives') :
    Conserves L takes (op >>= next) gives' := by
  intro s rest settled
  rw [ensures_bind]
  exact (first s rest settled).mono (fun a t done => second a t rest done) fun _ _ => .inl

theorem Steady.onFailure (steady : Steady L takes op gives) (change : σ → σ) :
    Steady L takes (op.onFailure change) gives :=
  fun s rest settled => (ensures_onFailure ..).mpr (steady s rest settled)

theorem Steady.pure (L : Ledger σ) (a : α) (gives : α → List Value) :
    Steady L (gives a) (pure a) gives := fun _ _ settled => settled

theorem Steady.modify {f : σ → σ} {gives : List Value}
    (step : ∀ rest s, L.Settled (takes ++ rest) s → L.Settled (gives ++ rest) (f s)) :
    Steady L takes (modify f : Effect σ PUnit) fun _ => gives := fun s rest settled =>
  step rest s settled

namespace Conserves

theorem recount {takes' : List Value} {gives' : α → List Value}
    (conserves : Conserves L takes op gives) (before : SameOwners takes' takes)
    (after : ∀ a, SameOwners (gives a) (gives' a)) : Conserves L takes' op gives' :=
  fun s rest settled => (conserves s rest (L.recount (before.append (.refl rest)) settled)).mono
    (fun a _ done => L.recount ((after a).append (.refl rest)) done) fun _ _ failed => failed

theorem bind {mid : α → List Value} (first : Conserves L takes op mid)
    (second : ∀ a, Conserves L (mid a) (next a) gives') :
    Conserves L takes (op >>= next) gives' := by
  intro s rest settled
  rw [ensures_bind]
  exact (first s rest settled).mono (fun a t done => second a t rest done) fun _ _ failed => failed

theorem map {f : α → β} (conserves : Conserves L takes op fun a => gives' (f a)) :
    Conserves L takes (f <$> op) gives' :=
  fun s rest settled => (ensures_map ..).mpr (conserves s rest settled)

theorem get_bind {next : σ → Effect σ α} (rest : ∀ s, ConservesAt L takes (next s) gives s) :
    Conserves L takes (get >>= next) gives := rest

theorem pure {a : α} (same : SameOwners takes (gives a)) : Conserves L takes (pure a) gives :=
  fun _ rest settled => L.recount (same.append (.refl rest)) settled

theorem throw {e : Error} (same : SameOwners takes e.carried) :
    Conserves L takes (throw e : Effect σ α) gives :=
  fun _ rest settled => .inr (L.recount (same.append (.refl rest)) settled)

theorem computes {x : Except Error α} (light : Light x) (bare : ∀ a, x = .ok a → Bare (gives a)) :
    Conserves L [] (liftM x : Effect σ α) gives := by
  intro s rest settled
  rw [ensures_liftM]
  cases found : x with
  | ok a => exact L.recount (fun y => by simp [bare a found y]) settled
  | error e => exact .inr (by simpa [light e found] using settled)

theorem andAlways {change : σ → σ} (conserves : Conserves L takes op gives)
    (letGo : ∀ rest s, L.Settled (extra ++ rest) s → L.Settled rest (change s)) :
    Conserves L (extra ++ takes) (op.andAlways change) gives := by
  intro s rest settled
  rw [ensures_andAlways]
  have moved : L.Settled (takes ++ (extra ++ rest)) s :=
    L.recount (fun x => by simp only [tally_append]; omega) settled
  refine (conserves s _ moved).mono (fun a t done => ?_) fun e t failed => failed.imp id fun done => ?_
  · exact letGo _ t (L.recount (fun x => by simp only [tally_append]; omega) done)
  · exact letGo _ t (L.recount (fun x => by simp only [tally_append]; omega) done)

theorem reads {x : Except Error α} (light : Light x) :
    Conserves L [] (liftM x : Effect σ α) fun _ => [] :=
  computes light fun _ _ _ => rfl

theorem onFailure {change : σ → σ} (conserves : Conserves L takes op gives)
    (letGo : ∀ rest s, L.Settled (extra ++ rest) s → L.Settled rest (change s)) :
    Conserves L (extra ++ takes) (op.onFailure change) fun a => extra ++ gives a := by
  intro s rest settled
  rw [ensures_onFailure]
  have moved : L.Settled (takes ++ (extra ++ rest)) s :=
    L.recount (fun x => by simp only [tally_append]; omega) settled
  refine (conserves s _ moved).mono (fun a t done => ?_) fun e t failed => failed.imp id fun done => ?_
  · exact L.recount (fun x => by simp only [tally_append]; omega) done
  · exact letGo _ t (L.recount (fun x => by simp only [tally_append]; omega) done)

theorem onPart {K : Ledger τ} {read : σ → τ} {write : τ → σ → σ} {op : Effect τ α}
    (conserves : Conserves K takes op gives) (excused : ∀ e, K.Excused e → L.Excused e)
    (split : ∀ out s, L.Settled out s → ∃ elsewhere, K.Settled (out ++ elsewhere) (read s) ∧
      ∀ vs t, K.Settled (vs ++ elsewhere) t → L.Settled vs (write t s)) :
    Conserves L takes (op.onPart read write) gives := by
  intro s rest settled
  rw [ensures_onPart]
  obtain ⟨elsewhere, inner, back⟩ := split _ s settled
  rw [List.append_assoc] at inner
  refine (conserves _ _ inner).mono (fun a t done => ?_) fun e t failed => ?_
  · rw [← List.append_assoc] at done
    exact back _ t done
  · rcases failed with failed | done
    · exact .inl (excused e failed)
    · rw [← List.append_assoc] at done
      exact .inr (back _ t done)

end Conserves

end Effect

end ScriptMachine
