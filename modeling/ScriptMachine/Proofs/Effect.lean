import ScriptMachine.Effect

/-!
# What an operation ensures

`op.Ensures s post fail` says what holds when `op` is run in the state `s`: `post` of its answer and
the state it reached, or `fail` of its error and that state. There is one rule for each way to build
an operation, so a run is followed by rewriting. `op.Keeps I` is the case of an invariant. Fueled
operations have the same two notions, which say nothing of a run that lacks fuel.
-/

set_option autoImplicit false

namespace ScriptMachine

/-! ## Chained results -/

section

variable {ε α β : Type} {x : Except ε α} {next : α → Except ε β}

/-- A chain that has a result got through both of its links. -/
theorem ok_of_bind {b : β} (ran : x >>= next = .ok b) : ∃ a, x = .ok a ∧ next a = .ok b := by
  cases x with
  | error e => cases ran
  | ok a => exact ⟨a, rfl, ran⟩

theorem error_of_bind {e : ε} (failed : x >>= next = .error e) :
    x = .error e ∨ ∃ a, x = .ok a ∧ next a = .error e := by
  cases x with
  | error e' =>
    cases failed
    exact .inl rfl
  | ok a => exact .inr ⟨a, rfl, failed⟩

end

namespace Effect

variable {σ τ α β : Type}

/-- The condition that a run of `op` from `s` meets, whether it fails or not. -/
def Ensures (op : Effect σ α) (s : σ) (post : α → σ → Prop) (fail : Error → σ → Prop) : Prop :=
  match op s with
  | .ok a s => post a s
  | .error e s => fail e s

theorem ensures_of_eq_ok {op : Effect σ α} {s t : σ} {a : α} {post : α → σ → Prop}
    {fail : Error → σ → Prop} (run : op s = .ok a t) : op.Ensures s post fail ↔ post a t := by
  rw [Ensures, run]

theorem ensures_of_eq_error {op : Effect σ α} {s t : σ} {e : Error} {post : α → σ → Prop}
    {fail : Error → σ → Prop} (run : op s = .error e t) : op.Ensures s post fail ↔ fail e t := by
  rw [Ensures, run]

theorem Ensures.mono {op : Effect σ α} {s : σ} {post post' : α → σ → Prop}
    {fail fail' : Error → σ → Prop} (h : op.Ensures s post fail)
    (weaker : ∀ a t, post a t → post' a t) (weakerFail : ∀ e t, fail e t → fail' e t) :
    op.Ensures s post' fail' := by
  cases run : op s with
  | ok a t => exact (ensures_of_eq_ok run).mpr (weaker a t ((ensures_of_eq_ok run).mp h))
  | error e t => exact (ensures_of_eq_error run).mpr (weakerFail e t ((ensures_of_eq_error run).mp h))

theorem Ensures.and {op : Effect σ α} {s : σ} {post post' : α → σ → Prop}
    {fail fail' : Error → σ → Prop} (one : op.Ensures s post fail) (two : op.Ensures s post' fail') :
    op.Ensures s (fun a t => post a t ∧ post' a t) (fun e t => fail e t ∧ fail' e t) := by
  cases run : op s with
  | ok a t =>
    exact (ensures_of_eq_ok run).mpr ⟨(ensures_of_eq_ok run).mp one, (ensures_of_eq_ok run).mp two⟩
  | error e t =>
    exact (ensures_of_eq_error run).mpr
      ⟨(ensures_of_eq_error run).mp one, (ensures_of_eq_error run).mp two⟩

/-- A condition that does not depend on how a run ended. -/
theorem Ensures.outcome {op : Effect σ α} {s : σ} {I : σ → Prop}
    (ensures : op.Ensures s (fun _ => I) (fun _ => I)) : I (op.outcome s).2 := by
  unfold Effect.outcome
  cases run : op s with
  | ok a t => exact (ensures_of_eq_ok run).mp ensures
  | error e t => exact (ensures_of_eq_error run).mp ensures

theorem ensures_of_outcome {op : Effect σ α} {s : σ} {I : σ → Prop} (h : I (op.outcome s).2) :
    op.Ensures s (fun _ => I) (fun _ => I) := by
  unfold Effect.outcome at h
  unfold Ensures
  cases run : op s <;> rw [run] at h <;> exact h

theorem ensures_true (op : Effect σ α) (s : σ) :
    op.Ensures s (fun _ _ => True) fun _ _ => True := by
  unfold Ensures
  split <;> trivial

/-- An answer that is worked on changes no state. -/
theorem outcome_bind_pure (op : Effect σ α) (f : α → β) (s : σ) :
    ((op >>= fun a => pure (f a)).outcome s).2 = (op.outcome s).2 := by
  unfold Effect.outcome
  simp only [bind, EStateM.bind, pure, EStateM.pure]
  cases op s <;> rfl

theorem eq_ok_of_ensures {op : Effect σ α} {s t : σ} {a : α}
    (h : op.Ensures s (fun a' t' => a' = a ∧ t' = t) (fun _ _ => False)) : op s = .ok a t := by
  cases run : op s with
  | ok a' t' =>
    obtain ⟨rfl, rfl⟩ := (ensures_of_eq_ok run).mp h
    rfl
  | error e t' => exact ((ensures_of_eq_error run).mp h).elim

theorem eq_error_of_ensures {op : Effect σ α} {s t : σ} {e : Error}
    (h : op.Ensures s (fun _ _ => False) (fun e' t' => e' = e ∧ t' = t)) : op s = .error e t := by
  cases run : op s with
  | ok a' t' => exact ((ensures_of_eq_ok run).mp h).elim
  | error e' t' =>
    obtain ⟨rfl, rfl⟩ := (ensures_of_eq_error run).mp h
    rfl

theorem eq_ok_of_outcome {op : Effect σ α} {s : σ} {a : α} (ok : (op.outcome s).1 = .ok a) :
    op s = .ok a (op.outcome s).2 := by
  unfold outcome at ok ⊢
  cases run : op s with
  | ok b t =>
    rw [run] at ok
    cases ok
    rfl
  | error e t =>
    rw [run] at ok
    cases ok

section Rules
variable (s : σ) (post : α → σ → Prop) (fail : Error → σ → Prop)

@[simp] theorem ensures_pure (a : α) : (pure a : Effect σ α).Ensures s post fail ↔ post a s :=
  Iff.rfl

@[simp] theorem ensures_throw (e : Error) :
    (throw e : Effect σ α).Ensures s post fail ↔ fail e s :=
  Iff.rfl

@[simp] theorem ensures_get (post : σ → σ → Prop) :
    (get : Effect σ σ).Ensures s post fail ↔ post s s :=
  Iff.rfl

@[simp] theorem ensures_set (t : σ) (post : PUnit → σ → Prop) :
    (set t : Effect σ PUnit).Ensures s post fail ↔ post ⟨⟩ t :=
  Iff.rfl

@[simp] theorem ensures_modify (f : σ → σ) (post : PUnit → σ → Prop) :
    (modify f : Effect σ PUnit).Ensures s post fail ↔ post ⟨⟩ (f s) :=
  Iff.rfl

@[simp] theorem ensures_bind (op : Effect σ α) (next : α → Effect σ β) (post : β → σ → Prop) :
    (op >>= next).Ensures s post fail ↔
      op.Ensures s (fun a t => (next a).Ensures t post fail) fail := by
  simp only [Ensures, bind, EStateM.bind]
  cases op s <;> rfl

@[simp] theorem ensures_map (op : Effect σ α) (f : α → β) (post : β → σ → Prop) :
    (f <$> op).Ensures s post fail ↔ op.Ensures s (fun a t => post (f a) t) fail := by
  simp only [Ensures, Functor.map, EStateM.map]
  cases op s <;> rfl

@[simp] theorem ensures_liftM (x : Except Error α) :
    (liftM x : Effect σ α).Ensures s post fail ↔
      match x with
      | .ok a => post a s
      | .error e => fail e s := by
  cases x <;> rfl

@[simp] theorem ensures_andAlways (op : Effect σ α) (change : σ → σ) :
    (op.andAlways change).Ensures s post fail ↔
      op.Ensures s (fun a t => post a (change t)) (fun e t => fail e (change t)) := by
  simp only [Ensures, andAlways]
  cases op s <;> rfl

@[simp] theorem ensures_onFailure (op : Effect σ α) (change : σ → σ) :
    (op.onFailure change).Ensures s post fail ↔
      op.Ensures s post (fun e t => fail e (change t)) := by
  simp only [Ensures, onFailure]
  cases op s <;> rfl

@[simp] theorem ensures_within (context : String) (op : Effect σ α) :
    (op.within context).Ensures s post fail ↔
      op.Ensures s post (fun e t => fail (e.within context) t) := by
  simp only [Ensures, within]
  cases op s <;> rfl

@[simp] theorem ensures_onPart (read : σ → τ) (write : τ → σ → σ) (op : Effect τ α) :
    (op.onPart read write).Ensures s post fail ↔
      op.Ensures (read s) (fun a t => post a (write t s)) (fun e t => fail e (write t s)) := by
  simp only [Ensures, onPart]
  cases op (read s) <;> rfl

theorem ensures_ite (c : Prop) [Decidable c] (op op' : Effect σ α) :
    (if c then op else op').Ensures s post fail ↔
      if c then op.Ensures s post fail else op'.Ensures s post fail := by
  by_cases h : c <;> simp [h]

end Rules

def Keeps (I : σ → Prop) (op : Effect σ α) : Prop :=
  ∀ s, I s → op.Ensures s (fun _ => I) (fun _ => I)

theorem Keeps.pure (I : σ → Prop) (a : α) : Keeps I (pure a : Effect σ α) := fun _ h => h

theorem Keeps.throw (I : σ → Prop) (e : Error) : Keeps I (throw e : Effect σ α) := fun _ h => h

theorem Keeps.liftM (I : σ → Prop) (x : Except Error α) : Keeps I (liftM x : Effect σ α) := by
  intro s h
  cases x <;> exact h

theorem Keeps.bind {I : σ → Prop} {op : Effect σ α} {next : α → Effect σ β} (first : Keeps I op)
    (second : ∀ a, Keeps I (next a)) : Keeps I (op >>= next) := by
  intro s h
  rw [ensures_bind]
  exact (first s h).mono (fun a t ht => second a t ht) (fun _ _ ht => ht)

theorem keeps_throw_bind (I : σ → Prop) (e : Error) (next : α → Effect σ β) :
    Keeps I ((throw e : Effect σ α) >>= next) := fun _ h => h

theorem Keeps.get_bind {I : σ → Prop} {next : σ → Effect σ α}
    (rest : ∀ s, I s → (next s).Ensures s (fun _ => I) (fun _ => I)) : Keeps I (get >>= next) :=
  fun s h => rest s h

theorem Keeps.modify {I : σ → Prop} {f : σ → σ} (step : ∀ s, I s → I (f s)) :
    Keeps I (modify f : Effect σ PUnit) := fun s h => step s h

theorem Keeps.andAlways {I : σ → Prop} {op : Effect σ α} {change : σ → σ} (first : Keeps I op)
    (step : ∀ s, I s → I (change s)) : Keeps I (op.andAlways change) := by
  intro s h
  rw [ensures_andAlways]
  exact (first s h).mono (fun _ t ht => step t ht) (fun _ t ht => step t ht)

theorem Keeps.forM {I : σ → Prop} {items : List τ} {body : τ → Effect σ PUnit}
    (each : ∀ item ∈ items, Keeps I (body item)) : Keeps I (items.forM body) := by
  induction items with
  | nil => exact .pure I _
  | cons item items ih =>
    obtain ⟨first, rest⟩ := List.forall_mem_cons.mp each
    exact first.bind fun _ => ih rest

def Answers (Q : α → Prop) (op : Effect σ α) : Prop :=
  ∀ s, op.Ensures s (fun a _ => Q a) (fun _ _ => True)

theorem Answers.pure {Q : α → Prop} {a : α} (h : Q a) : Answers Q (pure a : Effect σ α) :=
  fun _ => h

theorem Answers.throw {Q : α → Prop} (e : Error) : Answers Q (throw e : Effect σ α) :=
  fun _ => trivial

theorem Answers.bind {Q : β → Prop} {op : Effect σ α} {next : α → Effect σ β}
    (rest : ∀ a, Answers Q (next a)) : Answers Q (op >>= next) := by
  intro s
  rw [ensures_bind]
  cases run : op s with
  | ok a t => exact (ensures_of_eq_ok run).mpr (rest a t)
  | error e t => exact (ensures_of_eq_error run).mpr trivial

/-! ## Operations seen through a view of the state -/

def seen (view : σ → σ) : EStateM.Result Error σ α → EStateM.Result Error σ α
  | .ok a s => .ok a (view s)
  | .error e s => .error e (view s)

structure Mirrors (view : σ → σ) (I : σ → Prop) (op op' : Effect σ α) (s : σ) : Prop where
  same : op' (view s) = seen view (op s)
  keeps : op.Ensures s (fun _ => I) (fun _ => I)

namespace Mirrors

variable {view : σ → σ} {I J : σ → Prop} {s : σ}

theorem of_pure (inv : I s) (a : α) : Mirrors view I (pure a) (pure a) s := ⟨rfl, inv⟩

theorem of_throw (inv : I s) (e : Error) :
    Mirrors view I (throw e : Effect σ α) (throw e) s := ⟨rfl, inv⟩

theorem of_set {t t' : σ} (same : t' = view t) (inv : I t) :
    Mirrors view I (set t : Effect σ PUnit) (set t') s := by
  subst same
  exact ⟨rfl, inv⟩

theorem of_modify {f f' : σ → σ} (same : f' (view s) = view (f s)) (inv : I (f s)) :
    Mirrors view I (modify f : Effect σ PUnit) (modify f') s := by
  refine ⟨?_, inv⟩
  show EStateM.Result.ok _ (f' (view s)) = .ok _ (view (f s))
  rw [same]

theorem of_liftM {x x' : Except Error α} (same : x' = x) (inv : I s) :
    Mirrors view I (liftM x : Effect σ α) (liftM x') s := by
  subst same
  cases x' <;> exact ⟨rfl, inv⟩

theorem bind {op op' : Effect σ α} {next next' : α → Effect σ β}
    (first : Mirrors view I op op' s)
    (second : ∀ a t, I t → Mirrors view I (next a) (next' a) t) :
    Mirrors view I (op >>= next) (op' >>= next') s := by
  have same := first.same
  have keeps := first.keeps
  cases run : op s with
  | ok a t =>
    rw [run] at same
    have rest := second a t ((ensures_of_eq_ok run).mp keeps)
    refine ⟨?_, ?_⟩
    · show EStateM.bind op' next' (view s) = seen view (EStateM.bind op next s)
      simp only [EStateM.bind, same, run, seen]
      exact rest.same
    · rw [ensures_bind, ensures_of_eq_ok run]
      exact rest.keeps
  | error e t =>
    rw [run] at same
    refine ⟨?_, ?_⟩
    · show EStateM.bind op' next' (view s) = seen view (EStateM.bind op next s)
      simp only [EStateM.bind, same, run, seen]
    · rw [ensures_bind, ensures_of_eq_error run]
      exact (ensures_of_eq_error run).mp keeps

theorem get_bind {next next' : σ → Effect σ β}
    (second : Mirrors view I (next s) (next' (view s)) s) :
    Mirrors view I (get >>= next) (get >>= next') s := ⟨second.same, second.keeps⟩

theorem modify_bind {f f' : σ → σ} {next next' : PUnit → Effect σ β}
    (same : f' (view s) = view (f s))
    (second : Mirrors view I (next ⟨⟩) (next' ⟨⟩) (f s)) :
    Mirrors view I (modify f >>= next) (modify f' >>= next') s := by
  refine ⟨?_, second.keeps⟩
  show next' ⟨⟩ (f' (view s)) = seen view (next ⟨⟩ (f s))
  rw [same]
  exact second.same

/-- A pure reading that answers different things on both sides. -/
theorem liftM_bind {τ : Type} {x : Except Error α} {x' : Except Error τ}
    {next : α → Effect σ β} {next' : τ → Effect σ β} (g : α → τ) (same : x' = x.map g) (inv : I s)
    (second : ∀ a, x = .ok a → Mirrors view I (next a) (next' (g a)) s) :
    Mirrors view I (liftM x >>= next) (liftM x' >>= next') s := by
  subst same
  cases x with
  | error e => exact ⟨rfl, inv⟩
  | ok a => exact ⟨(second a rfl).same, (second a rfl).keeps⟩

theorem andAlways {op op' : Effect σ α} {change change' : σ → σ} (first : Mirrors view I op op' s)
    (step : ∀ t, I t → change' (view t) = view (change t) ∧ I (change t)) :
    Mirrors view I (op.andAlways change) (op'.andAlways change') s := by
  have same := first.same
  have keeps := first.keeps
  cases run : op s with
  | ok a t =>
    rw [run] at same
    obtain ⟨commutes, inv⟩ := step t ((ensures_of_eq_ok run).mp keeps)
    refine ⟨?_, ?_⟩
    · simp only [Effect.andAlways, same, run, seen, commutes]
    · rw [ensures_andAlways, ensures_of_eq_ok run]
      exact inv
  | error e t =>
    rw [run] at same
    obtain ⟨commutes, inv⟩ := step t ((ensures_of_eq_error run).mp keeps)
    refine ⟨?_, ?_⟩
    · simp only [Effect.andAlways, same, run, seen, commutes]
    · rw [ensures_andAlways, ensures_of_eq_error run]
      exact inv

theorem onFailure {op op' : Effect σ α} {change change' : σ → σ} (first : Mirrors view I op op' s)
    (step : ∀ t, I t → change' (view t) = view (change t) ∧ I (change t)) :
    Mirrors view I (op.onFailure change) (op'.onFailure change') s := by
  have same := first.same
  have keeps := first.keeps
  cases run : op s with
  | ok a t =>
    rw [run] at same
    refine ⟨?_, ?_⟩
    · simp only [Effect.onFailure, same, run, seen]
    · rw [ensures_onFailure, ensures_of_eq_ok run]
      exact (ensures_of_eq_ok run).mp keeps
  | error e t =>
    rw [run] at same
    obtain ⟨commutes, inv⟩ := step t ((ensures_of_eq_error run).mp keeps)
    refine ⟨?_, ?_⟩
    · simp only [Effect.onFailure, same, run, seen, commutes]
    · rw [ensures_onFailure, ensures_of_eq_error run]
      exact inv

theorem onPart {op op' : Effect τ α} {part : τ → τ} {K : τ → Prop} {read : σ → τ}
    {write : τ → σ → σ} (inner : Mirrors part K op op' (read s))
    (reads : read (view s) = part (read s))
    (writes : ∀ t, K t → write (part t) (view s) = view (write t s) ∧ I (write t s)) :
    Mirrors view I (op.onPart read write) (op'.onPart read write) s := by
  have same := inner.same
  have keeps := inner.keeps
  rw [← reads] at same
  cases run : op (read s) with
  | ok a t =>
    rw [run] at same
    obtain ⟨commutes, inv⟩ := writes t ((ensures_of_eq_ok run).mp keeps)
    refine ⟨?_, ?_⟩
    · simp only [Effect.onPart, same, run, seen, commutes]
    · rw [ensures_onPart, ensures_of_eq_ok run]
      exact inv
  | error e t =>
    rw [run] at same
    obtain ⟨commutes, inv⟩ := writes t ((ensures_of_eq_error run).mp keeps)
    refine ⟨?_, ?_⟩
    · simp only [Effect.onPart, same, run, seen, commutes]
    · rw [ensures_onPart, ensures_of_eq_error run]
      exact inv

/-- What an operation does is seen through the view whatever it is known to keep. -/
theorem strengthen {op op' : Effect σ α} (first : Mirrors view I op op' s)
    (keeps : op.Ensures s (fun _ => J) (fun _ => J)) : Mirrors view J op op' s :=
  ⟨first.same, keeps⟩

theorem outcome {op op' : Effect σ α} (mirrors : Mirrors view I op op' s) :
    op'.outcome (view s) = ((op.outcome s).1, view (op.outcome s).2) ∧ I (op.outcome s).2 := by
  have same := mirrors.same
  have keeps := mirrors.keeps
  unfold Effect.outcome
  cases run : op s with
  | ok a t =>
    rw [run] at same
    refine ⟨?_, (ensures_of_eq_ok run).mp keeps⟩
    rw [same]
    rfl
  | error e t =>
    rw [run] at same
    refine ⟨?_, (ensures_of_eq_error run).mp keeps⟩
    rw [same]
    rfl

end Mirrors

end Effect

namespace Fueled

variable {σ α β : Type}

/-! ## Operations with fuel -/

theorem bind_apply (op : Fueled σ α) (next : α → Fueled σ β) (s : σ) :
    (op >>= next) s =
      match op s with
      | some (.ok a, t) => next a t
      | some (.error e, t) => some (.error e, t)
      | none => none := by
  show ExceptT.bind op next s = _
  simp only [ExceptT.bind, ExceptT.mk, StateT.bind, bind]
  cases op s with
  | none => rfl
  | some r =>
    obtain ⟨result, t⟩ := r
    cases result <;> rfl

theorem lift_apply (op : Effect σ α) (s : σ) :
    (liftM op : Fueled σ α) s = some (op.outcome s) := rfl

theorem liftExcept_apply (x : Except Error α) (s : σ) :
    (liftM x : Fueled σ α) s = some (x, s) := by
  cases x <;> rfl

theorem get_apply (s : σ) : (get : Fueled σ σ) s = some (.ok s, s) := rfl

/-- The condition that a run of `op` from `s` meets if it has a result. -/
def Ensures (op : Fueled σ α) (s : σ) (post : α → σ → Prop) (fail : Error → σ → Prop) : Prop :=
  ∀ r t, op s = some (r, t) →
    match r with
    | .ok a => post a t
    | .error e => fail e t

theorem Ensures.mono {op : Fueled σ α} {s : σ} {post post' : α → σ → Prop}
    {fail fail' : Error → σ → Prop} (h : op.Ensures s post fail)
    (weaker : ∀ a t, post a t → post' a t) (weakerFail : ∀ e t, fail e t → fail' e t) :
    op.Ensures s post' fail' := by
  intro r t ran
  have holds := h r t ran
  cases r with
  | ok a => exact weaker a t holds
  | error e => exact weakerFail e t holds

section Rules
variable (s : σ) (post : α → σ → Prop) (fail : Error → σ → Prop)

theorem ensures_get (post : σ → σ → Prop) :
    (get : Fueled σ σ).Ensures s post fail ↔ post s s := by
  unfold Ensures
  rw [get_apply]
  simp

theorem ensures_lift (op : Effect σ α) :
    (liftM op : Fueled σ α).Ensures s post fail ↔ op.Ensures s post fail := by
  simp only [Ensures, lift_apply, Effect.outcome, Effect.Ensures]
  cases op s <;> simp

theorem ensures_liftExcept (x : Except Error α) :
    (liftM x : Fueled σ α).Ensures s post fail ↔
      match x with
      | .ok a => post a s
      | .error e => fail e s := by
  simp only [Ensures, liftExcept_apply]
  cases x <;> simp

theorem ensures_bind (op : Fueled σ α) (next : α → Fueled σ β) (post : β → σ → Prop) :
    (op >>= next).Ensures s post fail ↔
      op.Ensures s (fun a t => (next a).Ensures t post fail) fail := by
  simp only [Ensures, bind_apply]
  cases op s with
  | none => simp
  | some r =>
    obtain ⟨result, t⟩ := r
    cases result <;> simp

theorem ensures_onLarger {τ : Type} (enter : σ → τ) (exit : τ → σ) (op : Fueled τ α) :
    (op.onLarger enter exit).Ensures s post fail ↔
      op.Ensures (enter s) (fun a t => post a (exit t)) (fun e t => fail e (exit t)) := by
  simp only [Ensures, onLarger]
  cases op (enter s) with
  | none => simp
  | some r =>
    obtain ⟨result, t⟩ := r
    cases result <;> simp

end Rules

theorem ensures_forM_lift {τ : Type} (body : τ → Effect σ PUnit) (fail : Error → σ → Prop) :
    ∀ (items : List τ) (s : σ) (post : PUnit → σ → Prop),
      (items.forM fun item => (liftM (body item) : Fueled σ PUnit)).Ensures s post fail ↔
        (items.forM body).Ensures s post fail
  | [], s, post => ensures_lift s post fail (pure ⟨⟩)
  | item :: items, s, post => by
    simp only [List.forM_eq_forM, List.forM_cons]
    rw [ensures_bind, ensures_lift, Effect.ensures_bind]
    simp only [← List.forM_eq_forM, ensures_forM_lift body fail items]

def Keeps (I : σ → Prop) (op : Fueled σ α) : Prop :=
  ∀ s, I s → op.Ensures s (fun _ => I) (fun _ => I)

section Invariants
variable {I : σ → Prop}

theorem Keeps.pure (a : α) : Keeps I (pure a : Fueled σ α) := by
  intro s h r t ran
  cases ran
  exact h

theorem Keeps.lift {op : Effect σ α} (keeps : op.Keeps I) : Keeps I (liftM op : Fueled σ α) :=
  fun s h => (ensures_lift ..).mpr (keeps s h)

theorem Keeps.bind {op : Fueled σ α} {next : α → Fueled σ β} (first : Keeps I op)
    (second : ∀ a, Keeps I (next a)) : Keeps I (op >>= next) := by
  intro s h
  rw [ensures_bind]
  exact (first s h).mono (fun a t h => second a t h) fun _ _ h => h

theorem Keeps.within {op : Fueled σ α} (keeps : Keeps I op) (context : String) :
    Keeps I (op.within context) := by
  intro s h r t ran
  obtain ⟨⟨result, t⟩, ran, same⟩ := Option.map_eq_some_iff.mp ran
  cases same
  have kept := keeps s h result t ran
  cases result <;> exact kept

theorem Keeps.forM {τ : Type} {items : List τ} {body : τ → Fueled σ PUnit}
    (each : ∀ item ∈ items, Keeps I (body item)) : Keeps I (items.forM body) := by
  induction items with
  | nil => exact .pure _
  | cons item items ih =>
    obtain ⟨first, rest⟩ := List.forall_mem_cons.mp each
    exact first.bind fun _ => ih rest

end Invariants

end Fueled

end ScriptMachine
