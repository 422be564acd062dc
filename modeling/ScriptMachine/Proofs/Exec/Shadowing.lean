import ScriptMachine.Exec.Instruction
import ScriptMachine.Proofs.Effect

/-!
# Shadowed bindings

The slots of a frame share one list of saved bindings, which a restoration searches from its latest
entry and shortens in the middle. `SlotStack` is a slot that has a stack to itself. Whatever is done
to the slots of a frame in whatever order, each of them is the `SlotStack` that its own acts make of
it, so a restoration brings back what the latest save parked that no restoration has undone.
-/

set_option autoImplicit false

namespace ScriptMachine

/-- What is done to a slot. -/
inductive SlotAct where
  | update (v : Value)
  /-- The binding is moved out. -/
  | take
  | save
  | restore
deriving DecidableEq, Repr

structure SlotStack where
  binding : Value
  saved : List Value
deriving DecidableEq, Repr

structure SlotChange where
  slot : SlotStack
  handed : Option Value := none
  dropped : Option Value := none
deriving DecidableEq, Repr

namespace SlotStack

def change? (s : SlotStack) : SlotAct → Option SlotChange
  | .update v => some { slot := { s with binding := v }, dropped := some s.binding }
  | .take => some { slot := { s with binding := .null }, handed := some s.binding }
  | .save => some { slot := ⟨.null, s.binding :: s.saved⟩ }
  | .restore =>
    match s.saved with
    | [] => none
    | v :: rest => some { slot := ⟨v, rest⟩, dropped := some s.binding }

def next (s : SlotStack) (act : SlotAct) : SlotStack :=
  match s.change? act with
  | some change => change.slot
  | none => s

/-- The slot after acts in a row. -/
def run (s : SlotStack) (acts : List SlotAct) : SlotStack := acts.foldl next s

inductive Settled : Nat → List SlotAct → Prop
  | nil : Settled 0 []
  | plain {k : Nat} {act : SlotAct} {rest : List SlotAct} (noSave : act ≠ .save)
      (noRestore : act ≠ .restore) (others : Settled k rest) : Settled k (act :: rest)
  | pair {k : Nat} {inner rest : List SlotAct} (undone : Settled 0 inner) (others : Settled k rest) :
      Settled k (.save :: inner ++ .restore :: rest)
  | deeper {k : Nat} {rest : List SlotAct} (others : Settled k rest) :
      Settled (k + 1) (.restore :: rest)

inductive Parked (s : SlotStack) : List SlotAct → Value → Prop
  | inside {earlier later : List SlotAct} (undone : Settled 0 later) :
      Parked s (earlier ++ .save :: later) (s.run earlier).binding
  | before {acts : List SlotAct} {k : Nat} {v : Value} (settled : Settled k acts)
      (kept : s.saved[k]? = some v) : Parked s acts v

variable {s : SlotStack} {acts more : List SlotAct} {v : Value} {k : Nat}

theorem run_append : s.run (acts ++ more) = (s.run acts).run more := List.foldl_append

theorem saved_next_of_plain {act : SlotAct} (noSave : act ≠ .save) (noRestore : act ≠ .restore) :
    (s.next act).saved = s.saved := by
  cases act with
  | update v => rfl
  | take => rfl
  | save => exact absurd rfl noSave
  | restore => exact absurd rfl noRestore

theorem saved_next_restore : (s.next .restore).saved = s.saved.tail := by
  obtain ⟨binding, saved⟩ := s
  cases saved <;> rfl

/-- Acts that undo their own saves use up as many saved bindings as they have other restorations. -/
theorem Settled.saved_run (settled : Settled k acts) :
    ∀ s : SlotStack, (s.run acts).saved = s.saved.drop k := by
  induction settled with
  | nil => exact fun s => rfl
  | plain noSave noRestore _ ih =>
    intro s
    exact (ih _).trans (by rw [saved_next_of_plain noSave noRestore])
  | @pair k inner rest _ _ undone others =>
    intro s
    have parked : ((s.next .save).run inner).saved = s.binding :: s.saved := undone _
    have back : (((s.next .save).run inner).next .restore).saved = s.saved := by
      rw [saved_next_restore, parked, List.tail_cons]
    calc
      (s.run (.save :: inner ++ .restore :: rest)).saved
        = ((((s.next .save).run inner).next .restore).run rest).saved := by
          rw [List.cons_append, run, List.foldl_cons, List.foldl_append, List.foldl_cons]
          rfl
      _ = s.saved.drop k := by rw [others, back]
  | @deeper k rest _ ih =>
    intro s
    exact (ih _).trans (by rw [saved_next_restore, List.drop_tail])

theorem Settled.split (settled : Settled (k + 1) acts) :
    ∃ inner rest, acts = inner ++ .restore :: rest ∧ Settled 0 inner ∧ Settled k rest := by
  generalize more : k + 1 = n at settled
  induction settled with
  | nil => cases more
  | @plain _ act _ noSave noRestore _ ih =>
    obtain ⟨inner, rest, rfl, undone, others⟩ := ih more
    exact ⟨act :: inner, rest, rfl, .plain noSave noRestore undone, others⟩
  | @pair _ first _ undone _ _ ih =>
    obtain ⟨inner, rest, rfl, undone', others⟩ := ih more
    exact ⟨.save :: first ++ .restore :: inner, rest, by simp, .pair undone undone', others⟩
  | @deeper _ rest others _ =>
    cases more
    exact ⟨[], rest, rfl, .nil, others⟩

theorem settled_or_open (acts : List SlotAct) :
    (∃ k, Settled k acts) ∨ ∃ earlier later, acts = earlier ++ .save :: later ∧ Settled 0 later := by
  induction acts with
  | nil => exact .inl ⟨0, .nil⟩
  | cons act rest ih =>
    rcases ih with ⟨k, settled⟩ | ⟨earlier, later, rfl, undone⟩
    · by_cases saves : act = .save
      · subst saves
        -- a save in front is undone by the first restoration that the rest has to spare
        cases k with
        | zero => exact .inr ⟨[], rest, rfl, settled⟩
        | succ k =>
          obtain ⟨inner, others, rfl, undone, settled⟩ := settled.split
          exact .inl ⟨k, .pair undone settled⟩
      · by_cases restores : act = .restore
        · subst restores
          exact .inl ⟨k + 1, .deeper settled⟩
        · exact .inl ⟨k, .plain saves restores settled⟩
    · exact .inr ⟨act :: earlier, later, rfl, undone⟩

theorem parked_iff : s.Parked acts v ↔ (s.run acts).saved.head? = some v := by
  have inside : ∀ {earlier later : List SlotAct}, Settled 0 later →
      (s.run (earlier ++ .save :: later)).saved.head? = some (s.run earlier).binding := by
    intro earlier later undone
    have saved : (((s.run earlier).next .save).run later).saved = _ := undone.saved_run _
    rw [run_append]
    exact congrArg List.head? saved
  constructor
  · intro parked
    cases parked with
    | inside undone => exact inside undone
    | before settled kept => rw [settled.saved_run, List.head?_drop, kept]
  · intro top
    rcases settled_or_open acts with ⟨k, settled⟩ | ⟨earlier, later, rfl, undone⟩
    · rw [settled.saved_run, List.head?_drop] at top
      exact .before settled top
    · rw [inside undone] at top
      cases top
      exact .inside undone

end SlotStack

/-! ## The shared list -/

namespace Frame

def savedIn (slot : Nat) (shadows : List (Nat × Value)) : List Value :=
  (shadows.filter fun entry => entry.1 = slot).map Prod.snd

def slotStack (f : Frame) (slot : Nat) : SlotStack :=
  ⟨f.locals.getD slot .null, savedIn slot f.shadows⟩

variable {slot other : Nat} {v : Value} {shadows rest : List (Nat × Value)} {f : Frame}

theorem savedIn_cons_self : savedIn slot ((slot, v) :: shadows) = v :: savedIn slot shadows := by
  simp [savedIn]

theorem savedIn_cons_ne (differs : other ≠ slot) :
    savedIn other ((slot, v) :: shadows) = savedIn other shadows := by
  simp [savedIn, Ne.symm differs]

theorem unshadow_eq_none (none : unshadow slot shadows = none) : savedIn slot shadows = [] := by
  induction shadows with
  | nil => rfl
  | cons entry shadows ih =>
    obtain ⟨s, w⟩ := entry
    rw [unshadow] at none
    split at none
    · cases none
    · rename_i differs
      rw [savedIn_cons_ne (Ne.symm differs), ih (Option.map_eq_none_iff.mp none)]

/-- A restoration takes the latest saved binding of its slot, and leaves those of other slots. -/
theorem unshadow_eq_some (found : unshadow slot shadows = some (v, rest)) :
    savedIn slot shadows = v :: savedIn slot rest ∧
      ∀ other, other ≠ slot → savedIn other rest = savedIn other shadows := by
  induction shadows generalizing rest with
  | nil => cases found
  | cons entry shadows ih =>
    obtain ⟨s, w⟩ := entry
    rw [unshadow] at found
    split at found
    · rename_i same
      cases same
      cases found
      exact ⟨savedIn_cons_self, fun other differs => (savedIn_cons_ne differs).symm⟩
    · rename_i differs
      obtain ⟨⟨v', others⟩, deeper, same⟩ := Option.map_eq_some_iff.mp found
      cases same
      obtain ⟨here, elsewhere⟩ := ih deeper
      refine ⟨?_, fun other away => ?_⟩
      · rw [savedIn_cons_ne (Ne.symm differs), savedIn_cons_ne (Ne.symm differs), here]
      · -- the entry in front stays, and counts for its own slot only
        by_cases entry : other = s
        · cases entry
          rw [savedIn_cons_self, savedIn_cons_self, elsewhere s away]
        · rw [savedIn_cons_ne entry, savedIn_cons_ne entry, elsewhere other away]

theorem swapLocal_of_lt (inside : slot < f.locals.length) (v : Value) :
    f.swapLocal slot v =
      .ok (f.locals.getD slot .null, { f with locals := f.locals.set slot v }) := by
  simp [swapLocal, inside]

end Frame

/-! ## Acts on a frame -/

namespace Exec

variable {H : Type} {c next : Context H} {slot other : Nat} {act : SlotAct} {change : SlotChange}

def actOn (slot : Nat) : SlotAct → Exec H (Option Value)
  | .update v => do
    storeLocal slot v
    return none
  | .take => do return some (← onFrame fun f => f.takeLocal slot)
  | .save => do
    changeFrame fun f => f.saveShadow slot
    return none
  | .restore => do
    restoreShadow slot
    return none

def afterActs {n : Nat} (c : Context H) (acts : List (Fin n × SlotAct)) : Context H :=
  acts.foldl (fun c (slot, act) => ((actOn slot act).outcome c).2) c

def actsOn {n : Nat} (slot : Fin n) (acts : List (Fin n × SlotAct)) : List SlotAct :=
  (acts.filter fun entry => entry.1 = slot).map Prod.snd

def unshadowed (c : Context H) (slot : Nat) : Error :=
  c.frame.malformed s!"no shadowed binding for slot {slot}"

/-- One slot is changed, and what was bound to it is disposed if it is dropped. All else stays: the
other slots with their saved bindings, the rest of the frame, the globals and the channel. -/
structure Changes (slot : Nat) (change : SlotChange) (c next : Context H) : Prop where
  here : next.frame.slotStack slot = change.slot
  elsewhere : ∀ other, other ≠ slot → next.frame.slotStack other = c.frame.slotStack other
  heap : next.heap = c.heap.disposeAll change.dropped.toList
  rest : next = { c with
    heap := next.heap
    frame := { c.frame with locals := next.frame.locals, shadows := next.frame.shadows } }
  length : next.frame.locals.length = c.frame.locals.length

theorem changes_of_set {v : Value} {saved : List Value} {shadows : List (Nat × Value)}
    {handed dropped : Option Value} (inside : slot < c.frame.locals.length)
    (here : Frame.savedIn slot shadows = saved)
    (elsewhere : ∀ other, other ≠ slot →
      Frame.savedIn other shadows = Frame.savedIn other c.frame.shadows) :
    Changes slot { slot := ⟨v, saved⟩, handed, dropped } c
      { c with
        heap := c.heap.disposeAll dropped.toList
        frame := { c.frame with locals := c.frame.locals.set slot v, shadows } } where
  here := by simp [Frame.slotStack, inside, here]
  elsewhere := by
    intro other differs
    simp [Frame.slotStack, elsewhere other differs, Ne.symm differs]
  heap := rfl
  rest := rfl
  length := List.length_set

theorem actOn_spec (inside : slot < c.frame.locals.length) (act : SlotAct) :
    match (c.frame.slotStack slot).change? act with
    | some change => ∃ next, actOn slot act c = .ok change.handed next ∧ Changes slot change c next
    | none => actOn slot act c = .error (unshadowed c slot) c := by
  cases act with
  | update v =>
    refine ⟨_, Effect.eq_ok_of_ensures ?_, changes_of_set inside rfl fun _ _ => rfl⟩
    simp only [actOn, storeLocal, Effect.ensures_bind, Effect.ensures_get,
      Frame.swapLocal_of_lt inside, Effect.ensures_modify, Effect.ensures_pure]
    exact ⟨trivial, rfl⟩
  | take =>
    refine ⟨_, Effect.eq_ok_of_ensures ?_, changes_of_set inside rfl fun _ _ => rfl⟩
    simp only [actOn, onFrame, Frame.takeLocal, Effect.ensures_bind, Effect.ensures_get,
      Frame.swapLocal_of_lt inside, Effect.ensures_liftM, Effect.ensures_set, Effect.ensures_pure]
    exact ⟨rfl, rfl⟩
  | save =>
    refine ⟨_, Effect.eq_ok_of_ensures ?_,
      changes_of_set inside Frame.savedIn_cons_self fun _ => Frame.savedIn_cons_ne⟩
    simp only [actOn, changeFrame, onFrame, Frame.saveShadow, Frame.takeLocal, Effect.ensures_bind,
      Effect.ensures_get, Frame.swapLocal_of_lt inside, Effect.ensures_liftM, Effect.ensures_set,
      Effect.ensures_pure]
    exact ⟨trivial, rfl⟩
  | restore =>
    cases found : Frame.unshadow slot c.frame.shadows with
    | none =>
      have empty := Frame.unshadow_eq_none found
      simp only [SlotStack.change?, Frame.slotStack, empty]
      apply Effect.eq_error_of_ensures
      simp only [actOn, restoreShadow, onFrame, Frame.restoreShadow, found, Effect.ensures_bind,
        Effect.ensures_get, Effect.ensures_liftM]
      exact ⟨rfl, trivial⟩
    | some parked =>
      obtain ⟨v, rest⟩ := parked
      obtain ⟨here, elsewhere⟩ := Frame.unshadow_eq_some found
      have swapped := Frame.swapLocal_of_lt (f := { c.frame with shadows := rest }) inside v
      simp only [SlotStack.change?, Frame.slotStack, here]
      refine ⟨_, Effect.eq_ok_of_ensures ?_, changes_of_set inside rfl elsewhere⟩
      simp only [actOn, restoreShadow, onFrame, Frame.restoreShadow, found, swapped,
        Effect.ensures_bind, Effect.ensures_get, Effect.ensures_liftM, Effect.ensures_set,
        Effect.ensures_modify, Effect.ensures_pure]
      exact ⟨trivial, rfl⟩

theorem slotStack_outcome (inside : slot < c.frame.locals.length) (act : SlotAct) :
    ((actOn slot act).outcome c).2.frame.locals.length = c.frame.locals.length ∧
      ((actOn slot act).outcome c).2.frame.slotStack slot = (c.frame.slotStack slot).next act ∧
      ∀ other, other ≠ slot →
        ((actOn slot act).outcome c).2.frame.slotStack other = c.frame.slotStack other := by
  have spec := actOn_spec inside act
  unfold SlotStack.next Effect.outcome
  cases changed : (c.frame.slotStack slot).change? act with
  | none =>
    rw [changed] at spec
    simp only [show actOn slot act c = _ from spec]
    exact ⟨trivial, trivial, fun _ _ => trivial⟩
  | some change =>
    rw [changed] at spec
    obtain ⟨next, ran, changes⟩ := spec
    simp only [ran]
    exact ⟨changes.length, changes.here, changes.elsewhere⟩

theorem slotStack_afterActs {n : Nat} (acts : List (Fin n × SlotAct)) :
    ∀ c : Context H, c.frame.locals.length = n →
      (afterActs c acts).frame.locals.length = n ∧
        ∀ slot : Fin n, (afterActs c acts).frame.slotStack slot =
          (c.frame.slotStack slot).run (actsOn slot acts) := by
  induction acts with
  | nil => exact fun c size => ⟨size, fun slot => rfl⟩
  | cons entry acts ih =>
    intro c size
    obtain ⟨target, act⟩ := entry
    obtain ⟨same, here, elsewhere⟩ := slotStack_outcome (Nat.lt_of_lt_of_eq target.isLt size.symm) act
    obtain ⟨size', own⟩ := ih ((actOn target act).outcome c).2 (same.trans size)
    refine ⟨size', fun slot => (own slot).trans ?_⟩
    by_cases hit : target = slot
    · subst hit
      rw [here]
      simp [actsOn, SlotStack.run]
    · rw [elsewhere slot fun same => hit (Fin.ext same.symm)]
      simp [actsOn, hit]

/-- After acts on the declared slots of a frame, a slot stands as if it had a stack to itself. -/
structure OwnStack {n : Nat} (c : Context H) (acts : List (Fin n × SlotAct)) (slot : Fin n) :
    Prop where
  own : (afterActs c acts).frame.slotStack slot = (c.frame.slotStack slot).run (actsOn slot acts)
  /-- The next act finds it so and changes it alone, or fails and changes nothing. -/
  next : ∀ act,
    match ((c.frame.slotStack slot).run (actsOn slot acts)).change? act with
    | some change => ∃ next, actOn slot act (afterActs c acts) = .ok change.handed next ∧
        Changes slot change (afterActs c acts) next
    | none => actOn slot act (afterActs c acts) =
        .error (unshadowed (afterActs c acts) slot) (afterActs c acts)
  /-- A restoration brings back what the latest save parked that is not undone, and disposes the
  binding that it replaces. -/
  restores : ∀ v, (c.frame.slotStack slot).Parked (actsOn slot acts) v ↔
    ∃ saved next, actOn slot .restore (afterActs c acts) = .ok none next ∧
      Changes slot
        { slot := ⟨v, saved⟩, dropped := some ((afterActs c acts).frame.slotStack slot).binding }
        (afterActs c acts) next
  /-- It fails exactly if every save is undone, and then it changes nothing. -/
  refuses : (∀ v, ¬ (c.frame.slotStack slot).Parked (actsOn slot acts) v) ↔
    actOn slot .restore (afterActs c acts) =
      .error (unshadowed (afterActs c acts) slot) (afterActs c acts)

/-- The slots of a frame do not disturb each other: whatever was done to them in whatever order,
each has its saved bindings to itself. -/
theorem shadowing_own_stacks (c : Context H)
    (acts : List (Fin c.frame.locals.length × SlotAct)) (slot : Fin c.frame.locals.length) :
    OwnStack c acts slot := by
  obtain ⟨size, own⟩ := slotStack_afterActs acts c rfl
  have spec := fun act => actOn_spec (Nat.lt_of_lt_of_eq slot.isLt size.symm) act
  rw [own slot] at spec
  have restoration := spec .restore
  cases saved : ((c.frame.slotStack slot).run (actsOn slot acts)).saved with
  | nil =>
    simp only [SlotStack.change?, saved] at restoration
    have undone : ∀ v, ¬ (c.frame.slotStack slot).Parked (actsOn slot acts) v := by
      intro v parked
      rw [SlotStack.parked_iff, saved] at parked
      cases parked
    refine ⟨own slot, spec, fun v => iff_of_false (undone v) ?_, iff_of_true undone restoration⟩
    rintro ⟨_, next, ran, -⟩
    rw [restoration] at ran
    cases ran
  | cons top rest =>
    simp only [SlotStack.change?, saved] at restoration
    obtain ⟨next, ran, changes⟩ := restoration
    have parked : ∀ v, (c.frame.slotStack slot).Parked (actsOn slot acts) v ↔ top = v := by
      intro v
      rw [SlotStack.parked_iff, saved, List.head?_cons, Option.some.injEq]
    refine ⟨own slot, spec, fun v => (parked v).trans ⟨?_, ?_⟩, iff_of_false ?_ ?_⟩
    · rintro rfl
      exact ⟨rest, next, ran, (own slot).symm ▸ changes⟩
    · rintro ⟨saved', next', ran', changes'⟩
      rw [ran] at ran'
      cases ran'
      exact congrArg SlotStack.binding (changes.here.symm.trans changes'.here)
    · intro undone
      exact undone top ((parked top).mpr rfl)
    · rw [ran]
      intro same
      cases same

example :
    let acts : List (Fin 2 × SlotAct) :=
      [(0, .save), (1, .save), (0, .update (.int 7)), (0, .restore), (1, .restore), (1, .restore)]
    let c : Context Unit :=
      { heap := {}, globals := {}, channel := []
        frame := { locals := [.int 1, .int 2], capacity := 2 } }
    (afterActs c acts).frame.locals = [.int 1, .int 2] ∧ (afterActs c acts).frame.shadows = [] := by
  decide

end Exec

end ScriptMachine
