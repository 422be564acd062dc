import ScriptMachine.Exec.Action
import ScriptMachine.Proofs.Heap.Copies

/-!
# Instructions conserve owners

What an instruction takes off the operand stack it puts somewhere else: into a slot, an object or
the channel, or back on the stack, or it lets it go, also if it fails. The one exception is an
instruction that runs out of operands: those that it had taken by then are lost.
-/

set_option autoImplicit false

namespace ScriptMachine

/-! ## Frames -/

def Error.Underflow (e : Error) : Prop := ∃ unit, e = .malformed unit "operand stack underflow"

namespace Frame

variable {f g : Frame} {v w : Value}

theorem tally_held (f : Frame) (x : Handle) :
    tally x f.held = tally x f.locals + tally x f.stack + tally x (f.shadows.map Prod.snd) +
      tally x f.pendingValues + f.this.owners x + f.closure.owners x := by
  simp only [held, tally_append, tally_reverse, List.map_reverse, tally_cons, tally_nil]
  omega

theorem pop_deals (popped : f.pop = .ok (v, g)) : SameOwners f.held (g.held ++ [v]) := by
  intro x
  unfold pop at popped
  cases stack : f.stack with
  | nil => simp [stack] at popped
  | cons w rest =>
    simp only [stack, Except.ok.injEq, Prod.mk.injEq] at popped
    obtain ⟨rfl, rfl⟩ := popped
    simp only [tally_append, tally_held, stack, tally_cons, tally_nil, pendingValues, returnedValues,
      thrownValues]
    omega

theorem pop_fails {e : Error} (failed : f.pop = .error e) : e.Underflow := by
  unfold pop at failed
  split at failed <;> cases failed
  exact ⟨_, rfl⟩

theorem peek_fails {e : Error} (failed : f.peek = .error e) : e.Underflow := by
  unfold peek at failed
  split at failed <;> cases failed
  exact ⟨_, rfl⟩

theorem popN_deals {n : Nat} {vs : List Value} (popped : f.popN n = .ok (vs, g)) :
    SameOwners f.held (g.held ++ vs) := by
  intro x
  unfold popN at popped
  split at popped <;> cases popped
  have stack : tally x f.stack = tally x (f.stack.take n) + tally x (f.stack.drop n) := by
    rw [← tally_append, List.take_append_drop]
  simp only [tally_append, tally_held, tally_reverse, pendingValues, returnedValues, thrownValues]
  omega

theorem popN_fails {n : Nat} {e : Error} (failed : f.popN n = .error e) : e.Underflow := by
  unfold popN at failed
  split at failed <;> cases failed
  exact ⟨_, rfl⟩

theorem tally_set_local {locals : List Value} {slot : Nat} {old : Value}
    (found : locals[slot]? = some old) (v : Value) (x : Handle) :
    tally x (locals.set slot v) + old.owners x = tally x locals + v.owners x := by
  induction locals generalizing slot with
  | nil => cases found
  | cons w locals ih =>
    cases slot with
    | zero =>
      cases found
      simp only [List.set_cons_zero, tally_cons]
      omega
    | succ slot =>
      have rest := ih (show locals[slot]? = some old by simpa using found)
      simp only [List.set_cons_succ, tally_cons]
      omega

/-- The value that goes into a slot and the one that comes out change places. -/
theorem swapLocal_deals {slot : Nat} (swapped : f.swapLocal slot v = .ok (w, g)) :
    SameOwners (f.held ++ [v]) (g.held ++ [w]) := by
  intro x
  unfold swapLocal at swapped
  cases found : f.locals[slot]? with
  | none => simp [found] at swapped
  | some old =>
    simp only [found, Except.ok.injEq, Prod.mk.injEq] at swapped
    obtain ⟨rfl, rfl⟩ := swapped
    have locals := tally_set_local found v x
    simp only [tally_append, tally_held, tally_cons, tally_nil, pendingValues, returnedValues,
      thrownValues]
    omega

theorem swapLocal_light {slot : Nat} : Light (f.swapLocal slot v) := by
  unfold swapLocal
  split
  · exact light_ok _
  · exact light_error rfl

theorem takeLocal_deals {slot : Nat} (taken : f.takeLocal slot = .ok (w, g)) :
    SameOwners f.held (g.held ++ [w]) := fun x => by
  simpa using swapLocal_deals taken x

theorem updateTop_deals {change : Value → Value} (same : ∀ v x, (change v).owners x = v.owners x)
    (updated : f.updateTop change = .ok g) : SameOwners f.held g.held := by
  intro x
  unfold updateTop at updated
  cases stack : f.stack with
  | nil => simp [stack] at updated
  | cons w rest =>
    simp only [stack, Except.ok.injEq] at updated
    subst updated
    simp only [tally_held, stack, tally_cons, same, pendingValues, returnedValues, thrownValues]

theorem updateTop_fails {change : Value → Value} {e : Error}
    (failed : f.updateTop change = .error e) : e.Underflow := by
  unfold updateTop at failed
  split at failed <;> cases failed
  exact ⟨_, rfl⟩

theorem saveShadow_deals {slot : Nat} (saved : f.saveShadow slot = .ok g) :
    SameOwners f.held g.held := by
  intro x
  obtain ⟨⟨w, g'⟩, taken, saved⟩ := ok_of_bind saved
  cases saved
  have deals := takeLocal_deals taken x
  simp only [tally_append, tally_held, List.map_cons, tally_cons, tally_nil, pendingValues,
    returnedValues, thrownValues] at deals ⊢
  omega

theorem saveShadow_light {slot : Nat} : Light (f.saveShadow slot) :=
  light_bind swapLocal_light fun _ => light_ok _

theorem tally_unshadow {slot : Nat} {shadows rest : List (Nat × Value)}
    (found : unshadow slot shadows = some (v, rest)) (x : Handle) :
    tally x (shadows.map Prod.snd) = tally x (rest.map Prod.snd) + v.owners x := by
  induction shadows generalizing rest with
  | nil => cases found
  | cons entry shadows ih =>
    obtain ⟨s, w⟩ := entry
    rw [unshadow] at found
    split at found
    · cases found
      simp only [List.map_cons, tally_cons]
      omega
    · obtain ⟨⟨u, others⟩, inner, eq⟩ := Option.map_eq_some_iff.mp found
      cases eq
      have counted := ih inner
      simp only [List.map_cons, tally_cons]
      omega

theorem restoreShadow_deals {slot : Nat} (restored : f.restoreShadow slot = .ok (w, g)) :
    SameOwners f.held (g.held ++ [w]) := by
  intro x
  unfold restoreShadow at restored
  cases found : unshadow slot f.shadows with
  | none => simp [found] at restored
  | some result =>
    obtain ⟨saved, rest⟩ := result
    simp only [found] at restored
    have shadows := tally_unshadow found x
    have deals := swapLocal_deals restored x
    simp only [tally_append, tally_held, tally_cons, tally_nil, pendingValues, returnedValues,
      thrownValues] at deals ⊢
    omega

theorem restoreShadow_light {slot : Nat} : Light (f.restoreShadow slot) := by
  unfold restoreShadow
  split
  · exact light_error rfl
  · exact swapLocal_light

theorem readLocal_light {slot : Nat} : Light (f.readLocal slot) := by
  unfold readLocal
  split
  · exact light_ok _
  · exact light_error rfl

theorem armDefer_deals {k : Nat} (armed : f.armDefer k = .ok g) : SameOwners f.held g.held := by
  unfold armDefer at armed
  split at armed <;> cases armed
  exact .refl _

theorem armDefer_light {k : Nat} : Light (f.armDefer k) := by
  unfold armDefer
  split
  · exact light_ok _
  · exact light_error rfl

theorem tally_pushAll (vs : List Value) (x : Handle) :
    tally x (f.pushAll vs).held = tally x f.held + tally x vs := by
  induction vs generalizing f with
  | nil => rfl
  | cons v vs ih =>
    have pushed : tally x (f.push v).held = tally x f.held + v.owners x := by
      simp only [tally_held, push, tally_cons, pendingValues, returnedValues, thrownValues]
      omega
    have step : f.pushAll (v :: vs) = (f.push v).pushAll vs := rfl
    rw [step, ih, pushed, tally_cons]
    omega

end Frame

/-! ## Contexts -/

/-- The values that a flow hands to the engine. -/
def Flow.held : Flow → List Value
  | .call (.value callee) this => [callee, this]
  | .call _ this => [this]
  | _ => []

namespace Context

variable {H : Type}

def held (c : Context H) : List Value := c.frame.held ++ c.channel ++ c.globals.values

/-- Owners in a context and in hand account for all objects. -/
structure Owned (out : List Value) (c : Context H) : Prop where
  heap : c.heap.Owned [] (c.held ++ out)
  globals : SortedMap.Ascending c.globals.entries.entries

def ledger (H : Type) (excused : Error → Prop) : Ledger (Context H) where
  Settled := Owned
  recount same owned := ⟨owned.heap.recount ((SameOwners.refl _).append same), owned.globals⟩
  Excused := excused

end Context

namespace Exec

open Effect (Conserves ConservesAt Steady)

variable {H α : Type} {excused : Error → Prop} {takes : List Value} {gives : α → List Value}

abbrev books (H : Type) : Ledger (Context H) := Context.ledger H Error.Underflow

theorem heap_conserves {op : HeapM H α} (conserves : Conserves (Heap.ledger H) takes op gives) :
    Conserves (Context.ledger H excused) takes (liftM op : Exec H α) gives := by
  refine conserves.onPart (fun _ never => never.elim) fun out c owned =>
    ⟨c.held, owned.heap.recount fun x => by simp only [tally_append]; omega, fun vs h heap => ?_⟩
  exact ⟨heap.recount fun x => by simp only [tally_append, Context.held]; omega, owned.globals⟩

/-- An operation on the frame alone, which fails before it changes anything. -/
theorem ensures_onFrame {op : Frame → Except Error (α × Frame)} {c : Context H} {rest : List Value}
    {fail : Error → Context H → Prop} (owned : (Context.ledger H excused).Settled rest c)
    (deals : ∀ f a g, op f = .ok (a, g) → SameOwners f.held (g.held ++ gives a))
    (fails : ∀ e, op c.frame = .error e → fail e c) :
    (onFrame op).Ensures c (fun a => (Context.ledger H excused).Settled (gives a ++ rest)) fail := by
  simp only [onFrame, Effect.ensures_bind, Effect.ensures_get, Effect.ensures_liftM]
  cases run : op c.frame with
  | error e => exact fails e run
  | ok result =>
    obtain ⟨a, g⟩ := result
    refine ⟨owned.heap.recount fun x => ?_, owned.globals⟩
    have dealt := deals c.frame a g run x
    simp only [Context.held, tally_append] at dealt ⊢
    omega

theorem onFrame_conserves {op : Frame → Except Error (α × Frame)} (light : ∀ f, Light (op f))
    (deals : ∀ f a g, op f = .ok (a, g) → SameOwners f.held (g.held ++ gives a)) :
    Conserves (Context.ledger H excused) [] (onFrame op) gives := fun c _ owned =>
  ensures_onFrame owned deals fun e run => .inr (by simpa [light c.frame e run] using owned)

theorem onFrame_steady {op : Frame → Except Error (α × Frame)}
    (fails : ∀ f e, op f = .error e → e.Underflow)
    (deals : ∀ f a g, op f = .ok (a, g) → SameOwners f.held (g.held ++ gives a)) :
    Steady (books H) [] (onFrame op) gives := fun c _ owned =>
  ensures_onFrame owned deals (fails c.frame)

theorem changeFrame_conserves {op : Frame → Except Error Frame} (light : ∀ f, Light (op f))
    (deals : ∀ f g, op f = .ok g → SameOwners f.held g.held) :
    Conserves (Context.ledger H excused) [] (changeFrame op) fun _ => [] := by
  refine onFrame_conserves (fun f => light_bind (light f) fun _ => light_ok _) fun f a g run => ?_
  obtain ⟨_, changed, run⟩ := ok_of_bind run
  cases run
  rw [List.append_nil]
  exact deals f _ changed

theorem changeFrame_steady {op : Frame → Except Error Frame}
    (fails : ∀ f e, op f = .error e → e.Underflow)
    (deals : ∀ f g, op f = .ok g → SameOwners f.held g.held) :
    Steady (books H) [] (changeFrame op) fun _ => [] := by
  refine onFrame_steady (fun f e run => ?_) fun f a g run => ?_
  · obtain failed | ⟨g, -, ended⟩ := error_of_bind run
    · exact fails f e failed
    · cases ended
  · obtain ⟨_, changed, run⟩ := ok_of_bind run
    cases run
    rw [List.append_nil]
    exact deals f _ changed

theorem readFrame_conserves {op : Frame → Except Error α} (light : ∀ f, Light (op f)) :
    Conserves (Context.ledger H excused) [] (readFrame op) fun _ => [] :=
  .get_bind fun c => Conserves.computes (light c.frame) (fun _ _ _ => rfl) c

theorem readFrame_steady {op : Frame → Except Error α}
    (fails : ∀ f e, op f = .error e → e.Underflow) :
    Steady (books H) [] (readFrame op) fun _ => [] := by
  intro c rest owned
  simp only [readFrame, Effect.ensures_bind, Effect.ensures_get, Effect.ensures_liftM]
  cases run : op c.frame with
  | error e => exact fails c.frame e run
  | ok a => exact owned

theorem computed_conserves {x : Except Error Value} (light : Light x)
    (bare : ∀ w, x = .ok w → Bare [w]) :
    Conserves (Context.ledger H excused) [] (liftM x : Exec H Value) fun w => [w] :=
  .computes light bare

theorem readHeap_conserves {op : Heap H → Except Error α} (light : ∀ h, Light (op h))
    (bare : ∀ h a, op h = .ok a → Bare (gives a)) :
    Conserves (Context.ledger H excused) [] (readHeap op) gives :=
  .get_bind fun c => Conserves.computes (light c.heap) (bare c.heap) c

theorem readHeap_reads {op : Heap H → Except Error α} (light : ∀ h, Light (op h)) :
    Conserves (Context.ledger H excused) [] (readHeap op) fun _ => [] :=
  readHeap_conserves light fun _ _ _ _ => rfl

theorem push_steady (v : Value) : Steady (Context.ledger H excused) [v] (push v) fun _ => [] := by
  refine .modify fun rest c owned => ⟨owned.heap.recount fun x => ?_, owned.globals⟩
  have pushed := Frame.tally_pushAll (f := c.frame) [v] x
  simp only [Context.held, Frame.pushAll, List.foldl_cons, List.foldl_nil, tally_append, tally_cons,
    tally_nil] at pushed ⊢
  omega

theorem push_bare {v : Value} (bare : Bare [v]) :
    Conserves (Context.ledger H excused) [] (push v) fun _ => [] :=
  (push_steady v).conserves.recount (fun x => (bare x).symm) fun _ => .refl _

theorem push_share (v : Value) :
    Conserves (Context.ledger H excused) [] (push v.share) fun _ => [] :=
  push_bare fun x => by simp

theorem pop_steady : Steady (books H) [] pop fun v => [v] :=
  onFrame_steady (fun _ _ => Frame.pop_fails) fun _ _ _ => Frame.pop_deals

theorem popN_steady (n : Nat) : Steady (books H) [] (popN n) fun vs => vs :=
  onFrame_steady (fun _ _ => Frame.popN_fails) fun _ _ _ => Frame.popN_deals

theorem popTwo_steady : Steady (books H) [] popTwo fun vs => [vs.1, vs.2] := by
  refine pop_steady.bind_steady fun rhs => ?_
  refine ((pop_steady.beside [rhs]).bind_steady fun lhs => ?_).recount (.refl _) fun _ => .refl _
  exact Steady.pure _ (lhs, rhs) fun vs => [vs.1, vs.2]

theorem settled_letGo (vs : List Value) {rest : List Value} {c : Context H}
    (owned : c.Owned (vs ++ rest)) :
    (letGo vs c).Owned rest := by
  refine ⟨Heap.Owned.disposeAll (owned.heap.recount fun x => ?_), owned.globals⟩
  simp only [letGo, Context.held, tally_append]
  omega

theorem letGo_steady (vs : List Value) :
    Steady (Context.ledger H excused) vs (modify (letGo vs)) fun _ => [] :=
  .modify fun _ _ owned => settled_letGo vs owned

theorem send_steady (vs : List Value) :
    Steady (Context.ledger H excused) vs (send vs) fun _ => [] := by
  refine .modify fun rest c owned => ⟨owned.heap.recount fun x => ?_, owned.globals⟩
  simp only [Context.held, tally_append, tally_nil]
  omega

/-- Values are let go of, and the operation fails. -/
theorem refuse_conserves (vs : List Value) {e : Error} (light : e.carried = []) :
    Conserves (Context.ledger H excused) vs (modify (letGo vs) >>= fun _ => throw e : Exec H α)
      gives :=
  (letGo_steady vs).bind fun _ => .throw fun x => by rw [light]

theorem consuming_conserves (operands : List Value) {op : Exec H α}
    (conserves : Conserves (Context.ledger H excused) takes op gives) :
    Conserves (Context.ledger H excused) (operands ++ takes) (consuming operands op) gives :=
  conserves.andAlways fun _ _ => settled_letGo operands

theorem thenNext_conserves {op : Exec H Unit}
    (conserves : Conserves (Context.ledger H excused) takes op fun _ => []) :
    Conserves (Context.ledger H excused) takes (thenNext op) Flow.held :=
  conserves.bind fun _ => .pure (.refl _)

/-- An operand is used and let go; what was computed from it takes its place. -/
theorem unary_conserves {op : Value → Exec H Value}
    (conserves : ∀ v, Conserves (books H) [] (op v) fun w => [w]) :
    Conserves (books H) [] (unary op) fun _ => [] :=
  pop_steady.bind fun v => (consuming_conserves [v] (conserves v)).bind fun w =>
    (push_steady w).conserves

theorem binary_conserves {op : Value → Value → Exec H Value}
    (conserves : ∀ a b, Conserves (books H) [] (op a b) fun w => [w]) :
    Conserves (books H) [] (binary op) fun _ => [] :=
  popTwo_steady.bind fun (a, b) => (consuming_conserves [a, b] (conserves a b)).bind fun w =>
    (push_steady w).conserves

theorem storeLocal_conserves (slot : Nat) (v : Value) :
    Conserves (Context.ledger H excused) [v] (storeLocal slot v) fun _ => [] := by
  refine .get_bind fun c => ?_
  cases swapped : c.frame.swapLocal slot v with
  | error e => exact refuse_conserves [v] (Frame.swapLocal_light e swapped) c
  | ok result =>
    obtain ⟨old, g⟩ := result
    intro rest owned
    refine settled_letGo [old] ⟨owned.heap.recount fun x => ?_, owned.globals⟩
    have dealt := Frame.swapLocal_deals swapped x
    simp only [Context.held, tally_append, tally_cons, tally_nil] at dealt ⊢
    omega

end Exec

end ScriptMachine
