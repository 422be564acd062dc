import ScriptMachine.Heap.Frame
import ScriptMachine.Proofs.Structure.Sound

/-!
# Pools are not seen

Several structures share pools, and what one gives back another may get. Two runs of the same
operations that draw from different pools, or from pools that never keep anything, cannot be told
apart. Frames are reset to what a new frame is.
-/

set_option autoImplicit false

namespace ScriptMachine

/-! ## Pools that keep nothing -/

namespace Pool

variable {α : Type} [Pooled α] {p : Pool α}

/-- Every object that the pool hands out is made new, of the size that was asked for. -/
def MakesNew (p : Pool α) : Prop :=
  ∀ capacity, (p.checkout capacity).1 = Pooled.fresh ((bucketSize? capacity).getD capacity)

def keepless : Pool α := { buckets := [] }

theorem makesNew_of_keepless (none : p.buckets = []) : p.MakesNew := by
  intro capacity
  have idle : ∀ i, p.bucket i = [] := by simp [bucket, none]
  unfold checkout bucketSize?
  cases bucketFor? capacity with
  | none => rfl
  | some i => simp [idle]

theorem buckets_checkout (none : p.buckets = []) (capacity : Nat) :
    (p.checkout capacity).2.buckets = [] := by
  have idle : ∀ i, p.bucket i = [] := by simp [bucket, none]
  unfold checkout
  cases bucketFor? capacity with
  | none => exact none
  | some i => simp [idle, none]

theorem buckets_checkin (none : p.buckets = []) (object : α) :
    (p.checkin object).2.buckets = [] := by
  unfold checkin
  dsimp only
  split
  · exact none
  · split
    · simp [none]
    · exact none

theorem checkin_values (p : Pool α) (object : α) :
    (p.checkin object).1 = (Pooled.drain object).1 := by
  unfold checkin
  dsimp only
  split
  · rfl
  · split <;> rfl

/-- A pool after objects of some capacities were taken from it and others given back to it. -/
def used (uses : List (Nat ⊕ α)) : Pool α :=
  uses.foldl (fun p use =>
    match use with
    | .inl capacity => (p.checkout capacity).2
    | .inr object => (p.checkin object).2) {}

theorem used_clean [LawfulPooled α] (uses : List (Nat ⊕ α)) : (used uses).Clean := by
  have step : ∀ p : Pool α, p.Clean → (uses.foldl (fun p use =>
      match use with
      | .inl capacity => (p.checkout capacity).2
      | .inr object => (p.checkin object).2) p).Clean := by
    induction uses with
    | nil => exact fun _ clean => clean
    | cons use uses ih =>
      intro p clean
      apply ih
      cases use with
      | inl capacity =>
        obtain ⟨-, -, -, clean'⟩ := clean.checkout capacity
        exact clean'
      | inr object => exact clean.checkin object
  exact step {} clean_empty

end Pool

namespace StructurePools

structure Keepless (pools : StructurePools) : Prop where
  dense : pools.dense.buckets = []
  keyed : pools.keyed.buckets = []
  mixed : pools.mixed.buckets = []
  ring : pools.ring.buckets = []

structure MakeNew (pools : StructurePools) : Prop where
  dense : pools.dense.MakesNew
  keyed : pools.keyed.MakesNew
  mixed : pools.mixed.MakesNew
  ring : pools.ring.MakesNew

def keepless : StructurePools := ⟨.keepless, .keepless, .keepless, .keepless, 0⟩

variable {pools after : StructurePools}

theorem Keepless.makeNew (none : pools.Keepless) : pools.MakeNew :=
  ⟨Pool.makesNew_of_keepless none.dense, Pool.makesNew_of_keepless none.keyed,
    Pool.makesNew_of_keepless none.mixed, Pool.makesNew_of_keepless none.ring⟩

theorem Traffic.keepless (traffic : pools.Traffic after) (none : pools.Keepless) :
    after.Keepless := by
  induction traffic with
  | none => exact none
  | lend _ layout capacity ih =>
    cases layout with
    | dense => exact { ih with dense := Pool.buckets_checkout ih.dense capacity }
    | keyed => exact { ih with keyed := Pool.buckets_checkout ih.keyed capacity }
    | mixed => exact { ih with mixed := Pool.buckets_checkout ih.mixed capacity }
    | ring => exact { ih with ring := Pool.buckets_checkout ih.ring capacity }
  | giveBack _ storage ih =>
    cases storage with
    | dense d => exact { ih with dense := Pool.buckets_checkin ih.dense d }
    | keyed t => exact { ih with keyed := Pool.buckets_checkin ih.keyed t }
    | mixed t => exact { ih with mixed := Pool.buckets_checkin ih.mixed t }
    | ring r => exact { ih with ring := Pool.buckets_checkin ih.ring r }
  | counted _ _ ih => exact ⟨ih.dense, ih.keyed, ih.mixed, ih.ring⟩

theorem Keepless.clean (none : pools.Keepless) : pools.Clean := by
  have nothing : ∀ {α : Type} [Pooled α] {p : Pool α}, p.buckets = [] → p.Clean := by
    intro α _ p none i object mem
    simp [Pool.bucket, none] at mem
  exact ⟨nothing none.dense, nothing none.keyed, nothing none.mixed, nothing none.ring⟩

end StructurePools

/-! ## Two workshops -/

theorem Structure.Blind.map {α β : Type} {op : Structure → α × Structure} (blind : Blind op)
    (f : α → β) : Blind fun s => (op s).map f id := by
  intro s
  obtain ⟨answer, after⟩ := blind.alike s.bare_bare
  exact Prod.ext (congrArg f answer) after

theorem Probe.blind_on (probe : Probe) : Structure.Blind probe.on := by
  cases probe with
  | get key => exact fun s => Prod.ext (congrArg Reply.value (s.get?_bare key)) s.bare_bare
  | contains key =>
    intro s
    exact Prod.ext (congrArg (fun v : Option Value => Reply.truth v.isSome) (s.get?_bare key))
      s.bare_bare
  | update key f => exact fun s => Prod.ext rfl (s.update_bare key f)
  | delete key => exact (Structure.blind_delete key).map _
  | popFront => exact Structure.blind_popFront.map _
  | popBack => exact Structure.blind_popBack.map _
  | firstKey => exact Structure.blind_firstKey?.map _
  | lastKey => exact Structure.blind_lastKey?.map _
  | nextKey key => exact (Structure.blind_nextKey? key).map _
  | prevKey key => exact (Structure.blind_prevKey? key).map _
  | keys => exact Structure.blind_keys.map _
  | appendKey => exact Structure.blind_appendKey.map _
  | prependKey => exact Structure.blind_prependKey.map _

namespace Workshop

/-- The same structures but for their room, all of them in working order. -/
structure Twin (w w' : Workshop) : Prop where
  made : w.made.map (Option.map Structure.bare) = w'.made.map (Option.map Structure.bare)
  sound : w.Sound
  sound' : w'.Sound

variable {w w' : Workshop}

theorem Twin.looks (twin : Twin w w') : w.looks = w'.looks := by
  have told : ∀ w : Workshop, w.looks = (w.made.map (Option.map Structure.bare)).map
      (Option.map fun s => ⟨s.layout, s.size, s.migrations, s.entries⟩) := by
    intro w
    rw [Workshop.looks, List.map_map]
    refine List.map_congr_left fun s _ => ?_
    cases s with
    | none => rfl
    | some s =>
      simp only [Function.comp_apply, Option.map_some, Structure.layout_bare, Structure.size_bare,
        Structure.entries_bare]
      rfl
  rw [told, told, twin.made]

/-- One of two twins has a structure of some number exactly if the other has, and they are alike. -/
theorem Twin.join (twin : Twin w w') (i : Nat) :
    ((w.made[i]?).join).map Structure.bare = ((w'.made[i]?).join).map Structure.bare := by
  have same : ∀ w : Workshop, ((w.made[i]?).join).map Structure.bare =
      ((w.made.map (Option.map Structure.bare))[i]?).join := by
    intro w
    rw [List.getElem?_map]
    cases w.made[i]? <;> rfl
  rw [same, same, twin.made]

theorem Twin.made_set (twin : Twin w w') (i : Nat) {s t : Option Structure}
    (alike : s.map Structure.bare = t.map Structure.bare) :
    (w.made.set i s).map (Option.map Structure.bare) =
      (w'.made.set i t).map (Option.map Structure.bare) := by
  rw [List.map_set, List.map_set, twin.made, alike]

theorem Twin.made_concat (twin : Twin w w') {s t : Structure} (alike : s.bare = t.bare) :
    (w.made ++ [some s]).map (Option.map Structure.bare) =
      (w'.made ++ [some t]).map (Option.map Structure.bare) := by
  rw [List.map_append, List.map_append, twin.made]
  simp [alike]

structure Paired (w w' : Workshop) (i : Nat) (s t : Structure) : Prop where
  one : (w.made[i]?).join = some s
  other : (w'.made[i]?).join = some t
  valid : s.storage.Valid
  valid' : t.storage.Valid
  alike : s.bare = t.bare

theorem Twin.paired (twin : Twin w w') (i : Nat) :
    ((w.made[i]?).join = none ∧ (w'.made[i]?).join = none) ∨ ∃ s t, Paired w w' i s t := by
  have found := twin.join i
  have valid : ∀ {w : Workshop} {s : Structure}, w.Sound → (w.made[i]?).join = some s →
      s.storage.Valid := fun sound held =>
    sound.valid _ (List.mem_of_getElem? (Option.join_eq_some_iff.mp held))
  cases one : (w.made[i]?).join with
  | none =>
    rw [one] at found
    exact .inl ⟨rfl, Option.map_eq_none_iff.mp found.symm⟩
  | some s =>
    rw [one] at found
    obtain ⟨t, other, same⟩ := Option.map_eq_some_iff.mp found.symm
    exact .inr ⟨s, t, one, other, valid twin.sound one, valid twin.sound' other, same.symm⟩

/-- An operation that tells no room does the same to twins. -/
theorem Twin.change (twin : Twin w w') (i : Nat)
    {op : Structure → StructurePools → Reply × Option Structure × StructurePools}
    (alike : ∀ s t, Paired w w' i s t → (op s w.pools).1 = (op t w'.pools).1 ∧
      (op s w.pools).2.1.map Structure.bare = (op t w'.pools).2.1.map Structure.bare) :
    (w.change i op).1 = (w'.change i op).1 ∧
      (w.change i op).2.made.map (Option.map Structure.bare) =
        (w'.change i op).2.made.map (Option.map Structure.bare) := by
  unfold Workshop.change
  rcases twin.paired i with ⟨one, other⟩ | ⟨s, t, pair⟩
  · rw [one, other]
    exact ⟨rfl, twin.made⟩
  · rw [pair.one, pair.other]
    obtain ⟨reply, after⟩ := alike s t pair
    exact ⟨reply, twin.made_set i after⟩

theorem Twin.put (twin : Twin w w') (i : Nat) {keyed : Structure → Key × Structure}
    (blind : Structure.Blind keyed)
    (reads : ∀ s, s.storage.Valid → (keyed s).2.storage.Valid) (v : Value) :
    (w.change i (Workshop.put keyed v)).1 = (w'.change i (Workshop.put keyed v)).1 ∧
      (w.change i (Workshop.put keyed v)).2.made.map (Option.map Structure.bare) =
        (w'.change i (Workshop.put keyed v)).2.made.map (Option.map Structure.bare) := by
  refine twin.change i fun s t pair => ?_
  obtain ⟨key, read⟩ := blind.alike pair.alike
  have placed : Structure.Alike ((keyed s).2.set w.pools (keyed s).1 v)
      ((keyed t).2.set w'.pools (keyed t).1 v) := by
    rw [key]
    exact Structure.set_alike twin.sound.clean twin.sound'.clean (reads s pair.valid)
      (reads t pair.valid') read (keyed t).1 v
  rw [put_eq, put_eq]
  exact ⟨(Reply.placed.injEq ..).mpr ⟨key, placed.1⟩, congrArg some placed.2⟩

theorem Twin.copy (twin : Twin w w') (i : Nat) (renew : Key → Value → Value) :
    (w.copy i renew).1 = (w'.copy i renew).1 ∧
      (w.copy i renew).2.made.map (Option.map Structure.bare) =
        (w'.copy i renew).2.made.map (Option.map Structure.bare) := by
  unfold Workshop.copy
  rcases twin.paired i with ⟨one, other⟩ | ⟨s, t, pair⟩
  · rw [one, other]
    exact ⟨rfl, twin.made⟩
  · rw [pair.one, pair.other]
    have entries : s.entries = t.entries := by
      rw [← Structure.entries_bare, pair.alike, Structure.entries_bare]
    have length := (s.entries.length_map fun e => renew e.1 e.2).trans s.storage.size_eq.symm
    refine ⟨rfl, twin.made_concat ?_⟩
    rw [← entries]
    exact Structure.rebuild_alike twin.sound.clean twin.sound'.clean pair.alike length

theorem values_bare (s : Structure) : s.bare.values = s.values := by
  obtain ⟨storage, migrations⟩ := s
  cases storage with
  | dense d => exact d.values_bare
  | _ => rfl

theorem recycle_values (s : Structure) (pools : StructurePools) :
    (s.recycle pools).1 = s.values := by
  obtain ⟨storage, migrations⟩ := s
  cases storage with
  | dense d => exact (Pool.checkin_values ..).trans d.drain_values
  | _ => exact Pool.checkin_values ..

theorem Twin.perform (twin : Twin w w') (work : Work) :
    (w.perform work).1 = (w'.perform work).1 ∧ Twin (w.perform work).2 (w'.perform work).2 := by
  have step : (w.perform work).1 = (w'.perform work).1 ∧
      (w.perform work).2.made.map (Option.map Structure.bare) =
        (w'.perform work).2.made.map (Option.map Structure.bare) := by
    have clean := twin.sound.clean
    have clean' := twin.sound'.clean
    cases work with
    | new capacity => exact ⟨rfl, twin.made_concat (Structure.new_alike clean clean' capacity)⟩
    | queue limit => exact ⟨rfl, twin.made_concat (Structure.queue_alike clean clean' limit)⟩
    | probe i probe =>
      refine twin.change i fun s t pair => ?_
      obtain ⟨reply, after⟩ := (probe.blind_on).alike pair.alike
      exact ⟨reply, congrArg some after⟩
    | set i key v =>
      have same : Structure.Blind (key, ·) := fun s => Prod.ext rfl s.bare_bare
      exact twin.put i same (fun _ valid => valid) v
    | append i v =>
      exact twin.put i Structure.blind_appendKey (fun _ valid => Probe.appendKey.valid_on valid) v
    | prepend i v =>
      exact twin.put i Structure.blind_prependKey
        (fun _ valid => Probe.prependKey.valid_on valid) v
    | copy i renew => exact twin.copy i renew
    | recycle i =>
      refine twin.change i fun s t pair => ⟨?_, rfl⟩
      show spill s (s.recycle w.pools).1 = spill t (t.recycle w'.pools).1
      rw [recycle_values, recycle_values, ← values_bare s, pair.alike, values_bare, spill, spill,
        ← Structure.layout_bare s, pair.alike, Structure.layout_bare]
  exact ⟨step.1, step.2, twin.sound.perform work, twin.sound'.perform work⟩

theorem Twin.overflows (twin : Twin w w') (work : Work) :
    w.overflows work = w'.overflows work := by
  have seen : ∀ (i : Nat) {uses : Structure → List Use},
      (∀ s t : Structure, s.bare = t.bare → uses s = uses t) →
        (((w.made[i]?).join).any fun s => s.overflows (uses s)) =
          ((w'.made[i]?).join).any fun s => s.overflows (uses s) := by
    intro i uses same
    rcases twin.paired i with ⟨one, other⟩ | ⟨s, t, pair⟩
    · rw [one, other]
    · rw [pair.one, pair.other]
      simp only [Option.any_some]
      rw [same s t pair.alike, ← Structure.overflows_bare, pair.alike, Structure.overflows_bare]
  unfold Workshop.overflows
  cases work with
  | probe i probe => exact seen i fun _ _ _ => rfl
  | set i key v => exact seen i fun _ _ _ => rfl
  | append i v =>
    exact seen i fun s t alike =>
      congrArg (fun key => [Use.behind, .write key]) (Structure.blind_appendKey.alike alike).1
  | prepend i v =>
    exact seen i fun s t alike =>
      congrArg (fun key => [Use.before, .write key]) (Structure.blind_prependKey.alike alike).1
  | _ => rfl

theorem Twin.performAll (works : List Work) : ∀ {w w' : Workshop}, Twin w w' →
    (Workshop.performAll works w).1 = (Workshop.performAll works w').1 := by
  induction works with
  | nil => exact fun _ => rfl
  | cons work works ih =>
    intro w w' twin
    obtain ⟨reply, twin'⟩ := twin.perform work
    have later := ih twin'
    unfold Workshop.performAll
    rw [twin.overflows work]
    split
    · rw [twin.looks]
    · dsimp only
      rw [reply, twin'.looks, later]

end Workshop

/-! ## Frames -/

instance : LawfulPooled Frame := ⟨fun _ => rfl, fun _ => rfl⟩

theorem Frame.reset_eq (f : Frame) (unit : CodeUnit) (capacity : Nat) :
    f.reset unit = { (Pooled.fresh capacity : Frame).reset unit with capacity := f.capacity } := rfl

/-- Pooling cannot be seen. Operations on structures that share pools reply, after whatever the
pools were used for before, as they do with pools that make all storage new, and leave structures of
the same layouts, sizes, migrations and entries at every step. A frame out of a pool, whatever
frames were given back to it, has room enough, and once it is reset for a unit it is a new frame
reset for that unit, but for its capacity. -/
theorem pooling_unseen (uses : List (Layout × Nat ⊕ Storage)) (works : List Work)
    (frames : List (Nat ⊕ Frame)) (capacity : Nat) (unit : CodeUnit) :
    let pooled := Workshop.performAll works { pools := Structure.usedPools uses }
    let unpooled := Workshop.performAll works { pools := .keepless }
    let frame := ((Pool.used frames).checkout capacity).1
    pooled.1 = unpooled.1 ∧ unpooled.2.pools.MakeNew ∧ capacity ≤ frame.capacity ∧
      frame.reset unit =
        { (Pooled.fresh capacity : Frame).reset unit with capacity := frame.capacity } := by
  intro pooled unpooled frame
  have keepless : StructurePools.keepless.Keepless := ⟨rfl, rfl, rfl, rfl⟩
  have twin : Workshop.Twin { pools := Structure.usedPools uses } { pools := .keepless } :=
    ⟨rfl, ⟨Structure.usedPools_clean uses, fun _ made => by cases made⟩,
      ⟨keepless.clean, fun _ made => by cases made⟩⟩
  have traffic := Workshop.traffic_performAll works { pools := .keepless }
  obtain ⟨room, enough, fresh, -⟩ := (Pool.used_clean frames).checkout capacity
  refine ⟨twin.performAll works, (traffic.keepless keepless).makeNew, ?_, frame.reset_eq unit _⟩
  show capacity ≤ ((Pool.used frames).checkout capacity).1.capacity
  rw [fresh]
  exact enough

end ScriptMachine
