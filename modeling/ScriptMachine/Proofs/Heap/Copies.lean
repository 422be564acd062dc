import ScriptMachine.Proofs.Heap.Conservation

/-!
# Copies conserve owners

A copy owns new objects only, and these own only new ones. So a copy that fails half-way disposes
nothing but what was made for it, whatever is lent at that time. The region here is that of all
handles that were not handed out when the copy began; no owner leads into it or out of it.
-/

set_option autoImplicit false

namespace ScriptMachine.Heap

variable {H : Type} {h k : Heap H} {away : List Handle} {out : List Value} {x : Handle}
  {o : Object H} {S : Handle → Prop}

/-- Copies are made in the region; what is lent is outside, and so is what is copied. -/
structure Copying (S : Handle → Prop) (away : List Handle) (out : List Value) (h : Heap H) :
    Prop where
  owned : h.Owned away out
  parted : h.All (Object.Parted S)
  apart : ∀ y ∈ away, ¬ S y
  fresh : ∀ y, ¬ h.Issued y → S y

theorem Copying.recount {out' : List Value} (copying : Copying S away out h)
    (same : SameOwners out out') : Copying S away out' h :=
  { copying with owned := copying.owned.recount same }

theorem Copying.later (copying : Copying S away out h) :
    Later (Object.Parted S) (away.map Handle.index) h h :=
  ⟨copying.owned.accounted, copying.parted, Evolves.refl h⟩

theorem Copying.disposeAll {vs : List Value} (copying : Copying S away (vs ++ out) h)
    (within : ∀ v ∈ vs, v.Within S) : Copying S away out (h.disposeAll vs) := by
  obtain ⟨owned, parted⟩ := copying.owned.disposeAllWithin copying.apart copying.parted within
  have evolves := (copying.later.disposeAll vs).evolves
  exact ⟨owned, parted, copying.apart, fun y new => copying.fresh y fun old =>
    new (evolves.issued y old)⟩

/-- A new object in the region takes over what it holds. -/
theorem Copying.alloc (copying : Copying S away (o.held ++ out) h) (valid : o.Valid)
    (within : ∀ v ∈ o.held, v.Within S) :
    Copying S away ((h.alloc o).1 :: out) (h.alloc o).2 ∧ (h.alloc o).1.Within S := by
  obtain ⟨x, answer, new, found⟩ := copying.owned.accounted.object?_alloc o
  have here := copying.fresh x new
  have placed := Later.alloc (o := o) (P := fun _ _ => True)
    ⟨copying.owned.accounted, fun _ _ _ _ _ => trivial, Evolves.refl h⟩ fun _ => trivial
  refine ⟨⟨copying.owned.alloc valid, fun i slot p hslot hp => ?_, copying.apart, fun y new' =>
    copying.fresh y fun old => new' (placed.evolves.issued y old)⟩, ?_⟩
  · have object : (h.alloc o).2.object? ⟨i, slot.generation⟩ = some p :=
      object?_eq_some_iff.mpr ⟨slot, hslot, rfl, hp⟩
    rw [found] at object
    split at object
    · rename_i eq
      cases object
      exact fun v mem ref owner => by simp only [eq, here, within v mem ref owner]
    · exact copying.parted.object? object
  · rw [answer]
    intro ref owner
    cases owner
    exact here

theorem Copying.withPools (copying : Copying S away out h) (pools : Pools) (clean : pools.Clean) :
    Copying S away out { h with pools } :=
  ⟨copying.owned.withPools pools clean, copying.parted, copying.apart, copying.fresh⟩

theorem Copying.lend (copying : Copying S away out h) (found : h.object? x = some o)
    (outside : ¬ S x) : Copying S (x :: away) (o.held ++ out) (h.vacated x) := by
  have lent := copying.owned.lend found
  refine ⟨lent, (copying.later.lend found).all, ?_, fun y new => copying.fresh y fun old => new ?_⟩
  · exact List.forall_mem_cons.mpr ⟨outside, copying.apart⟩
  · obtain ⟨slot, hslot, -, -⟩ := object?_eq_some_iff.mp found
    have change := replaced_modify (k := h.vacated x) (fun slot => { slot with object := none })
      hslot rfl
    by_cases index : y.index = x.index
    · rw [change.issued_at index]
      rwa [issued_iff_of_slot slot (by rw [index, hslot]), index] at old
    · exact (change.issued_away index Iff.rfl).mpr old

/-- A lent object comes back after whatever was done with copies. -/
theorem Copying.restore (copying : Copying S away out h) (found : h.object? x = some o)
    {out' : List Value} (inner : Copying S (x :: away) (o.held ++ out') k)
    (evolves : (h.vacated x).Evolves k) : Copying S away out' (k.setObject x o) := by
  obtain ⟨slot, hslot, same, ho⟩ := object?_eq_some_iff.mp found
  have change := replaced_modify (k := h.vacated x) (fun slot => { slot with object := none })
    hslot rfl
  have notFree := copying.owned.accounted.not_free hslot ho
  obtain ⟨kept, -⟩ := evolves.withheld x.index _ change.after rfl notFree
  have back := copying.later.restore found
    ⟨inner.owned.accounted, inner.parted, evolves⟩
  exact ⟨inner.owned.restore kept rfl same (copying.owned.valid.object? found) back.accounted,
    back.all, copying.apart, fun y new => copying.fresh y fun old =>
      new (back.evolves.issued y old)⟩

/-! ## Copying -/

def CopiesOwned (S : Handle → Prop) (copyOwned : Value → HeapM H Value) : Prop :=
  ∀ (v : Value) (h : Heap H) (away : List Handle) (out : List Value), Copying S away out h →
    (∀ ref, v.owned? = some ref → ¬ S ref.handle) → v.owns →
    (copyOwned v).Ensures h (fun w k => Copying S away (w :: out) k ∧ w.Within S)
      fun e k => Copying S away out k ∧ e.carried = []

theorem within_share (v : Value) : v.share.Within S := by
  intro ref owner
  rw [Value.owned?_share] at owner
  cases owner

theorem copyParts_copying {copyOwned : Value → HeapM H Value} (copies : CopiesOwned S copyOwned)
    (values : List Value) (outside : ∀ v ∈ values, ∀ ref, v.owned? = some ref → ¬ S ref.handle) :
    ∀ (copied : List Value) (h : Heap H), Copying S away (copied ++ out) h →
      (∀ w ∈ copied, w.Within S) →
      (copyParts copyOwned values copied).Ensures h
        (fun ws k => Copying S away (ws ++ out) k ∧ (∀ w ∈ ws, w.Within S) ∧
          ws.length = values.length + copied.length)
        fun e k => Copying S away out k ∧ e.carried = [] := by
  induction values with
  | nil =>
    intro copied h copying within
    refine ⟨copying.recount fun y => by simp, fun w mem => within w (List.mem_reverse.mp mem), ?_⟩
    simp
  | cons v values ih =>
    intro copied h copying within
    obtain ⟨first, rest⟩ := List.forall_mem_cons.mp outside
    rw [copyParts]
    split
    · rename_i owns
      simp only [Effect.ensures_bind, Effect.ensures_onFailure]
      refine (copies v h away _ copying first owns).mono ?_ ?_
      · rintro w k ⟨copying', new⟩
        refine (ih rest (w :: copied) k copying' (List.forall_mem_cons.mpr ⟨new, within⟩)).mono ?_
          fun _ _ failed => failed
        rintro ws k' ⟨done, within', length⟩
        exact ⟨done, within', by rw [length, List.length_cons, List.length_cons]; omega⟩
      · rintro e k ⟨copying', light⟩
        refine ⟨Copying.disposeAll (copying'.recount fun y => by simp) fun w mem =>
          within w (List.mem_reverse.mp mem), light⟩
    · refine (ih rest (v.share :: copied) h (copying.recount fun y => by simp)
        (List.forall_mem_cons.mpr ⟨within_share v, within⟩)).mono ?_ fun _ _ failed => failed
      rintro ws k ⟨done, within', length⟩
      exact ⟨done, within', by rw [length, List.length_cons, List.length_cons]; omega⟩

theorem allocLike_copying {values : List Value} (source : Object H) (valid : source.Valid)
    (length : values.length = (parts source).length) (copying : Copying S away (values ++ out) h)
    (within : ∀ w ∈ values, w.Within S) :
    (allocLike source values).Ensures h (fun w k => Copying S away (w :: out) k ∧ w.Within S)
      fun e k => Copying S away out k ∧ e.carried = [] := by
  unfold allocLike
  simp only [Effect.ensures_bind, Effect.ensures_get]
  split
  · rename_i s
    have size : values.length = s.size := by
      rw [length, parts, Structure.values_eq, List.length_map]
      exact (Storage.size_eq _).symm
    obtain ⟨valid', -, entries, clean⟩ :=
      Structure.rebuild_spec valid copying.owned.clean.structures size
    have held : (Object.struct (s.rebuild h.pools.structures values).1 : Object H).held =
        values.map Structure.attach := by
      have keys : values.length ≤ (s.entries.map Prod.fst).length := by
        rw [List.length_map, size]
        exact Nat.le_of_eq (Storage.size_eq _)
      have same : (s.rebuild h.pools.structures values).1.storage.entries =
        (s.rebuild h.pools.structures values).1.entries := rfl
      rw [Object.held, Structure.values_eq, same, entries]
      exact List.map_snd_zip (by simpa using keys)
    refine Copying.alloc (Copying.withPools (copying.recount fun y => ?_) _
      ⟨clean, copying.owned.clean.values⟩) valid' fun w mem => ?_
    · rw [held, tally_append, tally_append, tally_map Structure.owners_attach]
    · rw [held] at mem
      obtain ⟨v, member, rfl⟩ := List.mem_map.mp mem
      exact within v member
  · rename_i unit captures
    obtain ⟨room, -, fresh, clean⟩ := copying.owned.clean.values.checkout values.length
    have held : (Object.callable (.script unit
        ((h.pools.values.checkout values.length).1.append values)) : Object H).held = values := by
      rw [fresh]
      rfl
    refine Copying.alloc (Copying.withPools (copying.recount fun y => ?_) _
      ⟨copying.owned.clean.structures, clean⟩) trivial fun w mem => ?_
    · rw [held]
    · rw [held] at mem
      exact within w mem
  · cases List.eq_nil_of_length_eq_zero length
    exact copying.alloc (o := .callable (.host _ _)) trivial fun w mem => by cases mem
  · rename_i other noStruct noScript noHost
    have none : values = [] := by
      refine List.eq_nil_of_length_eq_zero (length.trans ?_)
      cases source with
      | struct s => exact (noStruct s rfl).elim
      | callable c =>
        cases c with
        | script unit captures => exact (noScript unit captures rfl).elim
        | host path function => rfl
      | _ => rfl
    subst none
    exact ⟨copying, rfl⟩

theorem owned?_of_mem_parts {v : Value} (mem : v ∈ parts o) : v ∈ o.held := by
  cases o with
  | callable c => cases c <;> exact mem
  | struct s => exact mem
  | _ => cases mem

theorem copyWithin_copying (deep : Bool) (fuel : Nat) :
    ∀ (v : Value) (h : Heap H) (away : List Handle) (out : List Value), Copying S away out h →
      (∀ ref, v.ref? = some ref → (h.object? ref.handle).isSome → ¬ S ref.handle) →
      (copyWithin deep fuel v).Ensures h (fun w k => Copying S away (w :: out) k ∧ w.Within S)
        fun e k => Copying S away out k ∧ e.carried = [] := by
  induction fuel with
  | zero => exact fun v h away out copying _ => ⟨copying, rfl⟩
  | succ fuel ih =>
    intro v h away out copying outside
    rw [copyWithin.eq_def]
    simp only
    split
    · exact ⟨copying.recount fun y => by simp, within_share v⟩
    · exact ⟨copying, rfl⟩
    · exact ⟨copying, rfl⟩
    · rename_i kind x _ _ refers
      simp only [Effect.ensures_bind, Effect.ensures_get, Effect.ensures_liftM]
      cases object : h.object? x with
      | none =>
        simp only [borrow, object]
        exact ⟨copying, rfl⟩
      | some o =>
        rw [borrow_eq_ok object]
        simp only [Effect.ensures_set, Effect.ensures_andAlways, Effect.ensures_bind]
        have source := outside _ refers (by simp [object])
        have lent := copying.lend object source
        have copies : CopiesOwned (H := H) S (if deep then copyWithin deep fuel
            else fun child => return child.share) := by
          intro w j away' out' copying' notNew owns
          cases deep with
          | true =>
            refine ih w j away' out' copying' fun ref refers' _ => notNew ref ?_
            exact Value.owned?_of_owns owns refers'
          | false => exact ⟨copying'.recount fun y => by simp, within_share w⟩
        have children : ∀ w ∈ parts o, ∀ ref, w.owned? = some ref → ¬ S ref.handle :=
          fun w mem ref owner inside => source
            ((copying.parted.object? object w (owned?_of_mem_parts mem) ref owner).mpr inside)
        have everything : Later (fun _ _ => True) (away.map Handle.index) h h :=
          ⟨copying.owned.accounted, fun _ _ _ _ _ => trivial, Evolves.refl h⟩
        have keeps : ∀ w, ((if deep then copyWithin deep fuel
            else fun child => return child.share : Value → HeapM H Value) w).Keeps
              (Later (fun _ _ => True) (x.index :: away.map Handle.index) (h.vacated x)) := by
          intro w
          cases deep with
          | true => exact copyWithin_keeps Object.Stable.true true fuel w _ _
          | false => exact Effect.Keeps.pure _ _
        refine ((copyParts_keeps keeps (parts o) [] (h.vacated x) (everything.lend object)).and
          (copyParts_copying copies (parts o) children [] (h.vacated x)
            (show Copying S (x :: away) ([] ++ (o.held ++ out)) (h.vacated x) from lent)
            fun w mem => by cases mem)).mono ?_ ?_
        · rintro values k ⟨later, made, within, length⟩
          refine ((allocLike_keeps (x := x) Object.Stable.true trivial values k later).and
            (allocLike_copying o (copying.owned.valid.object? object) (by simpa using length) made
              within)).mono ?_ ?_
          · rintro w k' ⟨later', made', new⟩
            exact ⟨copying.restore object (made'.recount fun y => by
              simp only [tally_append, tally_cons]; omega) later'.evolves, new⟩
          · rintro e k' ⟨later', failed, light⟩
            exact ⟨copying.restore object failed later'.evolves, light⟩
        · rintro e k ⟨later, failed, light⟩
          exact ⟨copying.restore object failed later.evolves, light⟩

theorem copyWithin_conserves (deep : Bool) (fuel : Nat) (v : Value) :
    Effect.Conserves (ledger H) [] (copyWithin deep fuel v) fun w => [w] := by
  intro h rest owned
  have named : ∀ {o : Object H} {x : Handle}, h.object? x = some o → ∀ w ∈ o.held, ∀ ref,
      w.owned? = some ref → h.Issued ref.handle := by
    intro o x found w mem ref owner
    have one := Value.owners_eq_one owner
    have counted := owners_le_tally (x := ref.handle) mem
    obtain ⟨p, live⟩ := Option.isSome_iff_exists.mp (owned.live_inside found (y := ref.handle)
      (by omega))
    exact owned.accounted.issued_of_live live
  have copying : Copying (fun y => ¬ h.Issued y) [] rest h := by
    refine ⟨owned, fun i slot o hslot ho w mem ref owner => ?_,
      fun y mem => (List.not_mem_nil mem).elim, fun _ new => new⟩
    have found : h.object? ⟨i, slot.generation⟩ = some o :=
      object?_eq_some_iff.mpr ⟨slot, hslot, rfl, ho⟩
    simp only [owned.accounted.issued_of_live found, named found w mem ref owner]
  refine (copyWithin_copying deep fuel v h [] rest copying fun ref _ live new => ?_).mono
    (fun w k done => done.1.owned) fun e k failed => .inr ?_
  · obtain ⟨o, live⟩ := Option.isSome_iff_exists.mp live
    exact new (owned.accounted.issued_of_live live)
  · rw [failed.2]
    exact failed.1.owned

theorem deepCopy_conserves (v : Value) :
    Effect.Conserves (ledger H) [] (deepCopy v) fun w => [w] :=
  .get_bind fun h => copyWithin_conserves true (h.slots.size + 1) v h

theorem shallowCopy_conserves (v : Value) :
    Effect.Conserves (ledger H) [] (shallowCopy v) fun w => [w] :=
  copyWithin_conserves false 1 v

end ScriptMachine.Heap
