import ScriptMachine.Proofs.Heap.Operations
import ScriptMachine.Proofs.Ledger
import ScriptMachine.Proofs.Structure.Operations

/-!
# Owners on the heap

`Heap.Owned` is the law of ownership: every object has one owner, be it in another object or in
hand, and no owner names anything else. An object that is lent while it is copied is away from its
slot; its owner still counts, and what it holds is in hand.

Each primitive change of a heap is shown here to keep the law, given what its caller has in hand
before and afterwards. Disposal is the loop among them: it meets only objects that its owners lead
to, so objects that are away are safe from it if no owner leads out of a region that they are not
in.
-/

set_option autoImplicit false

namespace ScriptMachine

variable {H : Type}

/-- The values in a slot. -/
def Slot.held (slot : Slot H) : List Value := (slot.object.map Object.held).getD []

@[simp] theorem Slot.held_some (generation : Nat) (o : Object H) :
    Slot.held ⟨generation, some o⟩ = o.held := rfl

@[simp] theorem Slot.held_none (generation : Nat) :
    Slot.held (⟨generation, none⟩ : Slot H) = [] := rfl

theorem Slot.held_of_some {slot : Slot H} {o : Object H} (found : slot.object = some o) :
    slot.held = o.held := by
  simp [held, found]

theorem Slot.held_of_none {slot : Slot H} (vacant : slot.object = none) : slot.held = [] := by
  simp [held, vacant]

/-- A structure is in working order. -/
def Object.Valid : Object H → Prop
  | .struct s => s.storage.Valid
  | _ => True

structure Pools.Clean (pools : Pools) : Prop where
  structures : pools.structures.Clean
  values : pools.values.Clean

def Value.Within (S : Handle → Prop) (v : Value) : Prop := ∀ ref, v.owned? = some ref → S ref.handle

def Object.Parted (S : Handle → Prop) (x : Handle) (o : Object H) : Prop :=
  ∀ v ∈ o.held, v.Within fun y => S x ↔ S y

namespace Heap

def held (h : Heap H) : List Value := h.slots.toList.flatMap Slot.held

def due (h : Heap H) (away : List Handle) (x : Handle) : Nat :=
  if (h.object? x).isSome ∨ x ∈ away then 1 else 0

/-- Every object has one owner, on the heap or in hand, and no owner names anything else. -/
structure Owned (away : List Handle) (out : List Value) (h : Heap H) : Prop where
  accounted : h.Accounted (away.map Handle.index)
  clean : h.pools.Clean
  valid : h.All fun _ o => o.Valid
  issued : ∀ x ∈ away, h.Issued x
  balance : ∀ x, tally x h.held + tally x out = h.due away x

variable {h k : Heap H} {away : List Handle} {out out' : List Value} {x : Handle} {o o' : Object H}
  {S : Handle → Prop}

theorem Owned.recount (owned : h.Owned away out) (same : SameOwners out out') :
    h.Owned away out' :=
  { owned with balance := fun x => same x ▸ owned.balance x }

theorem Owned.later (owned : h.Owned away out) :
    Later (fun _ o => o.Valid) (away.map Handle.index) h h :=
  ⟨owned.accounted, owned.valid, Evolves.refl h⟩

theorem owned_empty : ({} : Heap H).Owned [] [] where
  accounted := accounted_empty
  clean := ⟨StructurePools.clean_empty, Pool.clean_empty⟩
  valid := later_empty.all
  issued := fun _ mem => by cases mem
  balance := fun _ => rfl

theorem Owned.live (owned : h.Owned [] out) (pos : 0 < tally x out) : (h.object? x).isSome := by
  have balance := owned.balance x
  unfold due at balance
  split at balance
  · rename_i live
    simpa using live
  · omega

theorem mem_held {v : Value} (found : h.object? x = some o) (mem : v ∈ o.held) : v ∈ h.held := by
  obtain ⟨slot, hslot, -, object⟩ := object?_eq_some_iff.mp found
  refine List.mem_flatMap.mpr ⟨slot, ?_, by rwa [Slot.held_of_some object]⟩
  exact Array.mem_toList_iff.mpr (Array.mem_of_getElem? hslot)

theorem Owned.live_inside (owned : h.Owned [] out) (found : h.object? x = some o) {y : Handle}
    (pos : 0 < tally y o.held) : (h.object? y).isSome := by
  obtain ⟨v, mem, owner⟩ := exists_mem_of_tally_pos pos
  have counted := owners_le_tally (x := y) (mem_held found mem)
  have balance := owned.balance y
  unfold due at balance
  split at balance
  · rename_i live
    simpa using live
  · omega

/-! ## Changes of one slot -/

theorem tally_set {slots : List (Slot H)} {i : Nat} {old : Slot H} (found : slots[i]? = some old)
    (new : Slot H) (x : Handle) :
    tally x ((slots.set i new).flatMap Slot.held) + tally x old.held =
      tally x (slots.flatMap Slot.held) + tally x new.held := by
  induction slots generalizing i with
  | nil => cases found
  | cons slot slots ih =>
    cases i with
    | zero =>
      cases found
      simp only [List.set_cons_zero, List.flatMap_cons, tally_append]
      omega
    | succ i =>
      have rest := ih (i := i) (by simpa using found)
      simp only [List.set_cons_succ, List.flatMap_cons, tally_append]
      omega

theorem Replaced.tally_held {i : Nat} {old new : Slot H} (change : Replaced h k i old new)
    (x : Handle) : tally x k.held + tally x old.held = tally x h.held + tally x new.held := by
  have slots : k.slots.toList = h.slots.toList.set i new := by
    refine List.ext_getElem? fun j => ?_
    rw [List.getElem?_set, Array.getElem?_toList, Array.getElem?_toList]
    by_cases same : i = j
    · subst same
      have inside : i < h.slots.size := by
        have := Array.getElem?_eq_some_iff.mp change.before
        exact this.choose
      rw [if_pos rfl, change.after, if_pos (by simpa using inside)]
    · rw [if_neg same, change.away j (Ne.symm same)]
  unfold held
  rw [slots]
  exact tally_set (by simpa using change.before) new x

theorem object?_eq_none_of_vacant {slot : Slot H} (found : h.slots[x.index]? = some slot)
    (vacant : slot.object = none) : h.object? x = none := by
  simp [object?, found, vacant]

theorem Owned.not_away (owned : h.Owned away out) (found : h.object? x = some o) : x ∉ away := by
  intro mem
  obtain ⟨slot, hslot, -, ho⟩ := object?_eq_some_iff.mp found
  exact owned.accounted.not_lent hslot ho (List.mem_map_of_mem mem)

theorem Owned.withPools (owned : h.Owned away out) (pools : Pools) (clean : pools.Clean) :
    { h with pools }.Owned away out :=
  ⟨(owned.later.withPools pools).accounted, clean, owned.valid, owned.issued, owned.balance⟩

theorem Owned.setObject (owned : h.Owned away out) (found : h.object? x = some o)
    (valid : o'.Valid) (same : SameOwners (o.held ++ out) (o'.held ++ out')) :
    (h.setObject x o').Owned away out' := by
  obtain ⟨slot, hslot, -, ho⟩ := object?_eq_some_iff.mp found
  have change := replaced_modify (k := h.setObject x o')
    (fun slot => { slot with object := some o' }) hslot rfl
  refine ⟨owned.accounted.setObject found o', owned.clean, owned.valid.setObject found valid,
    fun y mem => (issued_setObject found y).mpr (owned.issued y mem), fun y => ?_⟩
  have balance := owned.balance y
  have moved := change.tally_held y
  have owners := same y
  rw [Slot.held_of_some ho, Slot.held_some] at moved
  rw [tally_append, tally_append] at owners
  have due : (h.setObject x o').due away y = h.due away y := by
    unfold Heap.due
    rw [object?_setObject found]
    by_cases eq : y = x
    · simp [eq, found]
    · rw [if_neg eq]
  omega

theorem Owned.freeSlot {v : Value} {ref : HeapRef} (owned : h.Owned away (v :: out))
    (owner : v.owned? = some ref) (run : h.freeSlot ref.handle = some (o, k)) :
    k.Owned away (o.held ++ out) := by
  have freed := (owned.later.freeSlot run).1
  obtain ⟨slot, hslot, same, ho, -, either⟩ := freeSlot_cases run
  have found : h.object? ref.handle = some o := object?_eq_some_iff.mpr ⟨slot, hslot, same, ho⟩
  refine ⟨freed.accounted, (freeSlot_pools run).symm ▸ owned.clean, freed.all,
    fun y mem => freed.evolves.issued y (owned.issued y mem), fun y => ?_⟩
  obtain ⟨new, vacant, change⟩ : ∃ new : Slot H, new.object = none ∧
      Replaced h k ref.handle.index slot new := by
    rcases either with ⟨-, -, -, change⟩ | ⟨-, -, -, change⟩ <;> exact ⟨_, rfl, change⟩
  have moved := change.tally_held y
  rw [Slot.held_of_some ho, Slot.held_of_none vacant, tally_nil] at moved
  have balance := owned.balance y
  rw [tally_cons] at balance
  rw [tally_append]
  by_cases eq : y = ref.handle
  · subst eq
    have gone : k.object? ref.handle = none := object?_eq_none_of_vacant change.after vacant
    have one := Value.owners_eq_one owner
    have before : h.due away ref.handle = 1 := by simp [due, found]
    have after : k.due away ref.handle = 0 := by simp [due, gone, owned.not_away found]
    omega
  · have other : v.owners y = 0 := by simp [Value.owners, owner, Ne.symm eq]
    have due : k.due away y = h.due away y := by
      have same : k.object? y = h.object? y := by
        by_cases index : y.index = ref.handle.index
        · rw [object?_eq_none_of_vacant (index ▸ change.after) vacant]
          have older : slot.generation ≠ y.generation := by
            intro generation
            apply eq
            cases y; cases hx : ref.handle
            simp_all
          simp [object?, index, hslot, older]
        · exact change.object?_away index
      unfold Heap.due
      rw [same]
    omega

/-- A new object takes over what it holds; its owner is in hand. -/
theorem Owned.alloc (owned : h.Owned away (o.held ++ out)) (valid : o.Valid) :
    (h.alloc o).2.Owned away ((h.alloc o).1 :: out) := by
  obtain ⟨x, answer, new, found⟩ := owned.accounted.object?_alloc o
  -- validity has no part in where the object is placed, so it can be left to the one that is new
  have placed := Later.alloc (o := o) (P := fun _ p => p = o ∨ p.Valid)
    ⟨owned.accounted, fun i slot p hslot hp => .inr (owned.valid i slot p hslot hp),
      Evolves.refl h⟩ fun _ => .inl rfl
  have held : ∀ y, tally y (h.alloc o).2.held = tally y h.held + tally y o.held := by
    intro y
    rcases owned.accounted.alloc_cases o with
      ⟨i, rest, slot, -, vacant, -, -, -, -, change⟩ | ⟨-, -, after⟩
    · have moved := change.tally_held y
      rw [Slot.held_of_none vacant, tally_nil] at moved
      exact moved
    · rw [after]
      simp [Heap.held]
  refine ⟨placed.accounted, (alloc_pools h o).symm ▸ owned.clean, fun i slot p hslot hp => ?_,
    fun y mem => placed.evolves.issued y (owned.issued y mem), fun y => ?_⟩
  · rcases placed.all i slot p hslot hp with rfl | valid'
    · exact valid
    · exact valid'
  · have balance := owned.balance y
    have moved := held y
    rw [tally_append] at balance
    rw [tally_cons, answer, Value.owners_owned]
    by_cases eq : y = x
    · subst eq
      have before : h.due away y = 0 := by
        unfold due
        rw [if_neg]
        rintro (live | mem)
        · obtain ⟨p, live⟩ := Option.isSome_iff_exists.mp live
          exact new (owned.accounted.issued_of_live live)
        · exact new (owned.issued y mem)
      have after : (h.alloc o).2.due away y = 1 := by simp [due, found]
      rw [if_pos rfl]
      omega
    · have due : (h.alloc o).2.due away y = h.due away y := by
        unfold Heap.due
        rw [found, if_neg eq]
      rw [if_neg (Ne.symm eq)]
      omega

/-! ## Lending -/

theorem object?_vacated (found : h.object? x = some o) (y : Handle) :
    (h.vacated x).object? y = if y = x then none else h.object? y := by
  obtain ⟨slot, hslot, same, ho⟩ := object?_eq_some_iff.mp found
  have out := replaced_modify (k := h.vacated x) (fun slot => { slot with object := none })
    hslot rfl
  by_cases index : y.index = x.index
  · rw [object?_eq_none_of_vacant (index ▸ out.after) rfl]
    by_cases eq : y = x
    · rw [if_pos eq]
    · have older : slot.generation ≠ y.generation := by
        intro generation
        apply eq
        cases x; cases y
        simp_all
      simp [eq, object?, index, hslot, older]
  · rw [out.object?_away index, if_neg (by rintro rfl; exact index rfl)]

theorem Owned.lend (owned : h.Owned away out) (found : h.object? x = some o) :
    (h.vacated x).Owned (x :: away) (o.held ++ out) := by
  obtain ⟨slot, hslot, same, ho⟩ := object?_eq_some_iff.mp found
  have change := replaced_modify (k := h.vacated x) (fun slot => { slot with object := none })
    hslot rfl
  have lent := owned.later.lend found
  have issued : ∀ y, h.Issued y → (h.vacated x).Issued y := by
    intro y hy
    by_cases index : y.index = x.index
    · rw [change.issued_at index]
      rwa [issued_iff_of_slot slot (by rw [index, hslot]), index] at hy
    · exact (change.issued_away index Iff.rfl).mpr hy
  refine ⟨lent.accounted, owned.clean, lent.all, fun y mem => ?_, fun y => ?_⟩
  · rcases List.mem_cons.mp mem with rfl | mem
    · exact issued _ (owned.accounted.issued_of_live found)
    · exact issued y (owned.issued y mem)
  · have balance := owned.balance y
    have moved := change.tally_held y
    rw [Slot.held_of_some ho, Slot.held_none, tally_nil] at moved
    have due : (h.vacated x).due (x :: away) y = h.due away y := by
      unfold Heap.due
      rw [object?_vacated found]
      by_cases eq : y = x <;> simp [eq, found]
    rw [tally_append]
    omega

theorem Owned.restore {slot : Slot H} (owned : k.Owned (x :: away) (o.held ++ out))
    (found : k.slots[x.index]? = some slot) (vacant : slot.object = none)
    (generation : slot.generation = x.generation) (valid : o.Valid)
    (accounted : (k.setObject x o).Accounted (away.map Handle.index)) :
    (k.setObject x o).Owned away out := by
  have change := replaced_modify (k := k.setObject x o) (fun slot => { slot with object := some o })
    found rfl
  refine ⟨accounted, owned.clean, change.all owned.valid fun p hp => ?_, fun y mem => ?_,
    fun y => ?_⟩
  · cases hp
    exact valid
  · have issued := owned.issued y (List.mem_cons_of_mem _ mem)
    by_cases index : y.index = x.index
    · rw [change.issued_at index]
      rwa [issued_iff_of_slot slot (by rw [index, found]), index] at issued
    · exact (change.issued_away index Iff.rfl).mpr issued
  · have balance := owned.balance y
    have moved := change.tally_held y
    rw [Slot.held_of_none vacant, tally_nil, Slot.held_some] at moved
    rw [tally_append] at balance
    have due : (k.setObject x o).due away y = k.due (x :: away) y := by
      unfold Heap.due
      by_cases index : y.index = x.index
      · rw [change.object?_at index, object?_eq_none_of_vacant (index ▸ found) vacant]
        by_cases same : y = x
        · simp [same, generation]
        · have older : slot.generation ≠ y.generation := by
            intro equal
            apply same
            cases x; cases y
            simp_all
          simp [same, older]
      · have ne : y ≠ x := fun eq => index (congrArg Handle.index eq)
        simp [change.object?_away index, ne]
    omega

/-! ## Disposal -/

theorem freeSlot_eq_none (gone : h.freeSlot x = none) : h.object? x = none := by
  unfold Heap.freeSlot at gone
  unfold object?
  cases found : h.slots[x.index]? with
  | none => rfl
  | some slot =>
    simp only [found] at gone
    split at gone
    · rename_i same
      simpa [same] using gone
    · rename_i other
      simp [other]

def Stale (h : Heap H) (vs : List Value) : Prop :=
  ∀ v ∈ vs, ∀ ref, v.owned? = some ref → h.object? ref.handle = none

/-- Work is done from the left up to the first owner whose object is there. -/
theorem freeNext_spec (work : List Value) :
    match h.freeNext work with
    | none => h.Stale work
    | some (o, rest, k) => ∃ before v ref, work = before ++ v :: rest ∧ h.Stale before ∧
        v.owned? = some ref ∧ h.freeSlot ref.handle = some (o, k) := by
  induction work with
  | nil => exact fun v mem => by cases mem
  | cons v work ih =>
    have further : ∀ stale : (∀ ref, v.owned? = some ref → h.object? ref.handle = none),
        match h.freeNext work with
        | none => h.Stale (v :: work)
        | some (o, rest, k) => ∃ before w ref, v :: work = before ++ w :: rest ∧ h.Stale before ∧
            w.owned? = some ref ∧ h.freeSlot ref.handle = some (o, k) := by
      intro stale
      cases next : h.freeNext work with
      | none =>
        rw [next] at ih
        exact List.forall_mem_cons.mpr ⟨stale, ih⟩
      | some triple =>
        obtain ⟨o, rest, k⟩ := triple
        rw [next] at ih
        obtain ⟨before, w, ref, rfl, staleBefore, owner, freed⟩ := ih
        exact ⟨v :: before, w, ref, rfl, List.forall_mem_cons.mpr ⟨stale, staleBefore⟩, owner, freed⟩
    rw [freeNext]
    cases owner : v.owned? with
    | none => exact further (by simp [owner])
    | some ref =>
      simp only
      cases freed : h.freeSlot ref.handle with
      | none =>
        refine further fun ref' owner' => ?_
        rw [owner] at owner'
        cases owner'
        exact freeSlot_eq_none freed
      | some pair =>
        exact ⟨[], v, ref, rfl, fun _ mem => (List.not_mem_nil mem).elim, owner, freed⟩

theorem Owned.bare_of_stale {vs : List Value} (owned : h.Owned away (vs ++ out))
    (apart : ∀ x ∈ away, ¬ S x) (within : ∀ v ∈ vs, v.Within S) (stale : h.Stale vs) : Bare vs := by
  intro x
  refine tally_eq_zero fun v mem => (Nat.eq_zero_or_pos _).resolve_right fun pos => ?_
  obtain ⟨ref, owner, rfl⟩ := Value.owned?_of_pos pos
  have balance := owned.balance ref.handle
  have outside : ref.handle ∉ away := fun lent => apart _ lent (within v mem ref owner)
  have due : h.due away ref.handle = 0 := by simp [Heap.due, stale v mem ref owner, outside]
  have counted := owners_le_tally (x := ref.handle) mem
  rw [tally_append] at balance
  omega

theorem recycle_clean (o : Object H) {pools : Pools} (clean : pools.Clean) :
    (o.recycle pools).Clean := by
  unfold Object.recycle
  split
  · exact { clean with structures := Storage.release_clean _ clean.structures }
  · exact { clean with values := clean.values.checkin _ }
  · exact clean
  · split
    · exact ⟨clean.structures, clean.values⟩
    · exact clean
  · exact clean

theorem occupied_freeSlot (run : h.freeSlot x = some (o, k)) : k.occupied + 1 = h.occupied := by
  obtain ⟨slot, -, -, ho, -, either⟩ := freeSlot_cases run
  rcases either with ⟨-, -, -, change⟩ | ⟨-, -, -, change⟩
  · simpa [ho] using change.count
  · simpa [ho] using change.count

theorem occupied_pos (found : h.object? x = some o) : 0 < h.occupied := by
  obtain ⟨slot, hslot, -, ho⟩ := object?_eq_some_iff.mp found
  refine List.countP_pos_iff.mpr ⟨slot, ?_, by simp [ho]⟩
  exact Array.mem_toList_iff.mpr (Array.mem_of_getElem? hslot)

theorem occupied_le (h : Heap H) : h.occupied ≤ h.slots.size := List.countP_le_length

/-- Disposal uses up the owners it is given and all that they lead to. Every round frees an object,
so as many rounds as there are objects are enough. -/
theorem Owned.sweep (apart : ∀ x ∈ away, ¬ S x) {rounds : Nat} {work : List Value}
    (owned : h.Owned away (work ++ out)) (parted : h.All (Object.Parted S))
    (within : ∀ v ∈ work, v.Within S) (enough : h.occupied ≤ rounds) :
    (h.sweep work rounds).Owned away out ∧ (h.sweep work rounds).All (Object.Parted S) := by
  have finished : ∀ {work : List Value} {k : Heap H}, k.Owned away (work ++ out) →
      (∀ v ∈ work, v.Within S) → k.Stale work → k.Owned away out := by
    intro work k owned within stale
    exact owned.recount fun x => by rw [tally_append, owned.bare_of_stale apart within stale x,
      Nat.zero_add]
  induction rounds generalizing h work with
  | zero =>
    have empty : ∀ x, h.object? x = none := fun x => Option.eq_none_iff_forall_ne_some.mpr
      fun o found => by
        have := occupied_pos found
        omega
    exact ⟨finished owned within fun v _ ref _ => empty ref.handle, parted⟩
  | succ rounds ih =>
    rw [Heap.sweep]
    have spec := h.freeNext_spec work
    cases next : h.freeNext work with
    | none =>
      rw [next] at spec
      exact ⟨finished owned within spec, parted⟩
    | some triple =>
      obtain ⟨o, rest, k⟩ := triple
      rw [next] at spec
      obtain ⟨before, v, ref, rfl, stale, owner, freed⟩ := spec
      obtain ⟨withinBefore, withinRest⟩ := List.forall_mem_append.mp within
      obtain ⟨withinV, withinRest⟩ := List.forall_mem_cons.mp withinRest
      have bare : Bare before := by
        have ahead : h.Owned away (before ++ (v :: (rest ++ out))) := by simpa using owned
        exact ahead.bare_of_stale apart withinBefore stale
      have left : k.Owned away (o.held ++ (rest ++ out)) := by
        refine Owned.freeSlot (v := v) ?_ owner freed
        exact owned.recount fun x => by simp [bare x]
      have later := Later.freeSlot ⟨owned.accounted, parted, Evolves.refl h⟩ freed
      have clean := recycle_clean o left.clean
      have rounds' : k.occupied ≤ rounds := by
        have := occupied_freeSlot freed
        omega
      refine ih (h := { k with pools := o.recycle k.pools }) ?_ later.1.all ?_ rounds'
      · refine (left.withPools _ clean).recount fun x => ?_
        simp only [tally_append, tally_reverse]
        omega
      · refine List.forall_mem_append.mpr ⟨fun w mem => ?_, withinRest⟩
        exact fun ref' owner' =>
          (later.2 w (List.mem_reverse.mp mem) ref' owner').mp (withinV ref owner)

theorem Owned.disposeWithin (apart : ∀ x ∈ away, ¬ S x) {v : Value}
    (owned : h.Owned away (v :: out)) (parted : h.All (Object.Parted S)) (within : v.Within S) :
    (h.dispose v).Owned away out ∧ (h.dispose v).All (Object.Parted S) := by
  unfold Heap.dispose
  split
  · have single : h.Owned away ([v] ++ out) := owned
    exact Owned.sweep apart single parted (by simpa using within) h.occupied_le
  · rename_i plain
    refine ⟨owned.recount fun x => ?_, parted⟩
    rw [tally_cons, Value.owners_eq_zero (Value.owned?_eq_none (by simpa using plain)), Nat.zero_add]

theorem Owned.disposeAllWithin (apart : ∀ x ∈ away, ¬ S x) {vs : List Value}
    (owned : h.Owned away (vs ++ out)) (parted : h.All (Object.Parted S))
    (within : ∀ v ∈ vs, v.Within S) :
    (h.disposeAll vs).Owned away out ∧ (h.disposeAll vs).All (Object.Parted S) := by
  induction vs generalizing h with
  | nil => exact ⟨owned, parted⟩
  | cons v vs ih =>
    obtain ⟨first, rest⟩ := List.forall_mem_cons.mp within
    have ahead : h.Owned away (v :: (vs ++ out)) := owned
    obtain ⟨owned', parted'⟩ := Owned.disposeWithin apart ahead parted first
    exact ih owned' parted' rest

theorem Owned.disposeAll {vs : List Value} (owned : h.Owned [] (vs ++ out)) :
    (h.disposeAll vs).Owned [] out :=
  (owned.disposeAllWithin (S := fun _ => True) (fun x mem => by cases mem)
    (fun _ _ _ _ _ _ _ _ _ => Iff.rfl) fun _ _ _ _ => trivial).1

theorem Owned.dispose {v : Value} (owned : h.Owned [] (v :: out)) : (h.dispose v).Owned [] out :=
  (show h.Owned [] ([v] ++ out) from owned).disposeAll

def ledger (H : Type) : Ledger (Heap H) where
  Settled out h := h.Owned [] out
  recount same owned := owned.recount same
  Excused _ := False

end Heap

end ScriptMachine
