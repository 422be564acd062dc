import ScriptMachine.Proofs.Heap.Disposal

/-!
# Heaps in working order

The accounts of an orderly heap agree with its slots, its structures are valid and its pools hand
out clean storage; who owns what is left open. Such a heap may hold owners that are stale, objects
without an owner and objects that own each other.

`Grown` says that a heap is an earlier one with some new objects. The number of objects of a heap is
that of its live handles, so it grows by the number of the new ones.
-/

set_option autoImplicit false

namespace ScriptMachine.Heap

variable {H : Type} {g h j k : Heap H} {lent : List Nat} {x y : Handle} {o o' : Object H}
  {xs ys : List Handle}

structure Orderly (lent : List Nat) (h : Heap H) : Prop where
  accounted : h.Accounted lent
  valid : h.All fun _ o => o.Valid
  clean : h.pools.Clean

theorem Owned.orderly {away : List Handle} {out : List Value} (owned : h.Owned away out) :
    h.Orderly (away.map Handle.index) := ⟨owned.accounted, owned.valid, owned.clean⟩

namespace Orderly

theorem later (orderly : h.Orderly lent) : Later (fun _ o => o.Valid) lent h h :=
  ⟨orderly.accounted, orderly.valid, Evolves.refl h⟩

/-- The heap as its handles see it. -/
theorem plain (orderly : h.Orderly lent) : Later (fun _ _ => True) lent h h :=
  ⟨orderly.accounted, fun _ _ _ _ _ => trivial, Evolves.refl h⟩

theorem issued (orderly : h.Orderly lent) (found : h.object? x = some o) : h.Issued x :=
  orderly.accounted.issued_of_live found

theorem withPools (orderly : h.Orderly lent) (pools : Pools) (clean : pools.Clean) :
    { h with pools }.Orderly lent :=
  ⟨(orderly.later.withPools pools).accounted, (orderly.later.withPools pools).all, clean⟩

theorem setObject (orderly : h.Orderly lent) (found : h.object? x = some o) (valid : o'.Valid) :
    (h.setObject x o').Orderly lent :=
  ⟨orderly.accounted.setObject found o', orderly.valid.setObject found valid, orderly.clean⟩

theorem alloc (orderly : h.Orderly lent) (valid : o.Valid) : (h.alloc o).2.Orderly lent := by
  have placed := Later.alloc (o := o) (P := fun _ p => p = o ∨ p.Valid)
    ⟨orderly.accounted, fun i slot p hslot hp => .inr (orderly.valid i slot p hslot hp),
      Evolves.refl h⟩ fun _ => .inl rfl
  refine ⟨placed.accounted, fun i slot p hslot hp => ?_, (alloc_pools h o).symm ▸ orderly.clean⟩
  rcases placed.all i slot p hslot hp with rfl | valid'
  · exact valid
  · exact valid'

theorem lend (orderly : h.Orderly lent) (found : h.object? x = some o) :
    (h.vacated x).Orderly (x.index :: lent) :=
  ⟨(orderly.later.lend found).accounted, (orderly.later.lend found).all, orderly.clean⟩

theorem restore (orderly : h.Orderly lent) (found : h.object? x = some o)
    (inner : k.Orderly (x.index :: lent)) (evolves : (h.vacated x).Evolves k) :
    (k.setObject x o).Orderly lent ∧ h.Evolves (k.setObject x o) := by
  have back := orderly.later.restore found ⟨inner.accounted, inner.valid, evolves⟩
  exact ⟨⟨back.accounted, back.all, inner.clean⟩, back.evolves⟩

end Orderly

/-! ## Disposal -/

theorem clean_sweep (rounds : Nat) : ∀ {h : Heap H} (work : List Value), h.pools.Clean →
    (h.sweep work rounds).pools.Clean := by
  induction rounds with
  | zero => exact fun _ clean => clean
  | succ rounds ih =>
    intro h work clean
    rw [Heap.sweep]
    have spec := h.freeNext_spec work
    cases next : h.freeNext work with
    | none => exact clean
    | some triple =>
      obtain ⟨o, rest, k⟩ := triple
      rw [next] at spec
      obtain ⟨-, -, ref, -, -, -, freed⟩ := spec
      exact ih _ (recycle_clean o (freeSlot_pools freed ▸ clean))

theorem clean_disposeAll (vs : List Value) (clean : h.pools.Clean) :
    (h.disposeAll vs).pools.Clean := by
  induction vs generalizing h with
  | nil => exact clean
  | cons v vs ih =>
    refine ih ?_
    unfold Heap.dispose
    split
    · exact clean_sweep _ _ clean
    · exact clean

theorem Orderly.disposeAll (orderly : h.Orderly lent) (vs : List Value) :
    (h.disposeAll vs).Orderly lent ∧ h.Evolves (h.disposeAll vs) :=
  ⟨⟨(orderly.later.disposeAll vs).accounted, (orderly.later.disposeAll vs).all,
    clean_disposeAll vs orderly.clean⟩, (orderly.later.disposeAll vs).evolves⟩

theorem object?_disposeAll (vs : List Value) (y : Handle) :
    (h.Below vs y → (h.disposeAll vs).object? y = none) ∧
      (¬ h.Below vs y → (h.disposeAll vs).object? y = h.object? y) := by
  have clears := clears_disposeAll vs h
  have back : h.object? y = none → (h.disposeAll vs).object? y = none := by
    intro gone
    cases found : (h.disposeAll vs).object? y with
    | none => rfl
    | some o =>
      have live := (clears.live_back (x := y) (by simp [found])).1
      simp [gone] at live
  cases found : h.object? y with
  | none => exact ⟨fun _ => back found, fun _ => back found⟩
  | some o =>
    exact ⟨fun below => clears.gone (by simp [found]) below,
      fun apart => clears.kept found apart id⟩

theorem object?_of_disposeAll {vs : List Value} {y : Handle} {o : Object H}
    (left : (h.disposeAll vs).object? y = some o) : h.object? y = some o := by
  obtain ⟨gone, kept⟩ := object?_disposeAll (h := h) vs y
  by_cases below : h.Below vs y
  · rw [gone below] at left
    cases left
  · exact (kept below).symm.trans left

/-! ## Live handles -/

def handles (h : Heap H) : List Handle :=
  h.slots.toList.zipIdx.filterMap fun (slot, i) => slot.object.map fun _ => ⟨i, slot.generation⟩

theorem mem_handles : x ∈ h.handles ↔ (h.object? x).isSome := by
  unfold handles
  rw [List.mem_filterMap]
  constructor
  · rintro ⟨⟨slot, i⟩, mem, same⟩
    obtain ⟨o, object, rfl⟩ := Option.map_eq_some_iff.mp same
    have found := List.mem_zipIdx_iff_getElem?.mp mem
    rw [Array.getElem?_toList] at found
    exact Option.isSome_iff_exists.mpr ⟨o, object?_eq_some_iff.mpr ⟨slot, found, rfl, object⟩⟩
  · intro live
    obtain ⟨o, found⟩ := Option.isSome_iff_exists.mp live
    obtain ⟨slot, hslot, same, object⟩ := object?_eq_some_iff.mp found
    refine ⟨(slot, x.index), List.mem_zipIdx_iff_getElem?.mpr ?_, ?_⟩
    · rwa [Array.getElem?_toList]
    · simp [object, same]

theorem nodup_handles (h : Heap H) : h.handles.Nodup := by
  refine List.pairwise_filterMap.mpr ?_
  have order : (h.slots.toList.zipIdx.map Prod.snd).Pairwise (· < ·) := by
    rw [List.zipIdx_map_snd]
    exact List.pairwise_lt_range' 1
  refine (List.pairwise_map.mp order).imp ?_
  rintro ⟨slot, i⟩ ⟨slot', i'⟩ below x found x' found' same
  obtain ⟨o, -, rfl⟩ := Option.map_eq_some_iff.mp found
  obtain ⟨o', -, rfl⟩ := Option.map_eq_some_iff.mp found'
  exact Nat.ne_of_lt below (congrArg Handle.index same)

theorem length_handles (h : Heap H) : h.handles.length = h.occupied := by
  have slots := List.zipIdx_map_fst 0 h.slots.toList
  unfold handles occupied
  rw [List.length_filterMap_eq_countP, ← slots, List.countP_map, slots]
  refine congrArg (fun p => List.countP p _) (funext fun entry => ?_)
  simp

theorem length_le_occupied (nodup : xs.Nodup) (live : ∀ x ∈ xs, (h.object? x).isSome) :
    xs.length ≤ h.occupied := by
  rw [← length_handles]
  exact nodup.length_le_of_subset fun x mem => mem_handles.mpr (live x mem)

/-! ## Growth -/

/-- The heap `k` is `g` with the new objects `xs`. -/
structure Grown (xs : List Handle) (g k : Heap H) : Prop where
  evolves : g.Evolves k
  nodup : xs.Nodup
  fresh : ∀ x ∈ xs, ¬ g.Issued x
  there : ∀ x ∈ xs, (k.object? x).isSome
  same : ∀ x, x ∉ xs → k.object? x = g.object? x

namespace Grown

theorem refl (g : Heap H) : Grown [] g g :=
  ⟨Evolves.refl g, List.nodup_nil, fun _ mem => (List.not_mem_nil mem).elim,
    fun _ mem => (List.not_mem_nil mem).elim, fun _ _ => rfl⟩

theorem perm (grown : Grown xs g k) (perm : xs.Perm ys) : Grown ys g k :=
  ⟨grown.evolves, perm.nodup_iff.mp grown.nodup, fun x mem => grown.fresh x (perm.mem_iff.mpr mem),
    fun x mem => grown.there x (perm.mem_iff.mpr mem),
    fun x new => grown.same x fun mem => new (perm.mem_iff.mp mem)⟩

theorem trans (first : Grown xs g j) (orderly : j.Orderly lent) (second : Grown ys j k) :
    Grown (xs ++ ys) g k := by
  have old : ∀ x ∈ xs, x ∉ ys := by
    intro x mem mem'
    obtain ⟨o, found⟩ := Option.isSome_iff_exists.mp (first.there x mem)
    exact second.fresh x mem' (orderly.issued found)
  refine ⟨first.evolves.trans second.evolves, ?_, ?_, ?_, ?_⟩
  · exact List.nodup_append.mpr ⟨first.nodup, second.nodup, fun x mem y mem' same =>
      old x mem (same ▸ mem')⟩
  · intro x mem
    rcases List.mem_append.mp mem with mem | mem
    · exact first.fresh x mem
    · exact fun issued => second.fresh x mem (first.evolves.issued x issued)
  · intro x mem
    rcases List.mem_append.mp mem with mem | mem
    · rw [second.same x (old x mem)]
      exact first.there x mem
    · exact second.there x mem
  · intro x new
    rw [List.mem_append, not_or] at new
    exact (second.same x new.2).trans (first.same x new.1)

theorem object?_of_issued (grown : Grown xs g k) (issued : g.Issued x) :
    k.object? x = g.object? x := grown.same x fun mem => grown.fresh x mem issued

theorem occupied (grown : Grown xs g k) (orderly : g.Orderly lent) :
    k.occupied = g.occupied + xs.length := by
  have apart : (g.handles ++ xs).Nodup := by
    refine List.nodup_append.mpr ⟨g.nodup_handles, grown.nodup, fun x mem y mem' same => ?_⟩
    obtain ⟨o, found⟩ := Option.isSome_iff_exists.mp (mem_handles.mp mem)
    exact grown.fresh y mem' (same ▸ orderly.issued found)
  have all : k.handles.Perm (g.handles ++ xs) := by
    refine (List.perm_ext_iff_of_nodup k.nodup_handles apart).mpr fun x => ?_
    rw [List.mem_append, mem_handles, mem_handles]
    by_cases mem : x ∈ xs
    · exact iff_of_true (grown.there x mem) (.inr mem)
    · rw [grown.same x mem]
      exact (or_iff_left mem).symm
  rw [← length_handles, ← length_handles, all.length_eq, List.length_append]

/-- The count of live objects grows by the number of the new ones. -/
theorem live (grown : Grown xs g k) (before : g.Orderly lent) (after : k.Orderly lent) :
    k.live = g.live + xs.length := by
  have occupied := grown.occupied before
  rw [after.accounted.live, before.accounted.live]
  omega

theorem alloc (orderly : h.Orderly lent) (o : Object H) :
    ∃ x, (h.alloc o).1 = .owned ⟨o.kind, x⟩ ∧ (h.alloc o).2.object? x = some o ∧
      Grown [x] h (h.alloc o).2 := by
  obtain ⟨x, answer, new, found⟩ := orderly.accounted.object?_alloc o
  refine ⟨x, answer, by rw [found, if_pos rfl], (orderly.plain.alloc fun _ => trivial).evolves,
    List.pairwise_singleton _ x, ?_, ?_, ?_⟩
  · rintro y mem
    rwa [List.mem_singleton.mp mem]
  · rintro y mem
    rw [List.mem_singleton.mp mem, found, if_pos rfl]
    rfl
  · intro y other
    rw [found, if_neg fun same => other (List.mem_singleton.mpr same)]

theorem disposeAll {vs : List Value} (grown : Grown xs g k) (orderly : k.Orderly lent)
    (exactly : ∀ x, (k.object? x).isSome → (k.Below vs x ↔ x ∈ xs)) (base : g.Orderly lent) :
    Grown [] g (k.disposeAll vs) := by
  refine ⟨grown.evolves.trans (orderly.disposeAll vs).2, List.nodup_nil,
    fun _ mem => (List.not_mem_nil mem).elim, fun _ mem => (List.not_mem_nil mem).elim,
    fun x _ => ?_⟩
  obtain ⟨gone, kept⟩ := object?_disposeAll (h := k) vs x
  by_cases mem : x ∈ xs
  · have new : g.object? x = none := by
      cases found : g.object? x with
      | none => rfl
      | some o => exact absurd (base.issued found) (grown.fresh x mem)
    rw [gone ((exactly x (grown.there x mem)).mpr mem), new]
  · rw [← grown.same x mem]
    cases found : k.object? x with
    | none =>
      by_cases below : k.Below vs x
      · exact gone below
      · rw [kept below, found]
    | some o =>
      have live : (k.object? x).isSome := by simp [found]
      rw [kept fun below => mem ((exactly x live).mp below), found]

end Grown

end ScriptMachine.Heap
