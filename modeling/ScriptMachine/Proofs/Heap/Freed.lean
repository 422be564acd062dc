import ScriptMachine.Proofs.Heap.Disposal

/-!
# The objects that disposal frees

Disposal works on a list of values. The first one is taken off the list; if it owns an object that
is there, the object is freed and what it held goes on top of the list. `Frees` is such a run from
its start to an empty list, with the handles that were freed in their order. Every value has
exactly one run, and its handles are those that the value reaches, each of them once.

What an object holds is written out place by place in `Object.Holds`.
-/

set_option autoImplicit false

namespace ScriptMachine

open Relation (ReflTransGen)

variable {H : Type}

inductive Frame.Holds (f : Frame) : Value → Prop
  | slot {v : Value} (mem : v ∈ f.locals) : f.Holds v
  | operand {v : Value} (mem : v ∈ f.stack) : f.Holds v
  | shadow {slot : Nat} {v : Value} (mem : (slot, v) ∈ f.shadows) : f.Holds v
  | returned {vs : List Value} {v : Value} (pending : f.pendingReturn = some (.values vs))
      (mem : v ∈ vs) : f.Holds v
  | thrown {e : Error} {v : Value} (pending : f.pendingError = some e)
      (carries : e.thrown? = some v) : f.Holds v
  | receiver : f.Holds f.this
  | closure : f.Holds f.closure

inductive Object.Holds : Object H → Value → Prop
  | entry {s : Structure} {k : Key} {v : Value} (mem : (k, v) ∈ s.entries) :
      Object.Holds (.struct s) v
  | capture {unit : CodeUnit} {captures : Buffer} {v : Value} (mem : v ∈ captures.items) :
      Object.Holds (.callable (.script unit captures)) v
  | key {it : Iterator} : Object.Holds (.iterator it) it.key
  | current {it : Iterator} {v : Value} (mem : v ∈ it.current) : Object.Holds (.iterator it) v
  | target {it : Iterator} {v : Value} {position : WalkPosition}
      (walks : it.source = .walk v position) : Object.Holds (.iterator it) v
  | parked {it : Iterator} {f : Frame} {v : Value} (waits : it.source = .generator (some f))
      (holds : f.Holds v) : Object.Holds (.iterator it) v

/-! ## What is held -/

theorem Frame.holds_iff {f : Frame} {v : Value} : f.Holds v ↔ v ∈ f.held := by
  simp only [held, pendingValues, List.mem_append, List.mem_reverse, List.mem_map, List.mem_cons,
    List.not_mem_nil, or_false, Prod.exists, exists_eq_right]
  constructor
  · rintro (mem | mem | mem | ⟨pending, mem⟩ | ⟨pending, carries⟩ | _ | _)
    · exact .inl (.inl (.inl (.inl mem)))
    · exact .inl (.inl (.inl (.inr mem)))
    · exact .inl (.inl (.inr ⟨_, mem⟩))
    · exact .inl (.inr (.inl (by simpa [returnedValues, pending] using mem)))
    · exact .inl (.inr (.inr (by simp [thrownValues, pending, carries])))
    · exact .inr (.inl rfl)
    · exact .inr (.inr rfl)
  · rintro ((((mem | mem) | ⟨slot, mem⟩) | mem | mem) | rfl | rfl)
    · exact .slot mem
    · exact .operand mem
    · exact .shadow mem
    · unfold returnedValues at mem
      split at mem
      · rename_i pending
        exact .returned pending mem
      · cases mem
    · unfold thrownValues at mem
      obtain ⟨e, pending, carries⟩ := Option.bind_eq_some_iff.mp (Option.mem_toList.mp mem)
      exact .thrown pending carries
    · exact .receiver
    · exact .closure

theorem Object.holds_iff {o : Object H} {v : Value} : o.Holds v ↔ v ∈ o.held := by
  constructor
  · rintro (mem | mem | _ | mem | walks | ⟨waits, holds⟩)
    · simp only [held, Structure.values_eq]
      exact List.mem_map.mpr ⟨_, mem, rfl⟩
    · exact mem
    · exact List.mem_cons_self ..
    · exact List.mem_cons_of_mem _ (List.mem_append_left _ mem)
    · exact List.mem_cons_of_mem _ (List.mem_append_right _ (by simp [walks]))
    · refine List.mem_cons_of_mem _ (List.mem_append_right _ ?_)
      simpa [waits] using Frame.holds_iff.mp holds
  · intro mem
    cases o with
    | struct s =>
      simp only [held, Structure.values_eq] at mem
      obtain ⟨entry, inside, rfl⟩ := List.mem_map.mp mem
      exact .entry inside
    | callable c =>
      cases c with
      | script unit captures => exact .capture mem
      | host path function => cases mem
    | iterator it =>
      simp only [held, List.mem_append, List.mem_cons] at mem
      rcases mem with (rfl | mem) | mem
      · exact .key
      · exact .current mem
      · split at mem
        · rename_i walks
          obtain rfl := List.mem_singleton.mp mem
          exact .target walks
        · rename_i waits
          exact .parked waits (Frame.holds_iff.mpr mem)
        · cases mem
    | external e => cases mem

namespace Heap

variable {h j k : Heap H} {x y : Handle} {o : Object H} {v : Value} {work : List Value}
  {xs : List Handle}

/-- A value reaches an object that is there: it owns it, or owns an object that is there and holds
a value which reaches it. -/
inductive Reaches (h : Heap H) : Value → Handle → Prop
  | here {v : Value} {ref : HeapRef} {o : Object H} (owner : v.owned? = some ref)
      (live : h.object? ref.handle = some o) : h.Reaches v ref.handle
  | through {v w : Value} {ref : HeapRef} {o : Object H} {x : Handle} (owner : v.owned? = some ref)
      (live : h.object? ref.handle = some o) (holds : o.Holds w) (rest : h.Reaches w x) :
      h.Reaches v x

/-- A run of disposal over a list of work, the handles that it frees in order, and the heap that it
leaves. -/
inductive Frees : Heap H → List Value → List Handle → Heap H → Prop
  | done (h : Heap H) : Frees h [] [] h
  | skip {h k : Heap H} {v : Value} {work : List Value} {xs : List Handle}
      (nothing : ∀ ref, v.owned? = some ref → h.object? ref.handle = none)
      (rest : Frees h work xs k) : Frees h (v :: work) xs k
  | free {h j k : Heap H} {v : Value} {ref : HeapRef} {o : Object H} {work : List Value}
      {xs : List Handle} (owner : v.owned? = some ref)
      (freed : h.freeSlot ref.handle = some (o, j))
      (rest : Frees { j with pools := o.recycle j.pools } (o.held.reverse ++ work) xs k) :
      Frees h (v :: work) (ref.handle :: xs) k

theorem reaches_iff : h.Reaches v x ↔ (h.object? x).isSome ∧ h.Below [v] x := by
  constructor
  · intro reaches
    induction reaches with
    | here owner live =>
      exact ⟨by simp [live], below_of_tally (by simp [Value.owners_eq_one owner])⟩
    | @through v w ref o x owner live holds rest ih =>
      obtain ⟨there, y, pos, path⟩ := ih
      have inside : 0 < tally y o.held := by
        have counted := owners_le_tally (x := y) (Object.holds_iff.mp holds)
        rw [tally_cons, tally_nil] at pos
        omega
      have owns : h.Owns ref.handle y := ⟨o, live, inside⟩
      exact ⟨there, ref.handle, by simp [Value.owners_eq_one owner], .head owns path⟩
  · rintro ⟨live, y, pos, path⟩
    rw [tally_cons, tally_nil] at pos
    obtain ⟨ref, owner, rfl⟩ := Value.owned?_of_pos (show 0 < v.owners y by omega)
    clear pos
    generalize start : ref.handle = y at path
    induction path using ReflTransGen.head_induction_on generalizing v ref with
    | refl =>
      obtain ⟨o, found⟩ := Option.isSome_iff_exists.mp live
      exact start ▸ .here owner (start.symm ▸ found)
    | @head y z owns rest ih =>
      obtain ⟨o, found, inside⟩ := owns
      obtain ⟨w, mem, one⟩ := exists_mem_of_tally_pos inside
      obtain ⟨ref', owner', rfl⟩ := Value.owned?_of_pos one
      exact .through owner (start.symm ▸ found) (Object.holds_iff.mpr mem) (ih ref' owner' rfl)

/-! ## One run -/

theorem object?_of_freeSlot (freed : h.freeSlot x = some (o, k)) : h.object? x = some o := by
  obtain ⟨slot, hslot, same, object, -⟩ := freeSlot_cases freed
  exact object?_eq_some_iff.mpr ⟨slot, hslot, same, object⟩

theorem object?_freeSlot (freed : h.freeSlot x = some (o, k)) (y : Handle) :
    k.object? y = if y = x then none else h.object? y := by
  have clears := clears_freeSlot freed
  split
  · rename_i same
    subst same
    exact clears.gone (by simp [object?_of_freeSlot freed]) rfl
  · rename_i other
    cases found : h.object? y with
    | some o' => exact clears.kept found other id
    | none =>
      cases found' : k.object? y with
      | none => rfl
      | some o' =>
        have live := (clears.live_back (x := y) (by simp [found'])).1
        simp [found] at live

theorem Frees.behind {before : List Value} (stale : h.Stale before) (run : h.Frees work xs k) :
    h.Frees (before ++ work) xs k := by
  induction before with
  | nil => exact run
  | cons v before ih =>
    obtain ⟨first, rest⟩ := List.forall_mem_cons.mp stale
    exact .skip first (ih rest)

theorem frees_sweep {rounds : Nat} (enough : h.occupied ≤ rounds) :
    ∃ xs, h.Frees work xs (h.sweep work rounds) := by
  induction rounds generalizing h work with
  | zero =>
    refine ⟨[], (List.append_nil work) ▸ Frees.behind (fun v _ ref _ => ?_) (.done h)⟩
    cases found : h.object? ref.handle with
    | none => rfl
    | some o =>
      have := occupied_pos found
      omega
  | succ rounds ih =>
    rw [Heap.sweep]
    have spec := h.freeNext_spec work
    cases next : h.freeNext work with
    | none =>
      rw [next] at spec
      exact ⟨[], (List.append_nil work) ▸ Frees.behind spec (.done h)⟩
    | some triple =>
      obtain ⟨o, rest, j⟩ := triple
      rw [next] at spec
      obtain ⟨before, v, ref, rfl, stale, owner, freed⟩ := spec
      have fewer : j.occupied ≤ rounds := by
        have := occupied_freeSlot freed
        omega
      obtain ⟨xs, run⟩ := ih (h := { j with pools := o.recycle j.pools }) fewer
      exact ⟨ref.handle :: xs, .behind stale (.free owner freed run)⟩

theorem Frees.unique {ys : List Handle} (first : h.Frees work xs j) (second : h.Frees work ys k) :
    ys = xs ∧ k = j := by
  induction first generalizing ys k with
  | done => cases second; exact ⟨rfl, rfl⟩
  | skip nothing rest ih =>
    cases second with
    | skip _ rest' => exact ih rest'
    | free owner freed _ =>
      have gone := nothing _ owner
      simp [object?_of_freeSlot freed] at gone
  | free owner freed rest ih =>
    cases second with
    | skip nothing _ =>
      have gone := nothing _ owner
      simp [object?_of_freeSlot freed] at gone
    | free owner' freed' rest' =>
      rw [owner] at owner'
      cases owner'
      rw [freed] at freed'
      cases freed'
      obtain ⟨rfl, rfl⟩ := ih rest'
      exact ⟨rfl, rfl⟩

theorem Frees.live (run : h.Frees work xs k) (mem : y ∈ xs) : (h.object? y).isSome := by
  induction run with
  | done => cases mem
  | skip _ _ ih => exact ih mem
  | free _ freed _ ih =>
    rcases List.mem_cons.mp mem with rfl | mem
    · simp [object?_of_freeSlot freed]
    · exact ((clears_freeSlot freed).live_back (ih mem)).1

theorem Frees.nodup (run : h.Frees work xs k) : xs.Nodup := by
  induction run with
  | done => exact List.nodup_nil
  | skip _ _ ih => exact ih
  | free _ freed rest ih =>
    refine List.nodup_cons.mpr ⟨fun again => ?_, ih⟩
    exact ((clears_freeSlot freed).live_back (rest.live again)).2 rfl

theorem Frees.object? (run : h.Frees work xs k) (y : Handle) :
    k.object? y = if y ∈ xs then none else h.object? y := by
  induction run with
  | done => rfl
  | skip _ _ ih => exact ih
  | @free h j _ _ ref o _ xs _ freed _ ih =>
    have first : j.object? y = if y = ref.handle then none else h.object? y :=
      object?_freeSlot freed y
    refine ih.trans ?_
    by_cases now : y = ref.handle
    · rw [if_pos now] at first
      rw [if_pos (List.mem_cons.mpr (.inl now))]
      split
      · rfl
      · exact first
    · rw [if_neg now] at first
      simp only [List.mem_cons, now, false_or]
      rw [← first]
      rfl

theorem Frees.counts (run : h.Frees work xs k) :
    k.slots.size = h.slots.size ∧ k.live = h.live - xs.length ∧
      k.occupied + xs.length = h.occupied := by
  induction run with
  | done => exact ⟨rfl, rfl, rfl⟩
  | skip _ _ ih => exact ih
  | @free h j k _ ref o _ xs _ freed rest ih =>
    obtain ⟨size, live, occupied⟩ := ih
    have fewer : j.occupied + 1 = h.occupied := occupied_freeSlot freed
    have recycled : k.occupied + xs.length = j.occupied := occupied
    obtain ⟨slot, -, -, -, live', either⟩ := freeSlot_cases freed
    have same : j.slots.size = h.slots.size := by
      rcases either with ⟨-, -, -, change⟩ | ⟨-, -, -, change⟩ <;> exact change.size
    refine ⟨size.trans same, ?_, ?_⟩
    · rw [live, live', List.length_cons, Nat.sub_sub, Nat.add_comm 1]
    · rw [List.length_cons]
      omega

/-- The slots of the objects that are freed go to the front of the free list, the last one first,
but for those in their last generation, which are retired. -/
theorem Frees.lists (run : h.Frees work xs k) :
    k.free = ((xs.filter (·.generation < lastGeneration)).map Handle.index).reverse ++ h.free ∧
      k.retired = h.retired + xs.countP (lastGeneration ≤ ·.generation) := by
  induction run with
  | done => exact ⟨rfl, rfl⟩
  | skip _ _ ih => exact ih
  | @free h j k _ ref o _ xs _ freed rest ih =>
    obtain ⟨free, retired⟩ := ih
    obtain ⟨slot, -, same, -, -, either⟩ := freeSlot_cases freed
    rw [free, retired]
    rcases either with ⟨last, free', retired', -⟩ | ⟨more, free', retired', -⟩
    · rw [same] at last
      have := Nat.not_lt.mpr last
      simp [free', retired', last, this]
      omega
    · rw [same] at more
      have := Nat.not_le.mpr more
      simp [free', retired', more, this]

/-! ## Disposal -/

/-- Disposal has one run, which frees exactly the objects that the value reaches, each once. Their
slots lose their objects and go to the next generation or are retired, the count of live objects
drops by their number, and every other slot stays as it is. -/
theorem dispose_frees_reached (h : Heap H) (v : Value) :
    ∃ xs, (∀ ys k, h.Frees [v] ys k ↔ ys = xs ∧ k = h.dispose v) ∧
      xs.Nodup ∧ (∀ x, x ∈ xs ↔ h.Reaches v x) ∧
      (h.dispose v).slots.size = h.slots.size ∧
      (∀ (i : Nat) (slot : Slot H), h.slots[i]? = some slot → (h.dispose v).slots[i]? =
        some (if ⟨i, slot.generation⟩ ∈ xs then slot.freed else slot)) ∧
      (h.dispose v).free =
        ((xs.filter (·.generation < lastGeneration)).map Handle.index).reverse ++ h.free ∧
      (h.dispose v).retired = h.retired + xs.countP (lastGeneration ≤ ·.generation) ∧
      (h.dispose v).live = h.live - xs.length ∧
      (h.occupied ≤ h.live → (h.dispose v).live + xs.length = h.live) := by
  have exists_run : ∃ xs, h.Frees [v] xs (h.dispose v) := by
    unfold Heap.dispose
    split
    · exact frees_sweep h.occupied_le
    · rename_i plain
      refine ⟨[], .skip (fun ref owner => ?_) (.done h)⟩
      rw [Value.owned?_eq_none (by simpa using plain)] at owner
      cases owner
  obtain ⟨xs, run⟩ := exists_run
  have clears := clears_dispose h v
  have reached : ∀ x, x ∈ xs ↔ h.Reaches v x := fun x => by
    rw [reaches_iff]
    have after := run.object? x
    constructor
    · intro mem
      have live := run.live mem
      obtain ⟨o, found⟩ := Option.isSome_iff_exists.mp live
      refine ⟨live, Classical.byContradiction fun other => ?_⟩
      rw [if_pos mem, clears.kept found other id] at after
      cases after
    · rintro ⟨live, below⟩
      refine Classical.byContradiction fun other => ?_
      rw [if_neg other, clears.gone live below] at after
      simp [← after] at live
  obtain ⟨size, live, occupied⟩ := run.counts
  obtain ⟨free, retired⟩ := run.lists
  refine ⟨xs, fun ys k => ⟨run.unique, ?_⟩, run.nodup, reached, size, fun i slot found => ?_, free,
    retired, live, ?_⟩
  · rintro ⟨rfl, rfl⟩
    exact run
  · rw [clears i, found, Option.map_some]
    obtain ⟨generation, object⟩ := slot
    cases object with
    | none =>
      have absent : ⟨i, generation⟩ ∉ xs := fun mem => by
        obtain ⟨o, there⟩ := Option.isSome_iff_exists.mp (run.live mem)
        obtain ⟨slot', found', -, object⟩ := object?_eq_some_iff.mp there
        rw [found] at found'
        cases found'
        cases object
      rw [if_neg absent]
      rfl
    | some o =>
      have there : (h.object? ⟨i, generation⟩).isSome :=
        Option.isSome_iff_exists.mpr ⟨o, object?_eq_some_iff.mpr ⟨_, found, rfl, rfl⟩⟩
      have same : (⟨i, generation⟩ : Handle) ∈ xs ↔ h.Below [v] ⟨i, generation⟩ :=
        (reached _).trans (reaches_iff.trans (and_iff_right there))
      by_cases mem : ⟨i, generation⟩ ∈ xs
      · simp [Slot.cleared, mem, same.mp mem]
      · have apart : ¬ h.Below [v] ⟨i, generation⟩ := fun below => mem (same.mpr below)
        simp [Slot.cleared, mem, apart]
  · omega

end Heap

end ScriptMachine
