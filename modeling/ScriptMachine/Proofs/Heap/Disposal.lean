import Mathlib.Logic.Relation
import ScriptMachine.Proofs.Heap.Conservation

/-!
# What disposal frees

An owner leads to its object, and from there to all that the object owns in turn. Disposal frees
what the values lead to. Every other slot stays as it is, its generation included, so pointers into
what was freed are stale afterwards and all others hold.

A frame that an error left takes its generator along: the iterator ends, and its last entry is
disposed with the values of the frame. `Clears` says what becomes of each slot in such a change, and
two changes one after the other are one change again.
-/

set_option autoImplicit false

namespace ScriptMachine

open Relation (ReflTransGen TransGen)

variable {H : Type}

theorem tally_append_pos {x : Handle} {vs ws : List Value} :
    0 < tally x (vs ++ ws) ↔ 0 < tally x vs ∨ 0 < tally x ws := by
  rw [tally_append]
  omega

theorem tally_flatMap_pos {α : Type} {values : α → List Value} {x : Handle} {xs : List α} :
    0 < tally x (xs.flatMap values) ↔ ∃ a ∈ xs, 0 < tally x (values a) := by
  induction xs with
  | nil => simp
  | cons a xs ih =>
    simp only [List.flatMap_cons, tally_append_pos, ih, List.mem_cons, exists_eq_or_imp]

/-- The slot without its object, in its next generation unless it was in its last one. -/
def Slot.freed (slot : Slot H) : Slot H :=
  { generation :=
      if Heap.lastGeneration ≤ slot.generation then slot.generation else slot.generation + 1
    object := none }

namespace Object

def ended : Object H → Object H
  | .iterator it => .iterator it.finish.2
  | o => o

def entry : Object H → List Value
  | .iterator it => it.finish.1
  | _ => []

theorem tally_ended (o : Object H) (x : Handle) :
    tally x o.ended.held + tally x o.entry = tally x o.held := by
  cases o with
  | iterator it => exact Heap.tally_finish it x
  | _ => rfl

theorem ended_ended (o : Object H) : o.ended.ended = o.ended := by
  cases o with
  | iterator it =>
    obtain ⟨state, source, key, current, yields⟩ := it
    cases source <;> rfl
  | _ => rfl

theorem entry_ended (o : Object H) (x : Handle) : tally x o.ended.entry = 0 := by
  cases o <;> rfl

end Object

open Classical in
noncomputable def Slot.cleared (S E : Handle → Prop) (i : Nat) (slot : Slot H) : Slot H :=
  match slot.object with
  | none => slot
  | some o =>
    if S ⟨i, slot.generation⟩ then slot.freed
    else if E ⟨i, slot.generation⟩ then { slot with object := some o.ended }
    else slot

namespace Heap

variable {h j k : Heap H} {x y z : Handle} {o : Object H} {S T E F : Handle → Prop}
  {us vs ws : List Value}

def Owns (h : Heap H) (x y : Handle) : Prop := ∃ o, h.object? x = some o ∧ 0 < tally y o.held

theorem Owns.live (owns : h.Owns x y) : (h.object? x).isSome := by
  obtain ⟨o, found, -⟩ := owns
  simp [found]

/-- No object owns itself, be it through others. -/
def Forest (h : Heap H) : Prop := ∀ x, ¬ TransGen h.Owns x x

/-- Some of the values own the object, be it through others. -/
def Below (h : Heap H) (vs : List Value) (x : Handle) : Prop :=
  ∃ y, 0 < tally y vs ∧ ReflTransGen h.Owns y x

def entry (h : Heap H) (x : Handle) : List Value := ((h.object? x).map Object.entry).getD []

/-- In `k` the objects in `S` are freed and the iterators in `E` have ended; that is all that has
happened to the objects of `h`. -/
def Clears (S E : Handle → Prop) (h k : Heap H) : Prop :=
  ∀ i, k.slots[i]? = (h.slots[i]?).map (Slot.cleared S E i)

/-! ## What values lead to -/

theorem below_of_tally (pos : 0 < tally x vs) : h.Below vs x := ⟨x, pos, .refl⟩

theorem Below.trans (below : h.Below vs y) (path : ReflTransGen h.Owns y x) : h.Below vs x := by
  obtain ⟨z, pos, above⟩ := below
  exact ⟨z, pos, above.trans path⟩

theorem Below.owns (below : h.Below vs y) (owns : h.Owns y x) : h.Below vs x :=
  below.trans (.single owns)

theorem Below.mono (below : h.Below vs x) (leads : ∀ y, 0 < tally y vs → h.Below ws y) :
    h.Below ws x := by
  obtain ⟨y, pos, path⟩ := below
  exact (leads y pos).trans path

theorem not_below_nil : ¬ h.Below [] x := by
  rintro ⟨y, pos, -⟩
  cases pos

theorem below_append : h.Below (vs ++ ws) x ↔ h.Below vs x ∨ h.Below ws x := by
  constructor
  · rintro ⟨y, pos, path⟩
    exact (tally_append_pos.mp pos).imp (⟨y, ·, path⟩) (⟨y, ·, path⟩)
  · rintro (⟨y, pos, path⟩ | ⟨y, pos, path⟩)
    · exact ⟨y, tally_append_pos.mpr (.inl pos), path⟩
    · exact ⟨y, tally_append_pos.mpr (.inr pos), path⟩

theorem Owned.live_below {out : List Value} (owned : h.Owned [] out)
    (listed : ∀ y, 0 < tally y vs → 0 < tally y out) (below : h.Below vs x) :
    (h.object? x).isSome := by
  obtain ⟨y, pos, path⟩ := below
  rcases path.cases_tail with rfl | ⟨z, -, o, found, inside⟩
  · exact owned.live (listed _ pos)
  · exact owned.live_inside found inside

theorem Stale.not_below (stale : h.Stale vs) (live : (h.object? x).isSome) : ¬ h.Below vs x := by
  rintro ⟨y, pos, path⟩
  obtain ⟨v, mem, owner⟩ := exists_mem_of_tally_pos pos
  obtain ⟨ref, owned, rfl⟩ := Value.owned?_of_pos owner
  have gone := stale v mem ref owned
  rcases path.cases_head with rfl | ⟨z, owns, -⟩
  · simp [gone] at live
  · have := owns.live
    simp [gone] at this

theorem owns_entry (found : h.object? x = some o) (pos : 0 < tally y o.entry) : h.Owns x y := by
  have := o.tally_ended y
  exact ⟨o, found, by omega⟩

theorem entry_of_object? (found : h.object? x = some o) : h.entry x = o.entry := by
  simp [entry, found]

theorem entry_of_gone (gone : h.object? x = none) : h.entry x = [] := by
  simp [entry, gone]

/-! ## One change -/

namespace Clears

theorem of_ended (same : ∀ x o, E x → h.object? x = some o → o.ended = o) :
    h.Clears (fun _ => False) E h := by
  intro i
  cases found : h.slots[i]? with
  | none => rfl
  | some slot =>
    obtain ⟨generation, object⟩ := slot
    cases object with
    | none => rfl
    | some o =>
      have object : h.object? ⟨i, generation⟩ = some o :=
        object?_eq_some_iff.mpr ⟨⟨generation, some o⟩, found, rfl, rfl⟩
      by_cases ended : E ⟨i, generation⟩
      · simp [Slot.cleared, ended, same _ o ended object]
      · simp [Slot.cleared, ended]

theorem refl (h : Heap H) : h.Clears (fun _ => False) (fun _ => False) h :=
  of_ended fun _ _ never => never.elim

/-- What is said of objects that are not there does not matter, nor which of the freed ones have
ended. -/
theorem congr (clears : h.Clears S E k) (freed : ∀ x, (h.object? x).isSome → (S x ↔ T x))
    (ended : ∀ x, (h.object? x).isSome → (E x ↔ F x)) : h.Clears T F k := by
  intro i
  rw [clears i]
  cases found : h.slots[i]? with
  | none => rfl
  | some slot =>
    obtain ⟨generation, object⟩ := slot
    cases object with
    | none => rfl
    | some o =>
      have object : h.object? ⟨i, generation⟩ = some o :=
        object?_eq_some_iff.mpr ⟨⟨generation, some o⟩, found, rfl, rfl⟩
      have live : (h.object? ⟨i, generation⟩).isSome := by simp [object]
      have freed := freed _ live
      have ended := ended _ live
      by_cases gone : T ⟨i, generation⟩ <;> by_cases past : F ⟨i, generation⟩ <;>
        simp [Slot.cleared, gone, past, freed, ended]

theorem trans (first : h.Clears S E j) (second : j.Clears T F k) :
    h.Clears (fun x => S x ∨ T x) (fun x => E x ∨ F x) k := by
  intro i
  rw [second i, first i, Option.map_map]
  congr 1
  funext slot
  obtain ⟨generation, object⟩ := slot
  cases object with
  | none => rfl
  | some o =>
    simp only [Function.comp_apply, Slot.cleared]
    by_cases freed : S ⟨i, generation⟩
    · simp [freed, Slot.freed]
    · by_cases ended : E ⟨i, generation⟩ <;> by_cases freed' : T ⟨i, generation⟩ <;>
        by_cases ended' : F ⟨i, generation⟩ <;>
        simp [freed, ended, freed', ended', Slot.freed, Object.ended_ended]

open Classical in
theorem object? (clears : h.Clears S E k) (found : h.object? x = some o) :
    k.object? x = if S x then none else if E x then some o.ended else some o := by
  obtain ⟨slot, hslot, same, object⟩ := object?_eq_some_iff.mp found
  have after := clears x.index
  obtain ⟨generation, _⟩ := slot
  cases same
  cases object
  rw [hslot, Option.map_some] at after
  simp only [Slot.cleared] at after
  split
  · rename_i freed
    rw [if_pos freed] at after
    exact object?_eq_none_of_vacant after rfl
  · rename_i kept
    rw [if_neg kept] at after
    split
    · rename_i ended
      rw [if_pos ended] at after
      exact object?_eq_some_iff.mpr ⟨_, after, rfl, rfl⟩
    · rename_i still
      rw [if_neg still] at after
      exact object?_eq_some_iff.mpr ⟨_, after, rfl, rfl⟩

theorem gone (clears : h.Clears S E k) (live : (h.object? x).isSome) (freed : S x) :
    k.object? x = none := by
  obtain ⟨o, found⟩ := Option.isSome_iff_exists.mp live
  rw [clears.object? found, if_pos freed]

theorem kept (clears : h.Clears S E k) (found : h.object? x = some o) (kept : ¬ S x)
    (still : ¬ E x) : k.object? x = some o := by
  rw [clears.object? found, if_neg kept, if_neg still]

theorem ended (clears : h.Clears S E k) (found : h.object? x = some o) (kept : ¬ S x)
    (ended : E x) : k.object? x = some o.ended := by
  rw [clears.object? found, if_neg kept, if_pos ended]

theorem live_back (clears : h.Clears S E k) (live : (k.object? x).isSome) :
    (h.object? x).isSome ∧ ¬ S x := by
  obtain ⟨o', found⟩ := Option.isSome_iff_exists.mp live
  obtain ⟨slot', hslot', same, object⟩ := object?_eq_some_iff.mp found
  rw [clears x.index] at hslot'
  obtain ⟨slot, hslot, cleared⟩ := Option.map_eq_some_iff.mp hslot'
  have there : (h.object? x).isSome := by
    obtain ⟨generation, before⟩ := slot
    cases before with
    | none =>
      simp only [Slot.cleared] at cleared
      rw [← cleared] at object
      cases object
    | some o =>
      have generation' : generation = x.generation := by
        rw [← same, ← cleared]
        simp only [Slot.cleared]
        split
        · rename_i freed
          simp only [Slot.cleared, if_pos freed] at cleared
          rw [← cleared] at object
          cases object
        · split <;> rfl
      simp [object?_eq_some_iff.mpr ⟨_, hslot, generation', rfl⟩]
  refine ⟨there, fun freed => ?_⟩
  rw [clears.gone there freed] at found
  cases found

theorem owns_back (clears : h.Clears S E k) (owns : k.Owns x y) : h.Owns x y := by
  obtain ⟨o', found', pos⟩ := owns
  obtain ⟨live, kept⟩ := clears.live_back (x := x) (by simp [found'])
  obtain ⟨o, found⟩ := Option.isSome_iff_exists.mp live
  refine ⟨o, found, ?_⟩
  by_cases ended : E x
  · rw [clears.ended found kept ended] at found'
    cases found'
    have := o.tally_ended y
    omega
  · rw [clears.kept found kept ended] at found'
    cases found'
    exact pos

theorem path_back (clears : h.Clears S E k) (path : ReflTransGen k.Owns y x) :
    ReflTransGen h.Owns y x := ReflTransGen.mono (fun _ _ => clears.owns_back) y x path

theorem below_back (clears : h.Clears S E k) (below : k.Below vs x) : h.Below vs x := by
  obtain ⟨y, pos, path⟩ := below
  exact ⟨y, pos, clears.path_back path⟩

/-- A way down is still there, or begins again behind the last object on it that let go of what
comes next. -/
theorem detour (clears : h.Clears S E k) (path : ReflTransGen h.Owns y x) :
    ReflTransGen k.Owns y x ∨ ∃ z o w, h.object? z = some o ∧
      (S z ∧ 0 < tally w o.held ∨ E z ∧ 0 < tally w o.entry) ∧ ReflTransGen k.Owns w x := by
  induction path using ReflTransGen.head_induction_on with
  | refl => exact .inl .refl
  | @head y z owns path ih =>
    refine ih.elim (fun rest => ?_) .inr
    obtain ⟨o, found, pos⟩ := owns
    by_cases freed : S y
    · exact .inr ⟨y, o, z, found, .inl ⟨freed, pos⟩, rest⟩
    by_cases ended : E y
    · by_cases let_go : 0 < tally z o.entry
      · exact .inr ⟨y, o, z, found, .inr ⟨ended, let_go⟩, rest⟩
      · have split := o.tally_ended z
        exact .inl (.head ⟨_, clears.ended found freed ended, by omega⟩ rest)
    · exact .inl (.head ⟨o, clears.kept found freed ended, pos⟩ rest)

end Clears

/-! ## One change after another -/

def Includes (h : Heap H) (vs : List Value) (E : Handle → Prop) : Prop :=
  ∀ x, E x → ∀ y, 0 < tally y (h.entry x) → h.Below vs y

namespace Clears

theorem path (clears : h.Clears (h.Below vs) E j) (includes : h.Includes vs E)
    (kept : ¬ h.Below vs x) (path : ReflTransGen h.Owns y x) : ReflTransGen j.Owns y x := by
  refine (clears.detour path).resolve_right ?_
  rintro ⟨z, o, w, found, lost, rest⟩
  refine kept (Below.trans ?_ (clears.path_back rest))
  rcases lost with ⟨freed, pos⟩ | ⟨ended, pos⟩
  · exact freed.owns ⟨o, found, pos⟩
  · exact includes z ended w (entry_of_object? found ▸ pos)

/-- The entry of an iterator is there as long as it was not disposed with the values. -/
theorem entry (clears : h.Clears (h.Below vs) E j) (includes : h.Includes vs E)
    (pos : 0 < tally y (h.entry x)) : h.Below vs y ∨ 0 < tally y (j.entry x) := by
  cases found : h.object? x with
  | none =>
    rw [entry_of_gone found] at pos
    cases pos
  | some o =>
    have owned := owns_entry found (entry_of_object? found ▸ pos)
    by_cases freed : h.Below vs x
    · exact .inl (freed.owns owned)
    by_cases ended : E x
    · exact .inl (includes x ended y pos)
    · rw [entry_of_object? (clears.kept found freed ended), ← entry_of_object? found]
      exact .inr pos

theorem entry_back (clears : h.Clears S E j) (pos : 0 < tally y (j.entry x)) :
    0 < tally y (h.entry x) := by
  cases found' : j.object? x with
  | none =>
    rw [entry_of_gone found'] at pos
    cases pos
  | some o' =>
    obtain ⟨live, kept⟩ := clears.live_back (x := x) (by simp [found'])
    obtain ⟨o, found⟩ := Option.isSome_iff_exists.mp live
    rw [entry_of_object? found'] at pos
    rw [entry_of_object? found]
    by_cases ended : E x
    · rw [clears.ended found kept ended] at found'
      cases found'
      rw [o.entry_ended y] at pos
      cases pos
    · rw [clears.kept found kept ended] at found'
      cases found'
      exact pos

theorem followed (first : h.Clears (h.Below vs) E j) (includes : h.Includes vs E)
    (second : j.Clears (j.Below ws) F k) :
    h.Clears (h.Below (vs ++ ws)) (fun x => E x ∨ F x) k := by
  refine (first.trans second).congr (fun x _ => ?_) fun _ _ => Iff.rfl
  rw [below_append]
  constructor
  · exact Or.imp_right first.below_back
  · refine fun below => Classical.or_iff_not_imp_left.mpr fun kept => ?_
    obtain ⟨y, pos, path⟩ := below.resolve_left kept
    exact ⟨y, pos, first.path includes kept path⟩

theorem recount (clears : h.Clears (h.Below vs) E k)
    (there : ∀ y, 0 < tally y vs → h.Below ws y) (back : ∀ y, 0 < tally y ws → h.Below vs y) :
    h.Clears (h.Below ws) E k :=
  clears.congr (fun _ _ => ⟨fun below => below.mono there, fun below => below.mono back⟩)
    fun _ _ => Iff.rfl

end Clears

theorem includes_none (h : Heap H) (vs : List Value) : h.Includes vs fun _ => False :=
  fun _ never => never.elim

/-! ## Disposal -/

theorem clears_of_replaced {old new : Slot H} (replaced : Replaced h k x.index old new)
    (only : ∀ y, S y ∨ E y → y = x) (cleared : old.cleared S E x.index = new) :
    h.Clears S E k := by
  intro i
  by_cases here : i = x.index
  · subst here
    rw [replaced.after, replaced.before, Option.map_some, cleared]
  · rw [replaced.away i here]
    cases h.slots[i]? with
    | none => rfl
    | some other =>
      obtain ⟨generation, object⟩ := other
      have elsewhere : ∀ y, S y ∨ E y → y ≠ ⟨i, generation⟩ := fun y either same =>
        here (congrArg Handle.index (same.symm.trans (only y either)))
      have freed : ¬ S ⟨i, generation⟩ := fun freed => elsewhere _ (.inl freed) rfl
      have ended : ¬ E ⟨i, generation⟩ := fun ended => elsewhere _ (.inr ended) rfl
      cases object <;> simp [Slot.cleared, freed, ended]

theorem clears_freeSlot (freed : h.freeSlot x = some (o, k)) :
    h.Clears (· = x) (fun _ => False) k := by
  obtain ⟨slot, hslot, same, object, -, either⟩ := freeSlot_cases freed
  have replaced : Replaced h k x.index slot slot.freed := by
    rcases either with ⟨last, -, -, change⟩ | ⟨more, -, -, change⟩
    · simpa [Slot.freed, last] using change
    · simpa [Slot.freed, Nat.not_le.mpr more] using change
  have handle : (⟨x.index, slot.generation⟩ : Handle) = x := by rw [same]
  exact clears_of_replaced replaced (fun y either => either.resolve_right id)
    (by simp [Slot.cleared, object, handle])

/-- What work leads to is the first object on it, or what this object and the work behind it still
lead to once it is freed. -/
theorem below_freed {before rest : List Value} {v : Value} {ref : HeapRef} (stale : h.Stale before)
    (owner : v.owned? = some ref) (found : h.object? ref.handle = some o)
    (freed : h.Clears (· = ref.handle) (fun _ => False) k) (live : (h.object? x).isSome) :
    x = ref.handle ∨ k.Below (o.held.reverse ++ rest) x ↔ h.Below (before ++ v :: rest) x := by
  have named : 0 < tally ref.handle (before ++ v :: rest) := by
    have one := Value.owners_eq_one owner
    simp only [tally_append, tally_cons]
    omega
  constructor
  · rintro (rfl | below)
    · exact below_of_tally named
    · rcases below_append.mp (freed.below_back below) with ⟨y, pos, path⟩ | ⟨y, pos, path⟩
      · rw [tally_reverse] at pos
        exact (below_of_tally named).trans (.head ⟨o, found, pos⟩ path)
      · refine ⟨y, tally_append_pos.mpr (.inr ?_), path⟩
        rw [tally_cons]
        omega
  rintro ⟨y, pos, path⟩
  refine Classical.or_iff_not_imp_left.mpr fun other => ?_
  rcases tally_append_pos.mp pos with ahead | pos
  · exact absurd ⟨y, ahead, path⟩ (stale.not_below live)
  rcases freed.detour path with still | ⟨z, p, w, found', lost, path'⟩
  · rw [tally_cons] at pos
    by_cases inside : 0 < tally y rest
    · exact ⟨y, tally_append_pos.mpr (.inr inside), still⟩
    obtain ⟨ref', owner', rfl⟩ := Value.owned?_of_pos (show 0 < v.owners y by omega)
    rw [owner] at owner'
    cases owner'
    rcases still.cases_head with rfl | ⟨z, owns, -⟩
    · exact absurd rfl other
    · have live' := owns.live
      rw [freed.gone (by simp [found]) rfl] at live'
      cases live'
  · rcases lost with ⟨rfl, pos'⟩ | ⟨never, -⟩
    · rw [found] at found'
      cases found'
      rw [← tally_reverse] at pos'
      exact ⟨w, tally_append_pos.mpr (.inl pos'), path'⟩
    · exact never.elim

theorem clears_sweep {rounds : Nat} {work : List Value} (enough : h.occupied ≤ rounds) :
    h.Clears (h.Below work) (fun _ => False) (h.sweep work rounds) := by
  induction rounds generalizing h work with
  | zero =>
    refine (Clears.refl h).congr (fun x live => ?_) fun _ _ => Iff.rfl
    obtain ⟨o, found⟩ := Option.isSome_iff_exists.mp live
    have := occupied_pos found
    omega
  | succ rounds ih =>
    rw [Heap.sweep]
    have spec := h.freeNext_spec work
    cases next : h.freeNext work with
    | none =>
      rw [next] at spec
      exact (Clears.refl h).congr (fun x live => iff_of_false id (spec.not_below live))
        fun _ _ => Iff.rfl
    | some triple =>
      obtain ⟨o, rest, k⟩ := triple
      rw [next] at spec
      obtain ⟨before, v, ref, rfl, stale, owner, freed⟩ := spec
      have first := clears_freeSlot freed
      have fewer : k.occupied ≤ rounds := by
        have := occupied_freeSlot freed
        omega
      obtain ⟨slot, hslot, same, object, -⟩ := freeSlot_cases freed
      have found : h.object? ref.handle = some o :=
        object?_eq_some_iff.mpr ⟨slot, hslot, same, object⟩
      let recycled : Heap H := { k with pools := o.recycle k.pools }
      have second : recycled.Clears (recycled.Below (o.held.reverse ++ rest)) (fun _ => False)
          (recycled.sweep (o.held.reverse ++ rest) rounds) := ih fewer
      exact (first.trans second).congr (fun x live => below_freed stale owner found first live)
        fun _ _ => or_self_iff

theorem clears_dispose (h : Heap H) (v : Value) :
    h.Clears (h.Below [v]) (fun _ => False) (h.dispose v) := by
  unfold Heap.dispose
  split
  · exact clears_sweep h.occupied_le
  · rename_i plain
    refine (Clears.refl h).congr (fun x _ => iff_of_false id ?_) fun _ _ => Iff.rfl
    rintro ⟨y, pos, -⟩
    rw [tally_cons, Value.owners_eq_zero (Value.owned?_eq_none (by simpa using plain))] at pos
    cases pos

theorem clears_disposeAll (vs : List Value) :
    ∀ h : Heap H, h.Clears (h.Below vs) (fun _ => False) (h.disposeAll vs) := by
  induction vs with
  | nil =>
    exact fun h => (Clears.refl h).congr (fun _ _ => iff_of_false id not_below_nil)
      fun _ _ => Iff.rfl
  | cons v vs ih =>
    intro h
    exact ((clears_dispose h v).followed (h.includes_none _) (ih (h.dispose v))).congr
      (fun _ _ => Iff.rfl) fun _ _ => or_self_iff

theorem retire_zero_slots (h : Heap H) (f : Frame) :
    (h.retire f 0).2.slots = (h.disposeAll f.held).slots := by
  have held : f.held = f.locals ++ { f with locals := [] }.held := by
    simp [Frame.held, Frame.pendingValues, Frame.returnedValues, Frame.thrownValues]
  have all : (f.locals.zipIdx.filter fun _ => true) = f.locals.zipIdx :=
    List.filter_eq_self.mpr fun _ _ => rfl
  rw [held, disposeAll, List.foldl_append]
  simp [Heap.retire, disposeFrame, disposeAll, all]

theorem clears_retire (h : Heap H) (f : Frame) :
    h.Clears (h.Below f.held) (fun _ => False) (h.retire f 0).2 := by
  intro i
  rw [retire_zero_slots]
  exact clears_disposeAll f.held h i

/-! ## Generators that end -/

theorem clears_setObject (found : h.object? x = some o) :
    h.Clears (fun _ => False) (· = x) (h.setObject x o.ended) := by
  obtain ⟨slot, hslot, same, object⟩ := object?_eq_some_iff.mp found
  have replaced := replaced_modify (k := h.setObject x o.ended)
    (fun slot => { slot with object := some o.ended }) hslot rfl
  have handle : (⟨x.index, slot.generation⟩ : Handle) = x := by rw [same]
  exact clears_of_replaced replaced (fun y either => either.resolve_left id)
    (by simp [Slot.cleared, object, handle])

theorem clears_exhaust (h : Heap H) (x : Handle) :
    h.Clears (h.Below (h.entry x)) (· = x) (h.exhaust x) := by
  cases found : h.iteratorAt x with
  | ok it =>
    have object := iteratorAt_eq_ok found
    have first := clears_setObject object
    have second := clears_disposeAll it.finish.1 (h.setObject x (.iterator it.finish.2))
    rw [exhaust_of_ok found, entry_of_object? object]
    refine (first.trans second).congr (fun z _ => ?_) fun _ _ => or_iff_left id
    rw [false_or]
    constructor
    · exact first.below_back
    · rintro ⟨y, pos, path⟩
      rcases first.detour path with still | ⟨z, o, w, found', lost, path'⟩
      · exact ⟨y, pos, still⟩
      · rcases lost with ⟨never, -⟩ | ⟨rfl, pos'⟩
        · exact never.elim
        · rw [object] at found'
          cases found'
          exact ⟨w, pos', path'⟩
  | error e =>
    have plain : ∀ o, h.object? x = some o → o.ended = o ∧ o.entry = [] := by
      intro o object
      cases o with
      | iterator it =>
        rw [iteratorAt_of_object? object] at found
        cases found
      | _ => exact ⟨rfl, rfl⟩
    have nothing : h.entry x = [] := by
      cases object : h.object? x with
      | none => exact entry_of_gone object
      | some o => exact (entry_of_object? object).trans (plain o object).2
    rw [exhaust_of_error found, nothing]
    refine (Clears.of_ended (E := (· = x)) ?_).congr
      (fun _ _ => iff_of_false id not_below_nil) fun _ _ => Iff.rfl
    rintro _ o rfl object
    exact (plain o object).1

end Heap

end ScriptMachine
