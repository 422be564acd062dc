import ScriptMachine.Heap.Copy
import ScriptMachine.Proofs.Effect

/-!
# How a heap changes

Two notions describe every heap operation. `Heap.Accounted` says that the counters and the free list
agree with the slots; the slots in `lent` are those whose object is out while it is copied.
`Heap.Evolves` relates a heap to a later one: a handle that was handed out stays handed out, it
never names an object again once it named none, and as long as it names one it is the same object,
changed in place. A slot that is empty and not free is left alone, so a lent object finds its slot
as it left it.

`Heap.Later` puts both together with a condition `P` on all objects; one lemma for each primitive
change shows that it is kept.
-/

set_option autoImplicit false

namespace ScriptMachine

namespace Iterator

def parked (it : Iterator) : Option Frame :=
  match it.source with
  | .generator frame => frame
  | .walk _ _ => none

end Iterator

/-- What a change in place keeps of an object: its kind, and all that it runs. Only structures and
walks are changed at all. -/
def Object.Edited {H : Type} : Object H → Object H → Prop
  | .struct _, .struct _ => True
  | .callable c, .callable d => c = d
  | .iterator a, .iterator b => a = b ∨ (a.isGenerator = false ∧ b.isGenerator = false)
  | .external e, .external f => e = f
  | _, _ => False

namespace Object

variable {H : Type}

theorem Edited.refl (o : Object H) : o.Edited o := by
  cases o <;> simp [Edited]

theorem Edited.struct (s t : Structure) : (Object.struct s : Object H).Edited (.struct t) := trivial

theorem Edited.trans {a b c : Object H} (first : a.Edited b) (second : b.Edited c) :
    a.Edited c := by
  cases a <;> cases b <;> cases c <;> simp_all [Edited]
  rcases first with rfl | first
  · exact second
  · rcases second with rfl | second
    · exact Or.inr first
    · exact Or.inr ⟨first.1, second.2⟩

theorem Edited.walk {a b : Iterator} (before : a.isGenerator = false) (after : b.isGenerator = false) :
    (Object.iterator a : Object H).Edited (.iterator b) := Or.inr ⟨before, after⟩

/-- A condition on the objects of handles that no heap operation can break: it looks at nothing but
the code of closures, which may be copied, and at generators, which stay as they are. -/
structure Stable (P : Handle → Object H → Prop) : Prop where
  struct : ∀ x s, P x (.struct s)
  external : ∀ x e, P x (.external e)
  host : ∀ x path function, P x (.callable (.host path function))
  closure : ∀ x y unit captures captures',
    P x (.callable (.script unit captures)) → P y (.callable (.script unit captures'))
  walk : ∀ x (it : Iterator), it.isGenerator = false → P x (.iterator it)

theorem Stable.true : Stable (H := H) fun _ _ => True :=
  ⟨fun _ _ => trivial, fun _ _ => trivial, fun _ _ _ => trivial, fun _ _ _ _ _ _ => trivial,
    fun _ _ _ => trivial⟩

theorem Stable.edited {P : Handle → Object H → Prop} (stable : Stable P) {x : Handle}
    {a b : Object H} (edit : a.Edited b) (h : P x a) : P x b := by
  cases a <;> cases b <;> simp only [Edited] at edit
  · exact stable.struct _ _
  · exact edit ▸ h
  · rcases edit with rfl | ⟨_, walk⟩
    · exact h
    · exact stable.walk _ _ walk
  · exact edit ▸ h

end Object

namespace Heap

variable {H : Type}

/-! ## Slots -/

theorem object?_eq_some_iff {h : Heap H} {x : Handle} {o : Object H} :
    h.object? x = some o ↔
      ∃ slot, h.slots[x.index]? = some slot ∧ slot.generation = x.generation ∧
        slot.object = some o := by
  unfold object?
  cases found : h.slots[x.index]? with
  | none => simp
  | some slot =>
    by_cases same : slot.generation = x.generation <;> simp [same]

/-- Whether a handle was ever handed out: its slot has moved past its generation, or is at that
generation and not waiting to be used with it. -/
def Issued (h : Heap H) (x : Handle) : Prop :=
  ∃ slot, h.slots[x.index]? = some slot ∧
    (x.generation < slot.generation ∨ (x.generation = slot.generation ∧ x.index ∉ h.free))

def occupied (h : Heap H) : Nat := h.slots.toList.countP fun slot => slot.object.isSome

structure Accounted (lent : List Nat) (h : Heap H) : Prop where
  free_nodup : h.free.Nodup
  lent_nodup : lent.Nodup
  free_vacant : ∀ i ∈ h.free, ∃ slot, h.slots[i]? = some slot ∧ slot.object = none
  lent_vacant : ∀ i ∈ lent, i ∉ h.free ∧ ∃ slot, h.slots[i]? = some slot ∧ slot.object = none
  bounded : ∀ (i : Nat) (slot : Slot H), h.slots[i]? = some slot → slot.generation ≤ lastGeneration
  vacant : ∀ (i : Nat) (slot : Slot H), h.slots[i]? = some slot → slot.object = none →
    i ∈ h.free ∨ i ∈ lent ∨ slot.generation = lastGeneration
  live : h.live = h.occupied + lent.length
  total : h.slots.size = h.occupied + lent.length + h.free.length + h.retired

def All (P : Handle → Object H → Prop) (h : Heap H) : Prop :=
  ∀ (i : Nat) (slot : Slot H) (o : Object H), h.slots[i]? = some slot → slot.object = some o →
    P ⟨i, slot.generation⟩ o

structure Evolves (h k : Heap H) : Prop where
  issued : ∀ x, h.Issued x → k.Issued x
  edited : ∀ x o', h.Issued x → k.object? x = some o' → ∃ o, h.object? x = some o ∧ o.Edited o'
  withheld : ∀ (i : Nat) (slot : Slot H), h.slots[i]? = some slot → slot.object = none → i ∉ h.free →
    k.slots[i]? = some slot ∧ i ∉ k.free

structure Later (P : Handle → Object H → Prop) (lent : List Nat) (base h : Heap H) : Prop where
  accounted : h.Accounted lent
  all : h.All P
  evolves : base.Evolves h

theorem All.object? {P : Handle → Object H → Prop} {h : Heap H} (all : h.All P) {x : Handle}
    {o : Object H} (found : h.object? x = some o) : P x o := by
  obtain ⟨slot, hslot, same, ho⟩ := object?_eq_some_iff.mp found
  have holds := all x.index slot o hslot ho
  rwa [same] at holds

theorem Evolves.refl (h : Heap H) : h.Evolves h :=
  ⟨fun _ hx => hx, fun _ o' _ found => ⟨o', found, Object.Edited.refl o'⟩,
    fun _ _ hslot _ notFree => ⟨hslot, notFree⟩⟩

theorem Evolves.trans {a b c : Heap H} (first : a.Evolves b) (second : b.Evolves c) :
    a.Evolves c := by
  refine ⟨fun x hx => second.issued x (first.issued x hx), ?_, ?_⟩
  · intro x o'' hx found
    obtain ⟨o', found', edit'⟩ := second.edited x o'' (first.issued x hx) found
    obtain ⟨o, found, edit⟩ := first.edited x o' hx found'
    exact ⟨o, found, edit.trans edit'⟩
  · intro i slot hslot vacant notFree
    obtain ⟨hslot', notFree'⟩ := first.withheld i slot hslot vacant notFree
    exact second.withheld i slot hslot' vacant notFree'

theorem Evolves.dead {h k : Heap H} (evolves : h.Evolves k) {x : Handle} (issued : h.Issued x)
    (dead : h.object? x = none) : k.object? x = none := by
  cases found : k.object? x with
  | none => rfl
  | some o' =>
    obtain ⟨o, found', _⟩ := evolves.edited x o' issued found
    simp [dead] at found'

/-! ## Primitive changes -/

theorem countP_modify_add {α : Type} (p : α → Bool) (f : α → α) :
    ∀ (l : List α) (i : Nat) (a : α), l[i]? = some a →
      (l.modify i f).countP p + (p a).toNat = l.countP p + (p (f a)).toNat := by
  intro l
  induction l with
  | nil => intro i a found; simp at found
  | cons b rest ih =>
    intro i a found
    cases i with
    | zero =>
      simp only [List.getElem?_cons_zero, Option.some.injEq] at found
      subst found
      simp only [List.modify_zero_cons, List.countP_cons]
      cases p b <;> cases p (f b) <;> simp
    | succ i =>
      have step := ih i a (by simpa using found)
      simp only [List.modify_succ_cons, List.countP_cons]
      omega

structure Replaced (h k : Heap H) (i : Nat) (old new : Slot H) : Prop where
  before : h.slots[i]? = some old
  after : k.slots[i]? = some new
  away : ∀ j, j ≠ i → k.slots[j]? = h.slots[j]?
  size : k.slots.size = h.slots.size
  count : k.occupied + old.object.isSome.toNat = h.occupied + new.object.isSome.toNat

theorem replaced_modify {h k : Heap H} {i : Nat} {slot : Slot H} (f : Slot H → Slot H)
    (found : h.slots[i]? = some slot) (slots : k.slots = h.slots.modify i f) :
    Replaced h k i slot (f slot) := by
  refine ⟨found, ?_, ?_, ?_, ?_⟩
  · rw [slots, Array.getElem?_modify, if_pos rfl, found, Option.map_some]
  · intro j ne
    rw [slots, Array.getElem?_modify, if_neg (Ne.symm ne)]
  · rw [slots, Array.size_modify]
  · unfold occupied
    rw [slots, Array.toList_modify]
    exact countP_modify_add (fun slot => slot.object.isSome) f h.slots.toList i slot
      (by simpa using found)

namespace Replaced

variable {h k : Heap H} {i : Nat} {old new : Slot H} (change : Replaced h k i old new)
include change

theorem cases {j : Nat} {slot : Slot H} (found : k.slots[j]? = some slot) :
    (j = i ∧ slot = new) ∨ (j ≠ i ∧ h.slots[j]? = some slot) := by
  by_cases eq : j = i
  · subst eq
    rw [change.after] at found
    cases found
    exact Or.inl ⟨rfl, rfl⟩
  · exact Or.inr ⟨eq, (change.away j eq).symm.trans found⟩

theorem all {P : Handle → Object H → Prop} (all : h.All P)
    (P_new : ∀ o, new.object = some o → P ⟨i, new.generation⟩ o) : k.All P := by
  intro j slot o found ho
  rcases change.cases found with ⟨rfl, rfl⟩ | ⟨_, found⟩
  · exact P_new o ho
  · exact all j slot o found ho

theorem object?_away {x : Handle} (ne : x.index ≠ i) : k.object? x = h.object? x := by
  unfold object?
  rw [change.away _ ne]

theorem object?_at {x : Handle} (eq : x.index = i) :
    k.object? x = if new.generation = x.generation then new.object else none := by
  unfold object?
  rw [eq, change.after]

theorem issued_away {x : Handle} (ne : x.index ≠ i) (free : x.index ∈ k.free ↔ x.index ∈ h.free) :
    k.Issued x ↔ h.Issued x := by
  unfold Issued
  rw [change.away _ ne, free]

theorem issued_at {x : Handle} (eq : x.index = i) :
    k.Issued x ↔
      x.generation < new.generation ∨ (x.generation = new.generation ∧ i ∉ k.free) := by
  unfold Issued
  rw [eq, change.after]
  simp

/-- The accounts stay in order if those of the changed slot do: it is on the free list or lent only
if it is vacant, and vacant without being on either only after its last generation. -/
theorem accounted {lent lent' : List Nat} (acc : h.Accounted lent)
    (free_nodup : k.free.Nodup) (lent_nodup : lent'.Nodup)
    (free : ∀ j, j ≠ i → (j ∈ k.free ↔ j ∈ h.free)) (lend : ∀ j, j ≠ i → (j ∈ lent' ↔ j ∈ lent))
    (free_vacant : i ∈ k.free → new.object = none)
    (lent_vacant : i ∈ lent' → i ∉ k.free ∧ new.object = none)
    (bounded : new.generation ≤ lastGeneration)
    (vacant : new.object = none → i ∈ k.free ∨ i ∈ lent' ∨ new.generation = lastGeneration)
    (live : k.live = k.occupied + lent'.length)
    (total : h.slots.size = k.occupied + lent'.length + k.free.length + k.retired) :
    k.Accounted lent' := by
  refine ⟨free_nodup, lent_nodup, fun j hj => ?_, fun j hj => ?_, fun j slot found => ?_,
    fun j slot found hnone => ?_, live, change.size.trans total⟩
  · by_cases eq : j = i
    · subst eq
      exact ⟨new, change.after, free_vacant hj⟩
    · rw [change.away j eq]
      exact acc.free_vacant j ((free j eq).mp hj)
  · by_cases eq : j = i
    · subst eq
      exact ⟨(lent_vacant hj).1, new, change.after, (lent_vacant hj).2⟩
    · rw [change.away j eq, free j eq]
      exact acc.lent_vacant j ((lend j eq).mp hj)
  · rcases change.cases found with ⟨rfl, rfl⟩ | ⟨_, found⟩
    · exact bounded
    · exact acc.bounded j slot found
  · rcases change.cases found with ⟨rfl, rfl⟩ | ⟨ne, found⟩
    · exact vacant hnone
    · rw [free j ne, lend j ne]
      exact acc.vacant j slot found hnone

theorem evolves (free : ∀ j, j ≠ i → (j ∈ k.free ↔ j ∈ h.free))
    (used : old.object = none → i ∈ h.free)
    (issued : ∀ x : Handle, x.index = i → h.Issued x → k.Issued x)
    (edited : ∀ (x : Handle) o', x.index = i → h.Issued x → k.object? x = some o' →
      ∃ o, h.object? x = some o ∧ o.Edited o') : h.Evolves k := by
  refine ⟨fun x hx => ?_, fun x o' hx found => ?_, fun j slot found vacant notFree => ?_⟩
  · by_cases index : x.index = i
    · exact issued x index hx
    · exact (change.issued_away index (free _ index)).mpr hx
  · by_cases index : x.index = i
    · exact edited x o' index hx found
    · rw [change.object?_away index] at found
      exact ⟨o', found, Object.Edited.refl o'⟩
  · have ne : j ≠ i := by
      rintro rfl
      rw [change.before] at found
      cases found
      exact notFree (used vacant)
    exact ⟨(change.away j ne).trans found, fun isFree => notFree ((free j ne).mp isFree)⟩

end Replaced

theorem issued_iff_of_slot {h : Heap H} {x : Handle} (slot : Slot H)
    (found : h.slots[x.index]? = some slot) :
    h.Issued x ↔
      x.generation < slot.generation ∨ (x.generation = slot.generation ∧ x.index ∉ h.free) := by
  unfold Issued
  rw [found]
  simp

theorem Replaced.issued_kept {h k : Heap H} {i : Nat} {old new : Slot H}
    (change : Replaced h k i old new) (generation : new.generation = old.generation)
    (free : k.free = h.free) (y : Handle) : k.Issued y ↔ h.Issued y := by
  by_cases index : y.index = i
  · rw [change.issued_at index, issued_iff_of_slot old (by rw [index, change.before]), index,
      generation, free]
  · exact change.issued_away index (by rw [free])

theorem Accounted.not_free {lent : List Nat} {h : Heap H} (acc : h.Accounted lent) {i : Nat}
    {slot : Slot H} {o : Object H} (found : h.slots[i]? = some slot) (ho : slot.object = some o) :
    i ∉ h.free := by
  intro isFree
  obtain ⟨slot', found', vacant⟩ := acc.free_vacant i isFree
  rw [found] at found'
  cases found'
  simp [vacant] at ho

theorem Accounted.not_lent {lent : List Nat} {h : Heap H} (acc : h.Accounted lent) {i : Nat}
    {slot : Slot H} {o : Object H} (found : h.slots[i]? = some slot) (ho : slot.object = some o) :
    i ∉ lent := by
  intro isLent
  obtain ⟨_, slot', found', vacant⟩ := acc.lent_vacant i isLent
  rw [found] at found'
  cases found'
  simp [vacant] at ho

theorem Accounted.issued_of_live {lent : List Nat} {h : Heap H} (acc : h.Accounted lent)
    {x : Handle} {o : Object H} (found : h.object? x = some o) : h.Issued x := by
  obtain ⟨slot, hslot, same, ho⟩ := object?_eq_some_iff.mp found
  exact ⟨slot, hslot, Or.inr ⟨same.symm, acc.not_free hslot ho⟩⟩

@[simp] theorem alloc_pools (h : Heap H) (o : Object H) : (h.alloc o).2.pools = h.pools := by
  unfold alloc
  cases h.free <;> rfl

theorem freeSlot_pools {h k : Heap H} {x : Handle} {o : Object H}
    (run : h.freeSlot x = some (o, k)) : k.pools = h.pools := by
  unfold freeSlot at run
  cases found : h.slots[x.index]? with
  | none => simp [found] at run
  | some slot =>
    simp only [found] at run
    split at run
    · obtain ⟨p, -, same⟩ := Option.map_eq_some_iff.mp run
      rw [← (Prod.mk.inj same).2]
    · cases run

section Primitives
variable {P : Handle → Object H → Prop} {lent : List Nat} {base h k : Heap H} {x : Handle}
  {o o' : Object H}

theorem later_empty : Later P [] ({} : Heap H) {} := by
  refine ⟨⟨List.nodup_nil, List.nodup_nil, ?_, ?_, ?_, ?_, rfl, rfl⟩, ?_, Evolves.refl _⟩ <;>
    simp [All]

theorem accounted_empty : ({} : Heap H).Accounted [] :=
  (later_empty (P := fun _ _ => True)).accounted

theorem Later.withPools (later : Later P lent base h) (pools : Pools) :
    Later P lent base { h with pools } :=
  ⟨⟨later.accounted.free_nodup, later.accounted.lent_nodup, later.accounted.free_vacant,
      later.accounted.lent_vacant, later.accounted.bounded, later.accounted.vacant,
      later.accounted.live, later.accounted.total⟩,
    later.all, ⟨later.evolves.issued, later.evolves.edited, later.evolves.withheld⟩⟩

/-! ### Changing an object in place -/

theorem object?_setObject (found : h.object? x = some o) (y : Handle) :
    (h.setObject x o').object? y = if y = x then some o' else h.object? y := by
  obtain ⟨slot, hslot, same, _⟩ := object?_eq_some_iff.mp found
  have change := replaced_modify (k := h.setObject x o')
    (fun slot => { slot with object := some o' }) hslot rfl
  by_cases index : y.index = x.index
  · rw [change.object?_at index]
    by_cases eq : y = x
    · simp [eq, same]
    · have differs : slot.generation ≠ y.generation := by
        intro generation
        apply eq
        cases x; cases y
        simp_all
      unfold object?
      simp [eq, differs, index, hslot]
  · have ne : y ≠ x := fun eq => index (congrArg Handle.index eq)
    rw [change.object?_away index, if_neg ne]

theorem Accounted.setObject (acc : h.Accounted lent) (found : h.object? x = some o)
    (o' : Object H) : (h.setObject x o').Accounted lent := by
  obtain ⟨slot, hslot, _, ho⟩ := object?_eq_some_iff.mp found
  have change := replaced_modify (k := h.setObject x o')
    (fun slot => { slot with object := some o' }) hslot rfl
  have notFree := acc.not_free hslot ho
  have notLent := acc.not_lent hslot ho
  have count : (h.setObject x o').occupied = h.occupied := by
    simpa [ho] using change.count
  refine change.accounted acc acc.free_nodup acc.lent_nodup (fun _ _ => Iff.rfl)
    (fun _ _ => Iff.rfl) (fun isFree => absurd isFree notFree) (fun isLent => absurd isLent notLent)
    (acc.bounded _ slot hslot) (fun vacant => by simp at vacant) ?_ ?_
  · rw [count]
    exact acc.live
  · rw [count]
    exact acc.total

theorem All.setObject (all : h.All P) (found : h.object? x = some o) (new : P x o') :
    (h.setObject x o').All P := by
  obtain ⟨slot, hslot, same, _⟩ := object?_eq_some_iff.mp found
  have change := replaced_modify (k := h.setObject x o')
    (fun slot => { slot with object := some o' }) hslot rfl
  refine change.all all fun p hp => ?_
  cases hp
  simp only
  rwa [same]

theorem Later.setObject (later : Later P lent base h) (stable : Object.Stable P)
    (found : h.object? x = some o) (edit : o.Edited o') :
    Later P lent base (h.setObject x o') := by
  obtain ⟨slot, hslot, same, ho⟩ := object?_eq_some_iff.mp found
  have change := replaced_modify (k := h.setObject x o')
    (fun slot => { slot with object := some o' }) hslot rfl
  refine ⟨later.accounted.setObject found o',
    later.all.setObject found (stable.edited edit (later.all.object? found)),
    later.evolves.trans ?_⟩
  refine change.evolves (fun _ _ => Iff.rfl) (fun vacant => by simp [vacant] at ho)
    (fun y _ => (change.issued_kept rfl rfl y).mpr) fun y p _ _ foundP => ?_
  rw [object?_setObject found] at foundP
  by_cases eq : y = x
  · subst eq
    rw [if_pos rfl] at foundP
    cases foundP
    exact ⟨o, found, edit⟩
  · rw [if_neg eq] at foundP
    exact ⟨p, foundP, Object.Edited.refl p⟩

theorem issued_setObject {o o' : Object H} (found : h.object? x = some o) (y : Handle) :
    (h.setObject x o').Issued y ↔ h.Issued y := by
  obtain ⟨slot, hslot, _, _⟩ := object?_eq_some_iff.mp found
  exact (replaced_modify (k := h.setObject x o') (fun slot => { slot with object := some o' })
    hslot rfl).issued_kept rfl rfl y

/-! ### Freeing -/

/-- What freeing does: the slot is vacant afterwards, and either free under its next generation or,
after its last one, never used again. -/
theorem freeSlot_cases (run : h.freeSlot x = some (o, k)) :
    ∃ slot, h.slots[x.index]? = some slot ∧ slot.generation = x.generation ∧
      slot.object = some o ∧ k.live = h.live - 1 ∧
      ((lastGeneration ≤ slot.generation ∧ k.free = h.free ∧ k.retired = h.retired + 1 ∧
          Replaced h k x.index slot { slot with object := none }) ∨
        (slot.generation < lastGeneration ∧ k.free = x.index :: h.free ∧ k.retired = h.retired ∧
          Replaced h k x.index slot { generation := slot.generation + 1, object := none })) := by
  unfold freeSlot at run
  cases found : h.slots[x.index]? with
  | none => simp [found] at run
  | some slot =>
    by_cases same : slot.generation = x.generation
    · cases ho : slot.object with
      | none => simp [found, same, ho] at run
      | some p =>
        simp only [found, same, if_true, ho, Option.map_some, Option.some.injEq,
          Prod.mk.injEq, decide_eq_true_eq] at run
        obtain ⟨rfl, rfl⟩ := run
        refine ⟨slot, rfl, same, ho, rfl, ?_⟩
        by_cases retires : lastGeneration ≤ x.generation
        · refine Or.inl ⟨same ▸ retires, if_pos retires, if_pos retires, ?_⟩
          refine replaced_modify (fun _ => { slot with object := none }) found ?_
          simp [retires, same]
        · refine Or.inr ⟨by omega, if_neg retires, if_neg retires, ?_⟩
          refine replaced_modify
            (fun _ => { generation := slot.generation + 1, object := none }) found ?_
          simp [retires, same]
    · simp [found, same] at run

theorem Later.freeSlot (later : Later P lent base h) (run : h.freeSlot x = some (o, k)) :
    Later P lent base k ∧ P x o := by
  obtain ⟨slot, hslot, same, ho, live, either⟩ := freeSlot_cases run
  have holds := later.all.object? (object?_eq_some_iff.mpr ⟨slot, hslot, same, ho⟩)
  refine ⟨?_, holds⟩
  have acc := later.accounted
  have notFree := acc.not_free hslot ho
  have notLent := acc.not_lent hslot ho
  have bounded := acc.bounded _ slot hslot
  have accLive := acc.live
  have accTotal := acc.total
  have vacates : ∀ {new : Slot H}, Replaced h k x.index slot new → new.object = none →
      k.occupied + 1 = h.occupied := by
    intro new change vacant
    simpa [ho, vacant] using change.count
  rcases either with ⟨retires, free, retired, change⟩ | ⟨notLast, free, retired, change⟩
  · have count := vacates change rfl
    refine ⟨?_, change.all later.all fun p hp => by simp at hp, later.evolves.trans ?_⟩
    · refine change.accounted acc (free ▸ acc.free_nodup) acc.lent_nodup (fun _ _ => by rw [free])
        (fun _ _ => Iff.rfl) (fun _ => rfl) (fun isLent => absurd isLent notLent) bounded
        (fun _ => Or.inr (Or.inr (Nat.le_antisymm bounded retires))) ?_ ?_
      · omega
      · rw [free, retired]
        omega
    · refine change.evolves (fun _ _ => by rw [free]) (fun vacant => by simp [vacant] at ho)
        (fun y _ => (change.issued_kept rfl free y).mpr) fun y p index _ foundP => ?_
      rw [change.object?_at index] at foundP
      simp at foundP
  · have count := vacates change rfl
    have free' : ∀ j, j ≠ x.index → (j ∈ k.free ↔ j ∈ h.free) := fun j ne => by simp [free, ne]
    refine ⟨?_, change.all later.all fun p hp => by simp at hp, later.evolves.trans ?_⟩
    · refine change.accounted acc ?_ acc.lent_nodup free' (fun _ _ => Iff.rfl) (fun _ => rfl)
        (fun isLent => absurd isLent notLent) notLast (fun _ => Or.inl ?_) ?_ ?_
      · rw [free]
        exact List.nodup_cons.mpr ⟨notFree, acc.free_nodup⟩
      · rw [free]
        exact List.mem_cons_self ..
      · omega
      · rw [free, retired, List.length_cons]
        omega
    · refine change.evolves free' (fun vacant => by simp [vacant] at ho) ?_ ?_
      · intro y index issued
        rw [change.issued_at index]
        have := (issued_iff_of_slot slot (by rw [index, hslot])).mp issued
        exact Or.inl (by simp only; omega)
      · intro y p index _ foundP
        rw [change.object?_at index] at foundP
        simp at foundP

/-! ### Allocating -/

theorem Accounted.alloc_cases (acc : h.Accounted lent) (o : Object H) :
    (∃ i rest slot, h.free = i :: rest ∧ slot.object = none ∧
        (h.alloc o).1 = .owned ⟨o.kind, ⟨i, slot.generation⟩⟩ ∧
        (h.alloc o).2.free = rest ∧ (h.alloc o).2.retired = h.retired ∧
        (h.alloc o).2.live = h.live + 1 ∧
        Replaced h (h.alloc o).2 i slot { slot with object := some o }) ∨
      (h.free = [] ∧ (h.alloc o).1 = .owned ⟨o.kind, ⟨h.slots.size, 0⟩⟩ ∧
        (h.alloc o).2 =
          { h with slots := h.slots.push { object := some o }, live := h.live + 1 }) := by
  cases hfree : h.free with
  | nil =>
    refine Or.inr ⟨rfl, ?_, ?_⟩ <;> simp [alloc, hfree]
  | cons i rest =>
    obtain ⟨slot, found, vacant⟩ := acc.free_vacant i (by rw [hfree]; exact List.mem_cons_self ..)
    refine Or.inl ⟨i, rest, slot, rfl, vacant, ?_, ?_, ?_, ?_, ?_⟩
    · simp [alloc, hfree, found]
    · simp [alloc, hfree]
    · simp [alloc, hfree]
    · simp [alloc, hfree]
    · exact replaced_modify (fun slot => { slot with object := some o }) found
        (by simp [alloc, hfree])

/-- The owner that an allocation answers names the new object through a handle that was never handed
out before. -/
theorem Accounted.alloc_fresh (acc : h.Accounted lent) (o : Object H) :
    ∃ x, (h.alloc o).1 = .owned ⟨o.kind, x⟩ ∧ ¬ h.Issued x ∧ (h.alloc o).2.object? x = some o := by
  rcases acc.alloc_cases o with
    ⟨i, rest, slot, free, vacant, answer, _, _, _, change⟩ | ⟨_, answer, after⟩
  · refine ⟨⟨i, slot.generation⟩, answer, ?_, ?_⟩
    · rw [issued_iff_of_slot _ change.before]
      simp [free]
    · rw [change.object?_at rfl]
      simp
  · refine ⟨⟨h.slots.size, 0⟩, answer, ?_, ?_⟩
    · rintro ⟨slot, found, _⟩
      simp at found
    · rw [after]
      simp [object?]

theorem Accounted.object?_alloc (acc : h.Accounted lent) (o : Object H) :
    ∃ x, (h.alloc o).1 = .owned ⟨o.kind, x⟩ ∧ ¬ h.Issued x ∧
      ∀ y, (h.alloc o).2.object? y = if y = x then some o else h.object? y := by
  rcases acc.alloc_cases o with
    ⟨i, rest, slot, free, vacant, answer, _, _, _, change⟩ | ⟨_, answer, after⟩
  · refine ⟨⟨i, slot.generation⟩, answer, ?_, fun y => ?_⟩
    · rw [issued_iff_of_slot _ change.before]
      simp [free]
    · by_cases index : y.index = i
      · rw [change.object?_at index]
        by_cases generation : slot.generation = y.generation
        · rw [if_pos generation, if_pos]
          cases y
          simp_all
        · rw [if_neg generation, if_neg (by rintro rfl; exact generation rfl)]
          simp [object?, index, change.before, vacant]
      · rw [change.object?_away index, if_neg (by rintro rfl; exact index rfl)]
  · refine ⟨⟨h.slots.size, 0⟩, answer, ?_, fun y => ?_⟩
    · rintro ⟨slot, found, _⟩
      simp at found
    · rw [after]
      by_cases index : y.index = h.slots.size
      · by_cases generation : y.generation = 0
        · rw [if_pos (by cases y; simp_all)]
          simp [object?, index, generation]
        · rw [if_neg (by rintro rfl; exact generation rfl)]
          simp [object?, index, Ne.symm generation]
      · rw [if_neg (by rintro rfl; exact index rfl)]
        simp [object?, Array.getElem?_push, index]

theorem Later.reuse (later : Later P lent base h) (new : ∀ x, P x o) {i : Nat} {rest : List Nat}
    {slot : Slot H} (free : h.free = i :: rest) (vacant : slot.object = none) (free' : k.free = rest)
    (retired : k.retired = h.retired) (live : k.live = h.live + 1)
    (change : Replaced h k i slot { slot with object := some o }) : Later P lent base k := by
  have acc := later.accounted
  have accLive := acc.live
  have accTotal := acc.total
  have nodup : i ∉ rest ∧ rest.Nodup := List.nodup_cons.mp (free ▸ acc.free_nodup)
  have count := change.count
  simp only [vacant, Option.isSome_some, Option.isSome_none, Bool.toNat_true, Bool.toNat_false,
    Nat.add_zero] at count
  have isFree : i ∈ h.free := by
    rw [free]
    exact List.mem_cons_self ..
  have others : ∀ j, j ≠ i → (j ∈ k.free ↔ j ∈ h.free) := by
    intro j ne
    rw [free, free', List.mem_cons]
    exact ⟨Or.inr, fun either => either.resolve_left ne⟩
  have notFree : i ∉ k.free := free' ▸ nodup.1
  have notLent : i ∉ lent := fun isLent => (acc.lent_vacant i isLent).1 isFree
  have earlier : ∀ y : Handle, y.index = i → h.Issued y → y.generation < slot.generation := by
    intro y index issued
    rw [issued_iff_of_slot slot (by rw [index, change.before]), index] at issued
    exact issued.resolve_right fun away => away.2 isFree
  refine ⟨?_, change.all later.all fun p hp => by cases hp; exact new _, later.evolves.trans ?_⟩
  · refine change.accounted acc (free' ▸ nodup.2) acc.lent_nodup others (fun _ _ => Iff.rfl)
      (fun isFree => absurd isFree notFree) (fun isLent => absurd isLent notLent)
      (acc.bounded _ slot change.before) (fun vacant => by simp at vacant) ?_ ?_
    · omega
    · rw [free', retired]
      rw [free, List.length_cons] at accTotal
      omega
  · refine change.evolves others (fun _ => isFree) ?_ ?_
    · intro y index issued
      exact (change.issued_at index).mpr (Or.inl (earlier y index issued))
    · intro y p index issued foundP
      have less := earlier y index issued
      rw [change.object?_at index, if_neg (by simp only; omega)] at foundP
      simp at foundP

def pushSlot (h : Heap H) (o : Object H) : Heap H :=
  { h with slots := h.slots.push { object := some o }, live := h.live + 1 }

theorem slots_pushSlot {j : Nat} {slot : Slot H} (found : h.slots[j]? = some slot) :
    (h.pushSlot o).slots[j]? = some slot := by
  obtain ⟨inside, _⟩ := Array.getElem?_eq_some_iff.mp found
  rw [pushSlot, Array.getElem?_push_lt inside]
  exact (Array.getElem?_eq_getElem inside).symm.trans found

theorem pushSlot_cases {j : Nat} {slot : Slot H} (found : (h.pushSlot o).slots[j]? = some slot) :
    slot = { object := some o } ∨ h.slots[j]? = some slot := by
  rw [pushSlot, Array.getElem?_push] at found
  split at found
  · exact Or.inl (Option.some.inj found).symm
  · exact Or.inr found

theorem Accounted.pushSlot (acc : h.Accounted lent) (o : Object H) :
    (h.pushSlot o).Accounted lent := by
  have count : (h.pushSlot o).occupied = h.occupied + 1 := by simp [Heap.pushSlot, occupied]
  have accLive := acc.live
  have accTotal := acc.total
  refine ⟨acc.free_nodup, acc.lent_nodup, fun j isFree => ?_, fun j isLent => ?_,
    fun j slot found => ?_, fun j slot found vacant => ?_, ?_, ?_⟩
  · obtain ⟨slot, found, vacant⟩ := acc.free_vacant j isFree
    exact ⟨slot, slots_pushSlot found, vacant⟩
  · obtain ⟨away, slot, found, vacant⟩ := acc.lent_vacant j isLent
    exact ⟨away, slot, slots_pushSlot found, vacant⟩
  · rcases pushSlot_cases found with rfl | found
    · exact Nat.zero_le _
    · exact acc.bounded j slot found
  · rcases pushSlot_cases found with rfl | found
    · simp at vacant
    · exact acc.vacant j slot found vacant
  · rw [count]
    simp only [Heap.pushSlot]
    omega
  · rw [count]
    simp only [Heap.pushSlot, Array.size_push]
    omega

theorem evolves_pushSlot (h : Heap H) (o : Object H) : h.Evolves (h.pushSlot o) := by
  refine ⟨?_, ?_, fun j slot found _ notFree => ⟨slots_pushSlot found, notFree⟩⟩
  · rintro y ⟨slot, found, position⟩
    exact ⟨slot, slots_pushSlot found, position⟩
  · rintro y p ⟨slot, found, _⟩ foundP
    refine ⟨p, ?_, Object.Edited.refl p⟩
    obtain ⟨slot', found', same, hp⟩ := object?_eq_some_iff.mp foundP
    cases (slots_pushSlot found).symm.trans found'
    exact object?_eq_some_iff.mpr ⟨slot, found, same, hp⟩

theorem Later.alloc (later : Later P lent base h) (new : ∀ x, P x o) :
    Later P lent base (h.alloc o).2 := by
  rcases later.accounted.alloc_cases o with
    ⟨i, rest, slot, free, vacant, _, free', retired, live, change⟩ | ⟨_, _, after⟩
  · exact later.reuse new free vacant free' retired live change
  · rw [after]
    refine ⟨later.accounted.pushSlot o, fun j slot p found holds => ?_,
      later.evolves.trans (evolves_pushSlot h o)⟩
    rcases pushSlot_cases found with rfl | found
    · cases holds
      exact new _
    · exact later.all j slot p found holds

/-! ### Lending -/

def vacated (h : Heap H) (x : Handle) : Heap H :=
  { h with slots := h.slots.modify x.index fun slot => { slot with object := none } }

theorem borrow_eq_ok (found : h.object? x = some o) : h.borrow x = .ok (o, h.vacated x) := by
  simp [borrow, found, vacated]

theorem issued_vacated (found : h.object? x = some o) (y : Handle) :
    (h.vacated x).Issued y ↔ h.Issued y := by
  obtain ⟨slot, hslot, -, -⟩ := object?_eq_some_iff.mp found
  exact (replaced_modify (k := h.vacated x) (fun slot => { slot with object := none })
    hslot rfl).issued_kept rfl rfl y

theorem Later.lend (later : Later P lent base h) (found : h.object? x = some o) :
    Later P (x.index :: lent) (h.vacated x) (h.vacated x) := by
  obtain ⟨slot, hslot, same, ho⟩ := object?_eq_some_iff.mp found
  have change := replaced_modify (k := h.vacated x) (fun slot => { slot with object := none })
    hslot rfl
  have acc := later.accounted
  have notFree := acc.not_free hslot ho
  have notLent := acc.not_lent hslot ho
  have accLive := acc.live
  have accTotal := acc.total
  have count := change.count
  simp only [ho, Option.isSome_some, Option.isSome_none, Bool.toNat_true, Bool.toNat_false,
    Nat.add_zero] at count
  refine ⟨?_, change.all later.all fun p hp => by simp at hp, Evolves.refl _⟩
  refine change.accounted acc acc.free_nodup (List.nodup_cons.mpr ⟨notLent, acc.lent_nodup⟩)
    (fun _ _ => Iff.rfl) (fun j ne => by simp [ne]) (fun _ => rfl) (fun _ => ⟨notFree, rfl⟩)
    (acc.bounded _ slot hslot) (fun _ => Or.inr (Or.inl (List.mem_cons_self ..))) ?_ ?_
  · simp only [vacated, List.length_cons] at count ⊢
    omega
  · simp only [vacated, List.length_cons] at count ⊢
    omega

/-- An object that comes back finds its slot empty and at the same generation, so for every handle
the heap looks as if the object had never been out. -/
theorem Later.restore (later : Later P lent base h) (found : h.object? x = some o)
    (inner : Later P (x.index :: lent) (h.vacated x) k) : Later P lent base (k.setObject x o) := by
  obtain ⟨slot, hslot, same, ho⟩ := object?_eq_some_iff.mp found
  have out := replaced_modify (k := h.vacated x) (fun slot => { slot with object := none })
    hslot rfl
  have notFree := later.accounted.not_free hslot ho
  obtain ⟨kept, notFree'⟩ := inner.evolves.withheld x.index _ out.after rfl notFree
  have back := replaced_modify (k := k.setObject x o) (fun slot => { slot with object := some o })
    kept rfl
  have acc := inner.accounted
  have accLive := acc.live
  have accTotal := acc.total
  obtain ⟨notLent, lentNodup⟩ := List.nodup_cons.mp acc.lent_nodup
  have count := back.count
  simp only [Option.isSome_some, Option.isSome_none, Bool.toNat_true, Bool.toNat_false,
    Nat.add_zero] at count
  rw [List.length_cons] at accLive accTotal
  refine ⟨?_, ?_, later.evolves.trans ?_⟩
  · refine back.accounted acc acc.free_nodup lentNodup (fun _ _ => Iff.rfl)
      (fun j ne => by simp [ne]) (fun isFree => absurd isFree notFree')
      (fun isLent => absurd isLent notLent) ?_ (fun vacant => by simp at vacant) ?_ ?_
    · have bounded := acc.bounded _ _ kept
      exact bounded
    · simp only [Heap.setObject] at count ⊢
      omega
    · simp only [Heap.setObject] at count ⊢
      omega
  · refine back.all inner.all fun p hp => ?_
    cases hp
    exact later.all _ slot o hslot ho
  · refine ⟨fun y issued => ?_, fun y p issued foundP => ?_, fun i slot' found' vacant away => ?_⟩
    · have inside := inner.evolves.issued y ((issued_vacated found y).mpr issued)
      exact (back.issued_kept rfl rfl y).mpr inside
    · by_cases index : y.index = x.index
      · rw [back.object?_at index] at foundP
        by_cases generation : slot.generation = y.generation
        · simp only [generation, if_true] at foundP
          cases foundP
          have eq : y = x := by
            cases x; cases y
            simp_all
          exact ⟨o, eq ▸ found, Object.Edited.refl o⟩
        · simp [generation] at foundP
      · rw [back.object?_away index] at foundP
        obtain ⟨q, foundQ, edit⟩ :=
          inner.evolves.edited y p ((issued_vacated found y).mpr issued) foundP
        rw [out.object?_away index] at foundQ
        exact ⟨q, foundQ, edit⟩
    · have ne : i ≠ x.index := by
        rintro rfl
        rw [hslot] at found'
        cases found'
        simp [vacant] at ho
      rw [← out.away i ne] at found'
      obtain ⟨found', away'⟩ := inner.evolves.withheld i slot' found' vacant away
      exact ⟨(back.away i ne).trans found', away'⟩

end Primitives

end Heap

end ScriptMachine
