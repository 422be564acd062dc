import ScriptMachine.Proofs.Heap.Sound

/-!
# Generators on the heap

The frame of a generator is parked in its iterator, or on the stack of a job. `Heap.Protocol` says
which of the two, by the state of the iterator; the frames are those of all stacks.

Instructions and host functions leave generators alone: `Heap.Grows` relates a heap to what they can
make of it. Only a transfer of control changes a generator, and each of these changes has its lemma
here: a frame is parked, resumed, put into a new iterator, or gone for good.
-/

set_option autoImplicit false

namespace ScriptMachine

def Frame.Codes (Q : CodeUnit → Prop) (f : Frame) : Prop := ∀ u, f.unit = some u → Q u

namespace Object

variable {H : Type}

def Codes (Q : CodeUnit → Prop) : Object H → Prop
  | .callable (.script unit _) => Q unit
  | .iterator it => ∀ f, it.parked = some f → f.Codes Q
  | _ => True

def Calm (Q : CodeUnit → Prop) (h : Heap H) (x : Handle) : Object H → Prop
  | .callable (.script unit _) => Q unit
  | .iterator it => it.isGenerator = true → h.object? x = some (.iterator it)
  | _ => True

theorem Calm.stable (Q : CodeUnit → Prop) (h : Heap H) : Stable (Calm Q h) where
  struct := fun _ _ => trivial
  external := fun _ _ => trivial
  host := fun _ _ _ => trivial
  closure := fun _ _ _ _ _ code => code
  walk := by
    intro x it walk generates
    rw [walk] at generates
    cases generates

end Object

namespace Heap

variable {H : Type} {Q : CodeUnit → Prop} {h j k : Heap H} {x : Handle} {it : Iterator}

/-! ## Changes that leave generators alone -/

/-- `k` came out of `h` by operations that change no generator, make none, and bring in only code of
units with `Q`. -/
def Grows (Q : CodeUnit → Prop) (h k : Heap H) : Prop := Later (Object.Calm Q h) [] h k

theorem Grows.refl (accounted : h.Accounted []) (code : h.All fun _ o => o.Codes Q) :
    h.Grows Q h := by
  refine ⟨accounted, fun i slot o found ho => ?_, Evolves.refl h⟩
  cases o with
  | callable c =>
    cases c with
    | script unit captures => exact code i slot _ found ho
    | host => trivial
  | iterator it => exact fun _ => object?_eq_some_iff.mpr ⟨slot, found, rfl, ho⟩
  | _ => trivial

theorem Grows.generator (grows : h.Grows Q k) (found : k.object? x = some (.iterator it))
    (generates : it.isGenerator = true) : h.object? x = some (.iterator it) :=
  grows.all.object? found generates

/-- A heap operation that keeps what all of them keep leaves generators alone. -/
theorem Grows.keeps {α : Type} {op : HeapM H α}
    (keeps : ∀ P, Object.Stable P → op.Keeps (Later P [] h)) : op.Keeps (h.Grows Q) :=
  keeps (Object.Calm Q h) (Object.Calm.stable Q h)

/-- A frame that is parked after calm operations was parked before. -/
theorem Grows.code (grows : h.Grows Q k) (code : h.All fun _ o => o.Codes Q) :
    k.All fun _ o => o.Codes Q := by
  intro i slot o found ho
  have calm := grows.all i slot o found ho
  cases o with
  | callable c =>
    cases c with
    | script unit captures => exact calm
    | host => trivial
  | iterator it =>
    intro f parked
    have generates : it.isGenerator = true := by
      cases walk : it.isGenerator with
      | true => rfl
      | false => simp [parked_of_walk walk] at parked
    exact (code.object? (calm generates)) f parked
  | _ => trivial

/-! ## The protocol -/

end Heap

/-- How many of some frames belong to an iterator. -/
def runners (x : Handle) (fs : List Frame) : Nat := fs.countP fun f => decide (f.generator = some x)

@[simp] theorem runners_cons (x : Handle) (f : Frame) (fs : List Frame) :
    runners x (f :: fs) = runners x fs + if f.generator = some x then 1 else 0 := by
  simp [runners, List.countP_cons]

@[simp] theorem runners_append (x : Handle) (fs gs : List Frame) :
    runners x (fs ++ gs) = runners x fs + runners x gs := List.countP_append

theorem runners_eq_zero {x : Handle} {fs : List Frame}
    (none : ∀ f ∈ fs, f.generator ≠ some x) : runners x fs = 0 := by
  simpa [runners] using none

/-- Where the frame of a generator is, by its state: parked in the iterator, on one stack, or gone.
`n` is the number of frames on stacks that belong to it. One that was not started yielded nothing.
-/
def Iterator.Keeps (it : Iterator) (x : Handle) (n : Nat) : Prop :=
  match it.state with
  | .created => (∃ f, it.parked = some f ∧ f.generator = some x) ∧ n = 0 ∧ it.yields = 0
  | .active => (∃ f, it.parked = some f ∧ f.generator = some x) ∧ n = 0
  | .running => it.parked = none ∧ n = 1
  | .exhausted => it.parked = none ∧ n = 0 ∧ it.key = .null ∧ it.current = []

namespace Heap

variable {H : Type} {Q : CodeUnit → Prop} {h k : Heap H} {x : Handle} {it : Iterator}
  {f : Frame} {fs : List Frame}

structure Generating (h : Heap H) (x : Handle) : Prop where
  issued : h.Issued x
  generator : ∀ o, h.object? x = some o → ∃ it, o = .iterator it ∧ it.isGenerator = true

structure Protocol (h : Heap H) (fs : List Frame) : Prop where
  keeps : ∀ x it, h.object? x = some (.iterator it) → it.isGenerator = true →
    it.Keeps x (runners x fs)
  frames : ∀ f ∈ fs, ∀ x, f.generator = some x → h.Generating x

structure Ended (h : Heap H) (x : Handle) : Prop extends h.Generating x where
  state : ∀ it, h.object? x = some (.iterator it) → it.state = .exhausted

theorem Grows.same (grows : h.Grows Q k) (generating : h.Generating x) {o : Object H}
    (found : k.object? x = some o) : h.object? x = some o := by
  obtain ⟨o', found', edit⟩ := grows.evolves.edited x o generating.issued found
  obtain ⟨it, rfl, generates⟩ := generating.generator o' found'
  cases o with
  | iterator it' =>
    rcases edit with rfl | ⟨walk, _⟩
    · exact found'
    · rw [walk] at generates
      cases generates
  | _ => exact edit.elim

theorem Generating.grows (generating : h.Generating x) (grows : h.Grows Q k) : k.Generating x :=
  ⟨grows.evolves.issued x generating.issued,
    fun o found => generating.generator o (grows.same generating found)⟩

theorem Protocol.grows (protocol : h.Protocol fs) (grows : h.Grows Q k) : k.Protocol fs :=
  ⟨fun x it found generates => protocol.keeps x it (grows.generator found generates) generates,
    fun f mem x belongs => (protocol.frames f mem x belongs).grows grows⟩

theorem Ended.grows (ended : h.Ended x) (grows : h.Grows Q k) : k.Ended x :=
  ⟨ended.toGenerating.grows grows,
    fun it found => ended.state it (grows.same ended.toGenerating found)⟩

theorem Protocol.of_generators (protocol : h.Protocol fs) {gs : List Frame}
    (same : (gs.map Frame.generator).Perm (fs.map Frame.generator)) : h.Protocol gs := by
  have count : ∀ x, runners x gs = runners x fs := by
    intro x
    have perm := same.countP_eq fun g => decide (g = some x)
    simpa [runners, List.countP_map, Function.comp_def] using perm
  refine ⟨fun x it found generates => count x ▸ protocol.keeps x it found generates, ?_⟩
  intro g mem x belongs
  obtain ⟨f, mem', eq⟩ := List.mem_map.mp (same.mem_iff.mp (List.mem_map_of_mem mem))
  exact protocol.frames f mem' x (eq.trans belongs)

theorem protocol_cons (plain : f.generator = none) : h.Protocol (f :: fs) ↔ h.Protocol fs := by
  have count : ∀ x, runners x (f :: fs) = runners x fs := by simp [plain]
  constructor
  · intro protocol
    exact ⟨fun x it found generates => count x ▸ protocol.keeps x it found generates,
      fun g mem => protocol.frames g (List.mem_cons_of_mem _ mem)⟩
  · intro protocol
    refine ⟨fun x it found generates => (count x).symm ▸ protocol.keeps x it found generates, ?_⟩
    intro g mem x belongs
    rcases List.mem_cons.mp mem with rfl | mem
    · rw [plain] at belongs
      cases belongs
    · exact protocol.frames g mem x belongs

/-! ### Changes of one generator -/

section Change
variable {it' : Iterator} {gs : List Frame}

theorem Generating.setObject (found : h.object? x = some (.iterator it))
    (generates : it'.isGenerator = true) {y : Handle} (generating : h.Generating y) :
    (h.setObject x (.iterator it')).Generating y := by
  refine ⟨(issued_setObject found y).mpr generating.issued, fun o found' => ?_⟩
  rw [object?_setObject found] at found'
  by_cases eq : y = x
  · rw [if_pos eq] at found'
    cases found'
    exact ⟨it', rfl, generates⟩
  · rw [if_neg eq] at found'
    exact generating.generator o found'

theorem Protocol.setObject (protocol : h.Protocol fs) (found : h.object? x = some (.iterator it))
    (generates : it'.isGenerator = true) (keeps : it'.Keeps x (runners x gs))
    (away : ∀ y, y ≠ x → runners y gs = runners y fs)
    (frames : ∀ f ∈ gs, ∀ y, f.generator = some y → h.Generating y) :
    (h.setObject x (.iterator it')).Protocol gs := by
  refine ⟨fun y it'' found' generates'' => ?_,
    fun f mem y belongs => (frames f mem y belongs).setObject found generates⟩
  rw [object?_setObject found] at found'
  by_cases eq : y = x
  · rw [if_pos eq] at found'
    cases found'
    exact eq ▸ keeps
  · rw [if_neg eq] at found'
    exact away y eq ▸ protocol.keeps y it'' found' generates''

theorem Ended.setObject {y : Handle} (ended : h.Ended y)
    (found : h.object? x = some (.iterator it)) (generates : it'.isGenerator = true)
    (stays : y = x → it'.state = .exhausted) : (h.setObject x (.iterator it')).Ended y := by
  refine ⟨ended.toGenerating.setObject found generates, fun it'' found' => ?_⟩
  rw [object?_setObject found] at found'
  by_cases eq : y = x
  · rw [if_pos eq] at found'
    cases found'
    exact stays eq
  · rw [if_neg eq] at found'
    exact ended.state it'' found'

end Change

end Heap

end ScriptMachine
