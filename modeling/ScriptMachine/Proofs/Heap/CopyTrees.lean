import ScriptMachine.Proofs.Heap.Copies
import ScriptMachine.Proofs.Heap.Freed
import ScriptMachine.Proofs.Heap.Orderly
import ScriptMachine.Proofs.Structure.Likeness

/-!
# Trees of objects and their copies

A value has a deep copy if it leads to a tree of structures and callables: each owner on the way
names one that is there, and none of them owns itself through others. That is said twice, by what
can be reached and as an inductive tree, and both are the same since there are no more objects than
slots.

`CopyOf` says that a value owns a copy: new objects of the same form, each in place of one of the
source. Values that are no owners are shared. The owners of a copy lead to the objects that it is
made of and to no others.
-/

set_option autoImplicit false

namespace ScriptMachine

open Relation (ReflTransGen TransGen)

variable {H : Type}

namespace Object

def Copies (o : Object H) : Prop := o.kind = .struct ∨ o.kind = .callable

inductive Rebuilt : Object H → List Value → Object H → Prop
  | struct {s s' : Structure} {values : List Value} (alike : s.Resembles s')
      (holds : s'.values = values.map Structure.attach) :
      Rebuilt (.struct s) values (.struct s')
  | script {unit : CodeUnit} {captures captures' : Buffer} {values : List Value}
      (holds : captures'.items = values) :
      Rebuilt (.callable (.script unit captures)) values (.callable (.script unit captures'))
  | host {path : String} {function : H} :
      Rebuilt (.callable (.host path function)) [] (.callable (.host path function))

theorem Rebuilt.tally_held {o o' : Object H} {values : List Value} (rebuilt : o.Rebuilt values o')
    (x : Handle) : tally x o'.held = tally x values := by
  cases rebuilt with
  | struct alike holds =>
    rw [held, holds]
    exact tally_map (fun v x => Structure.owners_attach v x) x values
  | script holds => rw [held, holds]
  | host => rfl

end Object

namespace Heap

variable {g h j k : Heap H} {away : List Handle} {lent : List Nat} {x y : Handle} {o : Object H}
  {v w : Value} {us vs ws : List Value} {xs ys : List Handle} {ref : HeapRef}

theorem parts_eq_held (copies : o.Copies) : parts o = o.held := by
  rcases copies with kind | kind <;> cases o <;> simp [Object.kind] at kind
  · rfl
  · rename_i c
    cases c <;> rfl

/-- A value that names a structure or callable whose owners lead to further ones, and to no end
otherwise: what they own is copyable in turn. -/
inductive Copyable (h : Heap H) : Value → Prop
  | tree {v : Value} {ref : HeapRef} {o : Object H} (refers : v.ref? = some ref)
      (named : ref.kind = .struct ∨ ref.kind = .callable) (live : h.object? ref.handle = some o)
      (copies : o.Copies) (owned : ∀ w ∈ o.held, w.owns = true → h.Copyable w) : h.Copyable v

/-- The values `ws` in `k` are those that copies of `vs` in `h` hold: an owner for each owner, of a
new object of the form of the other one, and shares of all other values. The handles of the new
objects are listed. -/
inductive Mirrors (h k : Heap H) : List Value → List Value → List Handle → Prop
  | nil : Mirrors h k [] [] []
  | shared {v : Value} {vs ws : List Value} {xs : List Handle} (plain : v.owns = false)
      (rest : Mirrors h k vs ws xs) : Mirrors h k (v :: vs) (v.share :: ws) xs
  | copied {v : Value} {ref : HeapRef} {o o' : Object H} {x : Handle} {us vs ws : List Value}
      {xs ys : List Handle} (owner : v.owned? = some ref) (source : h.object? ref.handle = some o)
      (copy : k.object? x = some o') (rebuilt : o.Rebuilt us o') (held : Mirrors h k o.held us xs)
      (rest : Mirrors h k vs ws ys) :
      Mirrors h k (v :: vs) (.owned ⟨o.kind, x⟩ :: ws) (x :: xs ++ ys)

inductive CopyOf (h k : Heap H) (v : Value) : Value → List Handle → Prop
  | tree {ref : HeapRef} {o o' : Object H} {x : Handle} {us : List Value} {xs : List Handle}
      (refers : v.ref? = some ref) (source : h.object? ref.handle = some o)
      (copy : k.object? x = some o') (rebuilt : o.Rebuilt us o')
      (held : Mirrors h k o.held us xs) : CopyOf h k v (.owned ⟨o.kind, x⟩) (x :: xs)

/-! ## Copies as trees -/

theorem owned?_eq_ref? (owns : v.owns = true) : v.owned? = v.ref? := by
  unfold Value.owns at owns
  unfold Value.owned? Value.ref?
  cases content : v.content <;> simp_all

theorem owns_iff : v.owns = true ↔ ∃ ref, v.owned? = some ref := by
  unfold Value.owns Value.owned?
  cases v.content <;> simp

theorem Mirrors.append {us' ws' : List Value} (first : Mirrors h k us ws xs)
    (second : Mirrors h k us' ws' ys) : Mirrors h k (us ++ us') (ws ++ ws') (xs ++ ys) := by
  induction first with
  | nil => exact second
  | shared plain _ ih => exact .shared plain ih
  | copied owner source copy rebuilt held _ _ ih =>
    rw [List.append_assoc]
    exact .copied owner source copy rebuilt held ih

theorem CopyOf.single (copy : CopyOf h k v w xs) (owns : v.owns = true) :
    Mirrors h k [v] [w] xs := by
  obtain ⟨refers, source, copy, rebuilt, held⟩ := copy
  have mirrors := Mirrors.copied ((owned?_eq_ref? owns).trans refers) source copy rebuilt held .nil
  rwa [List.append_nil] at mirrors

theorem Mirrors.length (mirrors : Mirrors h k vs ws xs) : ws.length = vs.length := by
  induction mirrors with
  | nil => rfl
  | shared _ _ ih => exact congrArg (· + 1) ih
  | copied _ _ _ _ _ _ _ ih => exact congrArg (· + 1) ih

/-- A value that a copy holds in place of another one: a share of it, or a copy if it is an
owner. -/
theorem Mirrors.at {vs us : List Value} {xs : List Handle} (mirrors : Mirrors h k vs us xs)
    {i : Nat} {u : Value} (left : vs[i]? = some v) (right : us[i]? = some u) :
    (v.owns = false ∧ u = v.share) ∨ v.owns = true ∧ ∃ ys, CopyOf h k v u ys := by
  induction mirrors generalizing i with
  | nil => cases left
  | shared plain _ ih =>
    cases i with
    | zero =>
      cases left
      cases right
      exact .inl ⟨plain, rfl⟩
    | succ i => exact ih left right
  | copied owner source copy rebuilt held _ _ ih =>
    cases i with
    | zero =>
      cases left
      cases right
      have owns := owns_iff.mpr ⟨_, owner⟩
      exact .inr ⟨owns, _, .tree ((owned?_eq_ref? owns).symm.trans owner) source copy rebuilt held⟩
    | succ i => exact ih left right

/-- What happens to other objects does not matter to a copy. -/
theorem Mirrors.frame (mirrors : Mirrors h j vs ws xs)
    (same : ∀ x ∈ xs, k.object? x = j.object? x) : Mirrors h k vs ws xs := by
  induction mirrors with
  | nil => exact .nil
  | shared plain _ ih => exact .shared plain (ih same)
  | copied owner source copy rebuilt _ _ ihHeld ihRest =>
    refine .copied owner source ?_ rebuilt (ihHeld fun x mem => same x ?_)
      (ihRest fun x mem => same x ?_)
    · exact (same _ (List.mem_cons_self ..)).trans copy
    · exact List.mem_cons_of_mem _ (List.mem_append_left _ mem)
    · exact List.mem_cons_of_mem _ (List.mem_append_right _ mem)

theorem CopyOf.frame (copy : CopyOf h j v w xs) (same : ∀ x ∈ xs, k.object? x = j.object? x) :
    CopyOf h k v w xs := by
  obtain ⟨refers, source, copy, rebuilt, held⟩ := copy
  exact .tree refers source ((same _ (List.mem_cons_self ..)).trans copy) rebuilt
    (held.frame fun x mem => same x (List.mem_cons_of_mem _ mem))

theorem Mirrors.closed (mirrors : Mirrors h k vs ws xs) :
    (∀ y, 0 < tally y ws → y ∈ xs) ∧ ∀ x ∈ xs, ∀ y, k.Owns x y → y ∈ xs := by
  induction mirrors with
  | nil =>
    exact ⟨fun _ pos => absurd pos (Nat.lt_irrefl 0), fun _ mem => (List.not_mem_nil mem).elim⟩
  | shared _ _ ih =>
    refine ⟨fun y pos => ih.1 y ?_, ih.2⟩
    simpa using pos
  | @copied v ref o o' x us vs ws xs ys _ _ copy rebuilt _ _ ihHeld ihRest =>
    refine ⟨fun y pos => ?_, fun z mem y owns => ?_⟩
    · rw [tally_cons, Value.owners_owned] at pos
      split at pos
      · rename_i same
        exact same ▸ List.mem_cons_self ..
      · exact List.mem_cons_of_mem _ (List.mem_append_right _ (ihRest.1 y (by omega)))
    · rcases List.mem_cons.mp mem with rfl | mem
      · obtain ⟨p, found, pos⟩ := owns
        rw [copy] at found
        cases found
        rw [rebuilt.tally_held] at pos
        exact List.mem_cons_of_mem _ (List.mem_append_left _ (ihHeld.1 y pos))
      · refine List.mem_cons_of_mem _ ?_
        rcases List.mem_append.mp mem with mem | mem
        · exact List.mem_append_left _ (ihHeld.2 z mem y owns)
        · exact List.mem_append_right _ (ihRest.2 z mem y owns)

theorem Mirrors.below_of_mem (mirrors : Mirrors h k vs ws xs) : ∀ x ∈ xs, k.Below ws x := by
  induction mirrors with
  | nil => exact fun _ mem => (List.not_mem_nil mem).elim
  | @shared v vs ws xs _ _ ih =>
    exact fun x mem => List.singleton_append ▸ below_append.mpr (.inr (ih x mem))
  | @copied v ref o o' x us vs ws xs ys _ _ copy rebuilt _ _ ihHeld ihRest =>
    have top : k.Below [.owned ⟨o.kind, x⟩] x := below_of_tally (by simp)
    have inside : ∀ z ∈ x :: xs, k.Below [.owned ⟨o.kind, x⟩] z := by
      intro z mem
      rcases List.mem_cons.mp mem with rfl | mem
      · exact top
      · refine (ihHeld z mem).mono fun y pos => top.owns ⟨o', copy, ?_⟩
        rwa [rebuilt.tally_held]
    intro z mem
    rw [← List.singleton_append, below_append]
    rcases List.mem_append.mp mem with mem | mem
    · exact .inl (inside z mem)
    · exact .inr (ihRest z mem)

theorem Mirrors.below_iff (mirrors : Mirrors h k vs ws xs) (y : Handle) :
    k.Below ws y ↔ y ∈ xs := by
  refine ⟨?_, mirrors.below_of_mem y⟩
  rintro ⟨x, pos, path⟩
  obtain ⟨top, closed⟩ := mirrors.closed
  induction path with
  | refl => exact top x pos
  | tail _ owns ih => exact closed _ ih _ owns

theorem CopyOf.below_iff (copy : CopyOf h k v w xs) (y : Handle) : k.Below [w] y ↔ y ∈ xs := by
  obtain ⟨refers, source, copy, rebuilt, held⟩ := copy
  rename_i ref o o' x us xs
  have mirrors : Mirrors h k [.owned ref] [.owned ⟨o.kind, x⟩] (x :: xs ++ []) :=
    .copied rfl source copy rebuilt held .nil
  rw [mirrors.below_iff, List.append_nil]

/-! ## Values that have a copy -/

theorem Copyable.acc (copyable : h.Copyable v) (refers : v.ref? = some ref) :
    Acc (fun y x => h.Owns x y) ref.handle := by
  induction copyable generalizing ref with
  | @tree v ref' o refers' _ live _ _ ih =>
    rw [refers'] at refers
    cases refers
    refine Acc.intro _ fun y owns => ?_
    obtain ⟨p, found, pos⟩ := owns
    rw [live] at found
    cases found
    obtain ⟨w, mem, owner⟩ := exists_mem_of_tally_pos pos
    obtain ⟨inner, owned, rfl⟩ := Value.owned?_of_pos owner
    have owns := owns_iff.mpr ⟨inner, owned⟩
    exact ih w mem owns ((owned?_eq_ref? owns).symm.trans owned)

theorem not_transGen_of_acc (acc : Acc (fun y x => h.Owns x y) x) : ¬ TransGen h.Owns x x := by
  induction acc with
  | intro x _ ih =>
    intro circle
    obtain ⟨y, owns, path⟩ := TransGen.head'_iff.mp circle
    exact ih y owns (TransGen.tail' path owns)

def Clear (h : Heap H) (away : List Handle) (v : Value) : Prop :=
  ∀ ref, v.ref? = some ref → ∀ y ∈ away, ¬ ReflTransGen h.Owns ref.handle y

theorem Copyable.clear_part (copyable : h.Copyable v) (clear : h.Clear away v)
    (refers : v.ref? = some ref) (live : h.object? ref.handle = some o) (mem : w ∈ o.held)
    (owns : w.owns = true) : h.Copyable w ∧ h.Clear (ref.handle :: away) w := by
  have acc := copyable.acc refers
  obtain ⟨refers', -, live', -, owned⟩ := copyable
  rw [refers] at refers'
  cases refers'
  rw [live] at live'
  cases live'
  refine ⟨owned w mem owns, fun inner refers' y place path => ?_⟩
  have one : w.owned? = some inner := (owned?_eq_ref? owns).trans refers'
  have counted := owners_le_tally (x := inner.handle) mem
  rw [Value.owners_eq_one one] at counted
  have step : h.Owns ref.handle inner.handle := ⟨o, live, counted⟩
  rcases List.mem_cons.mp place with rfl | place
  · exact not_transGen_of_acc acc (.head' step path)
  · exact clear ref refers y place (.head step path)

/-! ## What a value leads to -/

def Names (h : Heap H) (ref : HeapRef) : Prop :=
  (ref.kind = .struct ∨ ref.kind = .callable) ∧ ∃ o, h.object? ref.handle = some o ∧ o.Copies

def Proper (h : Heap H) (x : Handle) : Prop :=
  ¬ TransGen h.Owns x x ∧
    ∀ o, h.object? x = some o → ∀ w ∈ o.held, ∀ inner, w.owned? = some inner → h.Names inner

/-- The value refers to a structure or callable that is there, and so does every owner that it leads
to; nothing on the way owns itself through others. -/
def LeadsToTree (h : Heap H) (v : Value) : Prop :=
  ∃ ref, v.ref? = some ref ∧ h.Names ref ∧ ∀ x, ReflTransGen h.Owns ref.handle x → h.Proper x

theorem Copyable.names (copyable : h.Copyable v) (refers : v.ref? = some ref) : h.Names ref := by
  obtain ⟨refers', named, live, copies, -⟩ := copyable
  rw [refers] at refers'
  cases refers'
  exact ⟨named, _, live, copies⟩

theorem Copyable.leadsToTree (copyable : h.Copyable v) : h.LeadsToTree v := by
  have root := copyable
  obtain ⟨refers, -, -, -, -⟩ := root
  rename_i ref o
  refine ⟨ref, refers, copyable.names refers, fun x path => ⟨?_, ?_⟩⟩
  · have acc := copyable.acc refers
    refine not_transGen_of_acc ?_
    induction path with
    | refl => exact acc
    | tail _ owns ih => exact ih.inv owns
  · induction copyable generalizing ref with
    | @tree v ref' p refers' _ live _ owned ih =>
      rw [refers'] at refers
      cases refers
      intro o found w mem inner owner
      rcases ReflTransGen.cases_head path with rfl | ⟨y, ⟨p', live', pos⟩, path⟩
      · rw [live] at found
        cases found
        have owns := owns_iff.mpr ⟨inner, owner⟩
        exact (owned w mem owns).names ((owned?_eq_ref? owns).symm.trans owner)
      · rw [live] at live'
        cases live'
        obtain ⟨u, mem', one⟩ := exists_mem_of_tally_pos pos
        obtain ⟨next, owner', rfl⟩ := Value.owned?_of_pos one
        have owns := owns_iff.mpr ⟨next, owner'⟩
        have refers := (owned?_eq_ref? owns).symm.trans owner'
        exact ih u mem' owns refers path o found w mem inner owner

theorem copyable_below {root : Handle} (proper : ∀ x, ReflTransGen h.Owns root x → h.Proper x)
    (depth : Nat) : ∀ {above : List Handle} {v : Value} {ref : HeapRef},
      above.Nodup → (∀ x ∈ above, (h.object? x).isSome) →
      (∀ x ∈ above, TransGen h.Owns x ref.handle) → h.occupied < above.length + depth →
      v.ref? = some ref → h.Names ref → ReflTransGen h.Owns root ref.handle → h.Copyable v := by
  induction depth with
  | zero =>
    intro above v ref nodup live _ deep
    exact absurd (length_le_occupied nodup live) (by omega)
  | succ depth ih =>
    intro above v ref nodup live owned deep refers names path
    obtain ⟨acyclic, children⟩ := proper _ path
    obtain ⟨named, o, found, copies⟩ := names
    refine .tree refers named found copies fun w mem owns => ?_
    obtain ⟨inner, owner⟩ := owns_iff.mp owns
    have step : h.Owns ref.handle inner.handle := by
      refine ⟨o, found, ?_⟩
      have counted := owners_le_tally (x := inner.handle) mem
      rwa [Value.owners_eq_one owner] at counted
    have distinct : (ref.handle :: above).Nodup :=
      List.nodup_cons.mpr ⟨fun inside => acyclic (owned _ inside), nodup⟩
    refine ih distinct ?_ ?_ ?_ ((owned?_eq_ref? owns).symm.trans owner)
      (children o found w mem inner owner) (path.tail step)
    · exact List.forall_mem_cons.mpr ⟨by simp [found], live⟩
    · exact List.forall_mem_cons.mpr ⟨.single step, fun x inside => (owned x inside).tail step⟩
    · rw [List.length_cons]
      omega

theorem copyable_iff : h.Copyable v ↔ h.LeadsToTree v := by
  refine ⟨Copyable.leadsToTree, ?_⟩
  rintro ⟨ref, refers, names, proper⟩
  exact copyable_below proper (h.occupied + 1) List.nodup_nil
    (fun _ mem => (List.not_mem_nil mem).elim) (fun _ mem => (List.not_mem_nil mem).elim)
    (by simp) refers names .refl

end Heap

end ScriptMachine
