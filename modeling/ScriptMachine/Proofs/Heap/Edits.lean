import ScriptMachine.Proofs.Heap.Generations
import ScriptMachine.Proofs.Heap.Orderly
import ScriptMachine.Proofs.Structure.Layouts

/-!
# Edits

What a program does to a heap between two turns of a walk: it makes objects, edits and reads
structures, and lets values go. Such an operation leaves every object as it is, disposes it, or
changes the entries of a structure, whose layout stays or becomes a table.
-/

set_option autoImplicit false

namespace ScriptMachine

/-- Operations that make, edit and dispose objects, other than copies and the turns of iterators. -/
def HeapOp.edits {H : Type} : HeapOp H → Bool
  | .allocStructure _ | .allocQueue _ | .allocExternal _ => true
  | .setChild .. | .setChildKey .. | .deleteChild .. | .append .. | .popEnd .. | .endKey .. => true
  | .dispose _ | .release _ | .openIterator _ => true
  | .alloc _ | .deepCopy _ | .shallowCopy _ | .advanceIterator _ => false

inductive Object.Kept {H : Type} : Object H → Object H → Prop
  | same (o : Object H) : Kept o o
  | widened {s s' : Structure} (widens : s.Widens s') : Kept (.struct s) (.struct s')

theorem Object.Kept.trans {H : Type} {a b c : Object H} (first : a.Kept b) (second : b.Kept c) :
    a.Kept c := by
  cases first with
  | same => exact second
  | widened widens =>
    cases second with
    | same => exact .widened widens
    | widened widens' => exact .widened (widens.trans widens')

namespace Heap

variable {H α : Type} {base h k : Heap H} {x : Handle} {s s' : Structure}

structure Edits (base k : Heap H) : Prop where
  orderly : k.Orderly []
  issued : ∀ x, base.Issued x → k.Issued x
  kept : ∀ x o', base.Issued x → k.object? x = some o' → ∃ o, base.object? x = some o ∧ o.Kept o'

namespace Edits

theorem refl (orderly : h.Orderly []) : Edits h h :=
  ⟨orderly, fun _ issued => issued, fun _ o _ found => ⟨o, found, .same o⟩⟩

theorem trans (first : Edits base h) (second : Edits h k) : Edits base k := by
  refine ⟨second.orderly, fun x issued => second.issued x (first.issued x issued),
    fun x o' issued found => ?_⟩
  obtain ⟨o, found', kept⟩ := second.kept x o' (first.issued x issued) found
  obtain ⟨o₀, found₀, kept₀⟩ := first.kept x o issued found'
  exact ⟨o₀, found₀, kept₀.trans kept⟩

theorem disposeAll (edits : Edits base h) (vs : List Value) : Edits base (h.disposeAll vs) := by
  obtain ⟨orderly, evolves⟩ := edits.orderly.disposeAll vs
  exact edits.trans ⟨orderly, fun x issued => evolves.issued x issued,
    fun x o _ left => ⟨o, object?_of_disposeAll left, .same o⟩⟩

theorem grown {xs : List Handle} (edits : Edits base h) (grown : Grown xs h k)
    (orderly : k.Orderly []) : Edits base k := by
  refine edits.trans ⟨orderly, fun x issued => grown.evolves.issued x issued,
    fun x o issued found => ⟨o, ?_, .same o⟩⟩
  rw [← grown.object?_of_issued issued, found]

theorem alloc {o : Object H} (edits : Edits base h) (valid : o.Valid) :
    Edits base (h.alloc o).2 := by
  obtain ⟨x, -, -, grown⟩ := Grown.alloc edits.orderly o
  exact edits.grown grown (edits.orderly.alloc valid)

theorem withPools (edits : Edits base h) (pools : Pools) (clean : pools.Clean) :
    Edits base { h with pools } :=
  ⟨edits.orderly.withPools pools clean, edits.issued, edits.kept⟩

theorem allocStructure (edits : Edits base h) (capacity : Nat) :
    Edits base (h.allocStructure capacity).2 := by
  have clean := edits.orderly.clean
  obtain ⟨valid, -, -, clean'⟩ := Structure.new_spec clean.structures capacity
  have ready := edits.withPools { h.pools with structures :=
    (Structure.new h.pools.structures capacity).2 } ⟨clean', clean.values⟩
  exact ready.alloc (o := .struct _) valid

theorem allocQueue (edits : Edits base h) (limit : Nat) :
    Edits base (h.allocQueue limit).2 := by
  have clean := edits.orderly.clean
  obtain ⟨valid, -, -, clean'⟩ := Structure.queue_spec clean.structures limit
  have ready := edits.withPools { h.pools with structures :=
    (Structure.queue h.pools.structures limit).2 } ⟨clean', clean.values⟩
  exact ready.alloc (o := .struct _) valid

theorem setStructure (edits : Edits base h) (found : h.object? x = some (.struct s))
    (valid : s'.storage.Valid) (widens : s.Widens s') :
    Edits base (h.setObject x (.struct s')) := by
  refine edits.trans ⟨edits.orderly.setObject found valid,
    fun y issued => (issued_setObject found y).mpr issued, fun y o issued found' => ?_⟩
  rw [object?_setObject found] at found'
  split at found'
  · rename_i same
    cases found'
    exact ⟨.struct s, same ▸ found, .widened widens⟩
  · exact ⟨o, found', .same o⟩

end Edits

/-! ## Operations -/

theorem discardAll_edits (vs : List Value) : (discardAll (H := H) vs).Keeps (Edits base) :=
  fun _ edits => edits.disposeAll vs

theorem discard_edits (v : Value) : (discard (H := H) v).Keeps (Edits base) :=
  fun _ edits => edits.disposeAll [v]

theorem changeStructure_edits (v : Value) (uses : Structure → List Use)
    {f : Structure → StructurePools → α × Structure × StructurePools}
    (good : ∀ s pools, s.storage.Valid → pools.Clean →
      (f s pools).2.1.storage.Valid ∧ s.Widens (f s pools).2.1 ∧ (f s pools).2.2.Clean) :
    (changeStructure v uses f).Keeps (Edits (H := H) base) := by
  intro h edits
  refine ensures_changeStructure (fun _ _ => edits) fun x s _ _ found => ?_
  have clean := edits.orderly.clean
  obtain ⟨valid', widens, clean'⟩ :=
    good s h.pools.structures (edits.orderly.valid.object? found) clean.structures
  exact (edits.setStructure found valid' widens).withPools _ ⟨clean', clean.values⟩

theorem readStructure_edits (v : Value) (uses : Structure → List Use)
    {f : Structure → α × Structure}
    (good : ∀ s, s.storage.Valid → (f s).2.storage.Valid ∧ (f s).2.layout = s.layout) :
    (readStructure v uses f).Keeps (Edits (H := H) base) :=
  changeStructure_edits v uses fun s _ valid clean => ⟨(good s valid).1, .inl (good s valid).2, clean⟩

theorem setChildKey_edits (target : Value) (key : Key) (value : Value) :
    (setChildKey target key value).Keeps (Edits (H := H) base) := by
  unfold setChildKey
  intro h edits
  by_cases owns : (value.owns && value.ref? == target.ref?) = true
  · simp only [owns, if_true, Effect.ensures_bind, Effect.ensures_throw]
    exact discard_edits value h edits
  · simp only [owns, Bool.false_eq_true, if_false, Effect.ensures_bind, Effect.ensures_get]
    split
    · simp only [Effect.ensures_bind, Effect.ensures_throw]
      exact discard_edits value h edits
    · simp only [Effect.ensures_bind]
      refine (changeStructure_edits target _ (fun s pools valid clean => ?_) h edits).mono
        (fun displaced k edits => discardAll_edits _ k edits) (fun _ _ edits => edits)
      obtain ⟨old, -, stored, clean'⟩ := Structure.set_spec valid clean key value
      exact ⟨stored.valid, Structure.widens_set s pools key value, clean'⟩

theorem setChild_edits (target key value : Value) :
    (setChild target key value).Keeps (Edits (H := H) base) := by
  unfold setChild
  split
  · exact (discard_edits value).bind fun _ => .throw _ _
  · exact setChildKey_edits target _ value

theorem deleteChild_edits (target key : Value) :
    (deleteChild target key).Keeps (Edits (H := H) base) := by
  refine readStructure_edits target _ fun s valid => ?_
  cases Key.ofValue key with
  | ok k => exact ⟨(Structure.delete_spec valid k).1, Structure.layout_delete s k⟩
  | error _ => exact ⟨valid, rfl⟩

theorem append_edits (target value : Value) (front : Bool) :
    (append target value front).Keeps (Edits (H := H) base) := by
  unfold append
  refine .get_bind fun h edits => ?_
  split
  · exact (discard_edits value).bind (fun _ => .throw _ _) h edits
  · refine Effect.Keeps.bind (readStructure_edits target _ fun s valid => ?_)
      (fun key => setChildKey_edits target key value) h edits
    cases front with
    | true =>
      obtain ⟨-, -, -, read⟩ := Structure.prependKey_spec valid
      exact ⟨read.valid, Structure.layout_prependKey s⟩
    | false =>
      obtain ⟨-, -, -, read⟩ := Structure.appendKey_spec valid
      exact ⟨read.valid, Structure.layout_appendKey s⟩

theorem popEnd_edits (target : Value) (front : Bool) :
    (popEnd target front).Keeps (Edits (H := H) base) := by
  refine readStructure_edits target _ fun s valid => ?_
  cases front with
  | true => exact ⟨(Structure.popFront_spec valid).valid, Structure.layout_popFront s⟩
  | false => exact ⟨(Structure.popBack_spec valid).valid, Structure.layout_popBack s⟩

theorem endKey_edits (target : Value) (first : Bool) :
    (endKey target first).Keeps (Edits (H := H) base) := by
  refine readStructure_edits target _ fun s valid => ?_
  cases first with
  | true => exact ⟨(Structure.firstKey?_spec valid).2.valid, Structure.layout_firstKey? s⟩
  | false => exact ⟨(Structure.lastKey?_spec valid).2.valid, Structure.layout_lastKey? s⟩

theorem release_edits (v : Value) : (release v).Keeps (Edits (H := H) base) := by
  intro h edits
  unfold release
  cases v.ref? with
  | none => exact edits
  | some ref =>
    by_cases owner : v.owns
    · simp only [owner, if_true, Effect.ensures_bind, Effect.ensures_get]
      split
      · exact edits
      · exact discard_edits v h edits
    · simp only [owner, Bool.false_eq_true, if_false, Effect.ensures_throw]
      exact edits

theorem openIterator_edits (v : Value) : (openIterator v).Keeps (Edits (H := H) base) := by
  unfold openIterator
  split
  · exact .pure _ _
  · refine .get_bind fun h edits => ?_
    split
    · exact (discard_edits v).bind (fun _ => .throw _ _) h edits
    · exact edits.alloc trivial
  · exact (discard_edits v).bind fun _ => .throw _ _

theorem perform_edits {op : HeapOp H} (edit : op.edits = true) :
    op.perform.Keeps (Edits base) := by
  intro h edits
  cases op with
  | allocStructure capacity => exact edits.allocStructure capacity
  | allocQueue limit => exact edits.allocQueue limit
  | allocExternal e => exact edits.alloc trivial
  | setChild target key value =>
    exact (Effect.ensures_map ..).mpr (setChild_edits target key value h edits)
  | setChildKey target key value =>
    exact (Effect.ensures_map ..).mpr (setChildKey_edits target key value h edits)
  | deleteChild target key =>
    exact (Effect.ensures_map ..).mpr (deleteChild_edits target key h edits)
  | append target value front =>
    exact (Effect.ensures_map ..).mpr (append_edits target value front h edits)
  | popEnd target front => exact (Effect.ensures_map ..).mpr (popEnd_edits target front h edits)
  | endKey target first => exact (Effect.ensures_map ..).mpr (endKey_edits target first h edits)
  | dispose v => exact (Effect.ensures_map ..).mpr (discard_edits v h edits)
  | release v => exact (Effect.ensures_map ..).mpr (release_edits v h edits)
  | openIterator v => exact (Effect.ensures_map ..).mpr (openIterator_edits v h edits)
  | alloc _ | deepCopy _ | shallowCopy _ | advanceIterator _ => cases edit

end Heap

end ScriptMachine
