import ScriptMachine.Proofs.Heap.CopyTrees
import ScriptMachine.Proofs.Heap.Edits

/-!
# Deep copies

While an object is copied it is away from its slot. So a circle of owners comes to a handle that
names nothing at that time, and the copy fails there; and the recursion is never deeper than there
are objects. A copy that fails disposes the copies made so far, and every object that was away is
back in its slot: the heap has the objects that it had.

`Stage` describes the heap while a copy is under way. A copy that succeeds adds the objects of the
copy to it, one that fails adds nothing.
-/

set_option autoImplicit false

namespace ScriptMachine.Heap

open Relation (ReflTransGen TransGen)

variable {H : Type} {g h j k : Heap H} {away : List Handle} {lent : List Nat} {x y : Handle}
  {o : Object H} {v w : Value} {us vs ws : List Value} {xs ys : List Handle} {ref : HeapRef}

/-! ## The heap while objects are away -/

/-- Every owner that an object holds was handed out. -/
def Known (h : Heap H) : Prop := h.All fun _ o => ∀ v ∈ o.held, ∀ ref, v.owned? = some ref →
  h.Issued ref.handle

theorem Owned.known (owned : h.Owned [] us) : h.Known := by
  intro i slot o hslot object v mem ref owner
  have found : h.object? ⟨i, slot.generation⟩ = some o :=
    object?_eq_some_iff.mpr ⟨slot, hslot, rfl, object⟩
  have counted := owners_le_tally (x := ref.handle) mem
  rw [Value.owners_eq_one owner] at counted
  obtain ⟨_, live⟩ := Option.isSome_iff_exists.mp (owned.live_inside found counted)
  exact owned.accounted.issued_of_live live

/-- A copy is under way: the handles of `h` name what they named, but for the objects that are
away. -/
structure Stage (h : Heap H) (away : List Handle) (g : Heap H) : Prop where
  orderly : g.Orderly (away.map Handle.index)
  issued : ∀ x, h.Issued x → g.Issued x
  shown : ∀ x, h.Issued x → g.object? x = if x ∈ away then none else h.object? x
  lent : ∀ x ∈ away, (h.object? x).isSome
  nodup : away.Nodup

theorem Stage.start (orderly : h.Orderly []) : Stage h [] h :=
  ⟨orderly, fun _ issued => issued, fun _ _ => rfl, fun _ mem => (List.not_mem_nil mem).elim,
    List.nodup_nil⟩

theorem Stage.grown (stage : Stage h away g) (grown : Grown xs g k)
    (orderly : k.Orderly (away.map Handle.index)) : Stage h away k :=
  ⟨orderly, fun x issued => grown.evolves.issued x (stage.issued x issued),
    fun x issued => (grown.object?_of_issued (stage.issued x issued)).trans (stage.shown x issued),
    stage.lent, stage.nodup⟩

theorem Stage.found (stage : Stage h away g) (issued : h.Issued x) (found : g.object? x = some o) :
    x ∉ away ∧ h.object? x = some o := by
  have shown := stage.shown x issued
  rw [found] at shown
  split at shown
  · cases shown
  · exact ⟨‹_›, shown.symm⟩

theorem Stage.lend (stage : Stage h away g) (issued : h.Issued x) (found : g.object? x = some o) :
    Stage h (x :: away) (g.vacated x) := by
  obtain ⟨inside, live⟩ := stage.found issued found
  refine ⟨stage.orderly.lend found, fun y issued => (issued_vacated found y).mpr
    (stage.issued y issued), fun y issued => ?_, ?_, List.nodup_cons.mpr ⟨inside, stage.nodup⟩⟩
  · rw [object?_vacated found, stage.shown y issued]
    by_cases same : y = x <;> simp [same]
  · exact List.forall_mem_cons.mpr ⟨by simp [live], stage.lent⟩

theorem Stage.length_le (stage : Stage h away g) : away.length ≤ h.occupied :=
  length_le_occupied stage.nodup stage.lent

theorem Grown.restore (grown : Grown xs (g.vacated x) k) (orderly : g.Orderly lent)
    (found : g.object? x = some o) (inner : k.Orderly (x.index :: lent)) :
    Grown xs g (k.setObject x o) ∧ (k.setObject x o).Orderly lent ∧
      ∀ y ∈ xs, (k.setObject x o).object? y = k.object? y := by
  obtain ⟨slot, hslot, generation, ho⟩ := object?_eq_some_iff.mp found
  have out := replaced_modify (k := g.vacated x) (fun slot => { slot with object := none })
    hslot rfl
  have notFree := orderly.accounted.not_free hslot ho
  obtain ⟨kept, -⟩ := grown.evolves.withheld x.index _ out.after rfl notFree
  have back := replaced_modify (k := k.setObject x o) (fun slot => { slot with object := some o })
    kept rfl
  obtain ⟨orderly', evolves⟩ := orderly.restore found inner grown.evolves
  have objects : ∀ y, (k.setObject x o).object? y = if y = x then some o else k.object? y := by
    intro y
    by_cases same : y = x
    · rw [if_pos same, same, back.object?_at rfl]
      exact if_pos generation
    · rw [if_neg same]
      by_cases index : y.index = x.index
      · have other : slot.generation ≠ y.generation := by
          intro equal
          apply same
          cases x; cases y
          simp_all
        rw [back.object?_at index, object?_eq_none_of_vacant (index ▸ kept) rfl]
        exact if_neg other
      · exact back.object?_away index
  have new : ∀ y ∈ xs, y ≠ x := fun y mem same => grown.fresh y mem
    ((issued_vacated found y).mpr (same ▸ orderly.issued found))
  have same : ∀ y ∈ xs, (k.setObject x o).object? y = k.object? y := fun y mem => by
    rw [objects, if_neg (new y mem)]
  refine ⟨⟨evolves, grown.nodup, fun y mem issued => grown.fresh y mem
    ((issued_vacated found y).mpr issued), fun y mem => ?_, fun y other => ?_⟩, orderly', same⟩
  · rw [same y mem]
    exact grown.there y mem
  · rw [objects]
    by_cases eq : y = x
    · rw [if_pos eq, eq, found]
    · rw [if_neg eq, grown.same y other, object?_vacated found, if_neg eq]

/-! ## One object -/

theorem Grown.ofPools {pools : Pools} (orderly : h.Orderly lent)
    (grown : Grown xs { h with pools } k) : Grown xs h k :=
  ⟨(orderly.plain.withPools pools).evolves.trans grown.evolves, grown.nodup, grown.fresh,
    grown.there, grown.same⟩

theorem allocLike_grows (orderly : g.Orderly lent) (valid : o.Valid)
    (length : us.length = (parts o).length) :
    (allocLike o us).Ensures g
      (fun w k => o.Copies ∧ ∃ x o', w = .owned ⟨o.kind, x⟩ ∧ k.object? x = some o' ∧
        o.Rebuilt us o' ∧ Grown [x] g k ∧ k.Orderly lent)
      fun _ k => k = g ∧ ¬ o.Copies := by
  have clean := orderly.clean
  unfold allocLike
  simp only [Effect.ensures_bind, Effect.ensures_get]
  split
  · rename_i s
    have counted : us.length = s.size := by
      rw [length, parts, Structure.values, Storage.values_eq, List.length_map]
      exact s.storage.size_eq.symm
    obtain ⟨valid', -, -, clean'⟩ := Structure.rebuild_spec valid clean.structures counted
    obtain ⟨alike, holds⟩ := Structure.rebuild_resembles valid clean.structures counted
    have ready := orderly.withPools { g.pools with structures :=
      (s.rebuild g.pools.structures us).2 } ⟨clean', clean.values⟩
    obtain ⟨x, answer, found, grown⟩ :=
      Grown.alloc ready (.struct (s.rebuild g.pools.structures us).1)
    exact ⟨.inl rfl, x, _, answer, found, .struct alike holds, grown.ofPools orderly,
      ready.alloc valid'⟩
  · rename_i unit captures
    obtain ⟨room, -, fresh, clean'⟩ := clean.values.checkout us.length
    have ready := orderly.withPools { g.pools with values :=
      (g.pools.values.checkout us.length).2 } ⟨clean.structures, clean'⟩
    obtain ⟨x, answer, found, grown⟩ := Grown.alloc ready
      (.callable (.script unit ((g.pools.values.checkout us.length).1.append us)))
    refine ⟨.inr rfl, x, _, answer, found, .script ?_, grown.ofPools orderly, ready.alloc trivial⟩
    rw [fresh]
    rfl
  · rename_i path function
    obtain ⟨x, answer, found, grown⟩ := Grown.alloc orderly (.callable (.host path function))
    have none : us = [] := List.length_eq_zero_iff.mp length
    exact ⟨.inr rfl, x, _, answer, found, none ▸ .host, grown, orderly.alloc trivial⟩
  · rename_i noStruct noScript noHost
    refine ⟨rfl, ?_⟩
    rintro (kind | kind) <;> cases o <;> simp [Object.kind] at kind
    · exact noStruct _ rfl
    · rename_i c
      cases c with
      | script unit captures => exact noScript unit captures rfl
      | host path function => exact noHost path function rfl

/-! ## One value -/

theorem copyWithin_refused (refers : v.ref? = some ref)
    (refused : ref.kind = .struct ∨ ref.kind = .callable → g.object? ref.handle = none) :
    ∃ e, ∀ fuel, copyWithin true (fuel + 1) v g = .error e g := by
  obtain ⟨kind, x⟩ := ref
  by_cases named : kind = .struct ∨ kind = .callable
  · have missing : g.borrow x = .error (g.stale x) := by simp only [borrow, refused named]
    refine ⟨g.stale x, fun fuel => ?_⟩
    rw [copyWithin.eq_def]
    rcases named with rfl | rfl <;> simp only [refers]
    all_goals
      show (liftM (g.borrow x) >>= _ : HeapM H Value) g = _
      rw [missing]
      rfl
  · refine ⟨noCopy kind, fun fuel => ?_⟩
    rw [copyWithin.eq_def]
    cases kind with
    | struct => exact absurd (.inl rfl) named
    | callable => exact absurd (.inr rfl) named
    | iterator | external =>
      simp only [refers]
      rfl

theorem copyWithin_object (refers : v.ref? = some ref)
    (named : ref.kind = .struct ∨ ref.kind = .callable) (found : g.object? ref.handle = some o)
    (fuel : Nat) : copyWithin true (fuel + 1) v g =
      (copyParts (copyWithin true fuel) (parts o) [] >>= allocLike o).andAlways
        (·.setObject ref.handle o) (g.vacated ref.handle) := by
  obtain ⟨kind, x⟩ := ref
  rw [copyWithin.eq_def]
  rcases named with rfl | rfl <;> simp only [refers]
  all_goals
    show (liftM (g.borrow x) >>= _ : HeapM H Value) g = _
    rw [borrow_eq_ok found]
    rfl

def Succeeds (h : Heap H) (away : List Handle) (v : Value) (g : Heap H) (w : Value) (k : Heap H) :
    Prop :=
  h.Copyable v ∧ ∃ xs, CopyOf h k v w xs ∧ Grown xs g k ∧ k.Orderly (away.map Handle.index)

def Fails (h : Heap H) (away : List Handle) (v : Value) (g k : Heap H) : Prop :=
  ¬ (h.Copyable v ∧ h.Clear away v) ∧ Grown [] g k ∧ k.Orderly (away.map Handle.index)

theorem copyParts_grows {fuel : Nat} (base : Stage h away g)
    (copies : ∀ w ∈ vs, w.owns = true → ∀ j, Stage h away j →
      (copyWithin true fuel w).Ensures j (Succeeds h away w j) fun _ => Fails h away w j) :
    ∀ (done copied : List Value) (xs : List Handle) (j : Heap H),
      Mirrors h j done copied.reverse xs → Grown xs g j → j.Orderly (away.map Handle.index) →
      (copyParts (copyWithin true fuel) vs copied).Ensures j
        (fun ws k => (∀ w ∈ vs, w.owns = true → h.Copyable w) ∧ ∃ ys,
          Mirrors h k (done ++ vs) ws ys ∧ Grown ys g k ∧ k.Orderly (away.map Handle.index))
        fun _ k => (∃ w ∈ vs, w.owns = true ∧ ¬ (h.Copyable w ∧ h.Clear away w)) ∧ Grown [] g k ∧
          k.Orderly (away.map Handle.index) := by
  induction vs with
  | nil =>
    intro done copied xs j mirrors grown orderly
    refine ⟨fun _ mem => (List.not_mem_nil mem).elim, xs, ?_, grown, orderly⟩
    rwa [List.append_nil]
  | cons v vs ih =>
    intro done copied xs j mirrors grown orderly
    obtain ⟨first, rest⟩ := List.forall_mem_cons.mp copies
    rw [copyParts]
    split
    · rename_i owns
      simp only [Effect.ensures_bind, Effect.ensures_onFailure]
      refine (first owns j (base.grown grown orderly)).mono ?_ ?_
      · rintro w k ⟨copyable, ys, copy, grown', orderly'⟩
        have kept : ∀ x ∈ xs, k.object? x = j.object? x := fun x mem => by
          obtain ⟨o, found⟩ := Option.isSome_iff_exists.mp (grown.there x mem)
          exact grown'.object?_of_issued (orderly.issued found)
        have mirrors' : Mirrors h k (done ++ [v]) (w :: copied).reverse (xs ++ ys) := by
          rw [List.reverse_cons]
          exact (mirrors.frame kept).append (copy.single owns)
        have further := ih rest (done ++ [v]) (w :: copied) (xs ++ ys) k mirrors'
          (grown.trans orderly grown') orderly'
        refine further.mono ?_ ?_
        · rintro ws k' ⟨all, zs, mirrors'', result⟩
          rw [List.append_assoc] at mirrors''
          exact ⟨List.forall_mem_cons.mpr ⟨fun _ => copyable, all⟩, zs, mirrors'', result⟩
        · rintro - k' ⟨⟨w, mem, failed⟩, result⟩
          exact ⟨⟨w, List.mem_cons_of_mem _ mem, failed⟩, result⟩
      · rintro - k ⟨failed, grown', orderly'⟩
        have made : Grown xs g k := List.append_nil xs ▸ grown.trans orderly grown'
        have mirrors' := mirrors.frame fun x _ => grown'.same x (List.not_mem_nil)
        exact ⟨⟨v, List.mem_cons_self .., owns, failed⟩,
          made.disposeAll orderly' (fun x _ => mirrors'.below_iff x) base.orderly,
          (orderly'.disposeAll _).1⟩
    · rename_i plain
      have mirrors' : Mirrors h j (done ++ [v]) (v.share :: copied).reverse (xs ++ []) := by
        rw [List.reverse_cons]
        exact mirrors.append (.shared (by simpa using plain) .nil)
      rw [List.append_nil] at mirrors'
      refine (ih rest (done ++ [v]) (v.share :: copied) xs j mirrors' grown orderly).mono ?_ ?_
      · rintro ws k ⟨all, zs, mirrors'', result⟩
        rw [List.append_assoc] at mirrors''
        exact ⟨List.forall_mem_cons.mpr ⟨fun owns => absurd owns plain, all⟩, zs, mirrors'', result⟩
      · rintro - k ⟨⟨w, mem, failed⟩, result⟩
        exact ⟨⟨w, List.mem_cons_of_mem _ mem, failed⟩, result⟩

theorem parts_eq_nil (other : ¬ o.Copies) : parts o = [] := by
  cases o with
  | struct s => exact absurd (.inl rfl) other
  | callable c => exact absurd (.inr rfl) other
  | _ => rfl

/-- What is no structure or callable has no copy. What cannot be reached while a copy is under way
is gone, or is away itself. -/
theorem Stage.fails (stage : Stage h away g) (refers : v.ref? = some ref)
    (issued : h.Issued ref.handle)
    (refused : ref.kind = .struct ∨ ref.kind = .callable → g.object? ref.handle = none) :
    Fails h away v g g := by
  refine ⟨fun ⟨copyable, clear⟩ => ?_, .refl g, stage.orderly⟩
  obtain ⟨refers', named, live, -⟩ := copyable
  rw [refers] at refers'
  cases refers'
  have shown := stage.shown _ issued
  rw [refused named] at shown
  split at shown
  · rename_i place
    exact clear ref refers _ place .refl
  · rw [live] at shown
    cases shown

theorem copyObject_grows {fuel : Nat} (stage : Stage h away g) (refers : v.ref? = some ref)
    (named : ref.kind = .struct ∨ ref.kind = .callable) (issued : h.Issued ref.handle)
    (found : g.object? ref.handle = some o)
    (copies : ∀ w ∈ parts o, w.owns = true → ∀ j, Stage h (ref.handle :: away) j →
      (copyWithin true fuel w).Ensures j (Succeeds h (ref.handle :: away) w j)
        fun _ => Fails h (ref.handle :: away) w j) :
    (copyParts (copyWithin true fuel) (parts o) [] >>= allocLike o).Ensures (g.vacated ref.handle)
      (fun w k => Succeeds h away v g w (k.setObject ref.handle o))
      fun _ k => Fails h away v g (k.setObject ref.handle o) := by
  have live := (stage.found issued found).2
  have base := stage.lend issued found
  rw [Effect.ensures_bind]
  refine (copyParts_grows base copies [] [] [] _ .nil (.refl _) base.orderly).mono ?_ ?_
  · rintro ws k ⟨all, ys, mirrors, grown, orderly⟩
    have valid : o.Valid := stage.orderly.valid.object? found
    refine (allocLike_grows orderly valid mirrors.length).mono ?_ ?_
    · rintro _ k' ⟨copies, x, o', rfl, copy, rebuilt, grown', orderly'⟩
      rw [List.nil_append, parts_eq_held copies] at mirrors
      rw [parts_eq_held copies] at all
      have old : ∀ y ∈ ys, k'.object? y = k.object? y := fun y mem => by
        obtain ⟨p, there⟩ := Option.isSome_iff_exists.mp (grown.there y mem)
        exact grown'.object?_of_issued (orderly.issued there)
      have both := (grown.trans orderly grown').perm (List.perm_append_singleton x ys)
      obtain ⟨made, final, same⟩ := both.restore stage.orderly found orderly'
      have result : CopyOf h k' v (.owned ⟨o.kind, x⟩) (x :: ys) :=
        .tree refers live copy rebuilt (mirrors.frame old)
      exact ⟨.tree refers named live copies all, x :: ys, result.frame same, made, final⟩
    · rintro - k' ⟨rfl, other⟩
      rw [List.nil_append, parts_eq_nil other] at mirrors
      cases mirrors
      obtain ⟨made, final, -⟩ := grown.restore stage.orderly found orderly
      refine ⟨fun ⟨copyable, _⟩ => other ?_, made, final⟩
      obtain ⟨refers', -, live', copies, -⟩ := copyable
      rw [refers] at refers'
      cases refers'
      rw [live] at live'
      cases live'
      exact copies
  · rintro - k ⟨⟨w, mem, owns, failed⟩, grown, orderly⟩
    obtain ⟨made, final, -⟩ := grown.restore stage.orderly found orderly
    exact ⟨fun ⟨copyable, clear⟩ => failed
      (copyable.clear_part clear refers live (owned?_of_mem_parts mem) owns), made, final⟩

theorem Stage.part (stage : Stage h away g) (known : h.Known) (issued : h.Issued x)
    (found : g.object? x = some o) (mem : w ∈ parts o) (owns : w.owns = true) :
    ∃ ref, w.ref? = some ref ∧ h.Issued ref.handle := by
  obtain ⟨inner, owned⟩ := owns_iff.mp owns
  exact ⟨inner, (owned?_eq_ref? owns).symm.trans owned,
    known.object? (stage.found issued found).2 w (owned?_of_mem_parts mem) inner owned⟩

/-- Copying what a value refers to. Each object that is away takes one level of the recursion, and
no more objects are away than there are. -/
theorem copyWithin_grows (known : h.Known) (fuel : Nat) :
    ∀ {away : List Handle} {g : Heap H} {v : Value} {ref : HeapRef}, Stage h away g →
      h.occupied < away.length + fuel → v.ref? = some ref → h.Issued ref.handle →
      (copyWithin true fuel v).Ensures g (Succeeds h away v g) fun _ => Fails h away v g := by
  induction fuel with
  | zero =>
    intro away g v ref stage enough
    exact absurd stage.length_le (by omega)
  | succ fuel ih =>
    intro away g v ref stage enough refers issued
    by_cases refused : ref.kind = .struct ∨ ref.kind = .callable → g.object? ref.handle = none
    · obtain ⟨e, run⟩ := copyWithin_refused refers refused
      exact (Effect.ensures_of_eq_error (run fuel)).mpr (stage.fails refers issued refused)
    · obtain ⟨named, live⟩ := Classical.not_imp.mp refused
      obtain ⟨o, found⟩ := Option.ne_none_iff_exists'.mp live
      rw [Effect.Ensures, copyWithin_object refers named found]
      refine (Effect.ensures_andAlways ..).mpr (copyObject_grows stage refers named issued found ?_)
      intro w mem owns j deeper
      obtain ⟨inner, refers', given⟩ := stage.part known issued found mem owns
      refine ih deeper ?_ refers' given
      rw [List.length_cons]
      omega

theorem copyWithin_copyable (orderly : h.Orderly []) (copyable : h.Copyable v) :
    ∀ {away : List Handle} {g : Heap H} {ref : HeapRef} {fuel : Nat}, Stage h away g →
      h.occupied < away.length + fuel → v.ref? = some ref →
      (copyWithin true fuel v).Ensures g (Succeeds h away v g) fun _ => Fails h away v g := by
  induction copyable with
  | @tree v named o refers kind live copies owned ih =>
    intro away g ref fuel stage enough refers'
    cases refers.symm.trans refers'
    have issued := orderly.issued live
    cases fuel with
    | zero => exact absurd stage.length_le (by omega)
    | succ fuel =>
      cases found : g.object? named.handle with
      | none =>
        obtain ⟨e, run⟩ := copyWithin_refused refers fun _ => found
        exact (Effect.ensures_of_eq_error (run fuel)).mpr (stage.fails refers issued fun _ => found)
      | some p =>
        cases live.symm.trans (stage.found issued found).2
        rw [Effect.Ensures, copyWithin_object refers kind found]
        refine (Effect.ensures_andAlways ..).mpr (copyObject_grows stage refers kind issued found ?_)
        intro w mem owns j deeper
        obtain ⟨inner, owner⟩ := owns_iff.mp owns
        refine ih w (owned?_of_mem_parts mem) owns deeper ?_ ((owned?_eq_ref? owns).symm.trans owner)
        rw [List.length_cons]
        omega

/-! ## The bound on the recursion -/

theorem copyParts_congr {f f' : Value → HeapM H Value} {I : Heap H → Prop}
    (same : ∀ w ∈ vs, w.owns = true → ∀ j, I j → f w j = f' w j)
    (keeps : ∀ w ∈ vs, w.owns = true → ∀ j, I j → (f' w).Ensures j (fun _ => I) fun _ _ => True) :
    ∀ (copied : List Value) (j : Heap H), I j →
      copyParts f vs copied j = copyParts f' vs copied j := by
  induction vs with
  | nil => exact fun _ _ _ => rfl
  | cons v vs ih =>
    intro copied j inv
    obtain ⟨first, rest⟩ := List.forall_mem_cons.mp same
    obtain ⟨keepsFirst, keepsRest⟩ := List.forall_mem_cons.mp keeps
    rw [copyParts, copyParts]
    split
    · rename_i owns
      simp only [bind, EStateM.bind, Effect.onFailure, first owns j inv]
      cases run : f' v j with
      | ok w k =>
        exact ih rest keepsRest _ k ((Effect.ensures_of_eq_ok run).mp (keepsFirst owns j inv))
      | error e k => rfl
    · exact ih rest keepsRest _ j inv

/-- More levels than there are objects change nothing: the recursion ends on its own. -/
theorem copyWithin_more (known : h.Known) (fuel : Nat) :
    ∀ {away : List Handle} {g : Heap H} {v : Value} {ref : HeapRef}, Stage h away g →
      h.occupied < away.length + fuel → v.ref? = some ref → h.Issued ref.handle →
      copyWithin true (fuel + 1) v g = copyWithin true fuel v g := by
  induction fuel with
  | zero =>
    intro away g v ref stage enough
    exact absurd stage.length_le (by omega)
  | succ fuel ih =>
    intro away g v ref stage enough refers issued
    by_cases refused : ref.kind = .struct ∨ ref.kind = .callable → g.object? ref.handle = none
    · obtain ⟨e, run⟩ := copyWithin_refused refers refused
      rw [run, run]
    · obtain ⟨named, live⟩ := Classical.not_imp.mp refused
      obtain ⟨o, found⟩ := Option.ne_none_iff_exists'.mp live
      have enough' : h.occupied < (ref.handle :: away).length + fuel := by
        rw [List.length_cons]
        omega
      have same : copyParts (copyWithin true (fuel + 1)) (parts o) [] (g.vacated ref.handle) =
          copyParts (copyWithin true fuel) (parts o) [] (g.vacated ref.handle) := by
        refine copyParts_congr (I := Stage h (ref.handle :: away)) (fun w mem owns j deeper => ?_)
          (fun w mem owns j deeper => ?_) [] _ (stage.lend issued found)
        · obtain ⟨inner, refers', given⟩ := stage.part known issued found mem owns
          exact ih deeper enough' refers' given
        · obtain ⟨inner, refers', given⟩ := stage.part known issued found mem owns
          exact (copyWithin_grows known fuel deeper enough' refers' given).mono
            (fun _ _ ⟨_, _, _, grown, orderly⟩ => deeper.grown grown orderly) fun _ _ _ => trivial
      rw [copyWithin_object refers named found, copyWithin_object refers named found]
      simp only [Effect.andAlways, bind, EStateM.bind, same]

theorem copyWithin_enough (known : h.Known) (orderly : h.Orderly []) (refers : v.ref? = some ref)
    (issued : h.Issued ref.handle) {fuel : Nat} (enough : h.slots.size < fuel) :
    copyWithin true fuel v h = deepCopy v h := by
  induction fuel with
  | zero => omega
  | succ fuel ih =>
    rcases Nat.eq_or_lt_of_le (Nat.le_of_lt_succ enough) with rfl | more
    · rfl
    · rw [← ih more]
      refine copyWithin_more known fuel (.start orderly) ?_ refers issued
      have := h.occupied_le
      simp only [List.length_nil]
      omega

/-! ## Deep copies -/

theorem Grown.vacant (grown : Grown xs g k) (orderly : g.Orderly lent) (mem : x ∈ xs)
    {slot : Slot H} (hslot : g.slots[x.index]? = some slot) : slot.object = none := by
  cases object : slot.object with
  | none => rfl
  | some o =>
    have old : g.object? ⟨x.index, slot.generation⟩ = some o :=
      object?_eq_some_iff.mpr ⟨slot, hslot, rfl, object⟩
    have kept := (grown.object?_of_issued (orderly.issued old)).trans old
    obtain ⟨p, new⟩ := Option.isSome_iff_exists.mp (grown.there x mem)
    obtain ⟨slot', hslot', same', -⟩ := object?_eq_some_iff.mp kept
    obtain ⟨slot'', hslot'', same'', -⟩ := object?_eq_some_iff.mp new
    rw [hslot'] at hslot''
    cases hslot''
    have both : (⟨x.index, slot.generation⟩ : Handle) = x :=
      congrArg (Handle.mk x.index) (same'.symm.trans same'')
    exact absurd (both ▸ orderly.issued old) (grown.fresh x mem)

/-- The heap `k` is `h` with a copy of what `v` refers to, made of the objects `xs`, that `w`
owns. -/
structure Copied (h : Heap H) (v w : Value) (k : Heap H) (xs : List Handle) : Prop where
  copy : CopyOf h k v w xs
  nodup : xs.Nodup
  owned : ∀ x, k.Reaches w x ↔ x ∈ xs
  vacant : ∀ x ∈ xs, ∀ slot, h.slots[x.index]? = some slot → slot.object = none
  live : k.live = h.live + xs.length
  same : ∀ x, x ∉ xs → k.object? x = h.object? x

theorem Grown.copied (grown : Grown xs h k) (before : h.Orderly []) (after : k.Orderly [])
    (copy : CopyOf h k v w xs) : Copied h v w k xs := by
  refine ⟨copy, grown.nodup, fun x => ?_, fun x mem slot found => grown.vacant before mem found,
    grown.live before after, grown.same⟩
  rw [reaches_iff, copy.below_iff]
  exact and_iff_right_of_imp (grown.there x)

theorem deepCopy_of_plain (plain : v.ref? = none) : deepCopy v h = .ok v.share h := by
  show copyWithin true (h.slots.size + 1) v h = _
  rw [copyWithin.eq_def]
  simp only [plain]
  rfl

theorem deepCopy_of_copyable (orderly : h.Orderly []) (copyable : h.Copyable v) :
    ∃ w k xs, deepCopy v h = .ok w k ∧ h.Copied v w k xs := by
  obtain ⟨refers, -⟩ := id copyable
  have room := h.occupied_le
  have copied : (deepCopy v).Ensures h (Succeeds h [] v h) fun _ => Fails h [] v h :=
    copyWithin_copyable orderly copyable (.start orderly)
      (by rw [List.length_nil]; omega) refers
  cases run : deepCopy v h with
  | ok w k =>
    obtain ⟨-, xs, copy, grown, after⟩ := (Effect.ensures_of_eq_ok run).mp copied
    exact ⟨w, k, xs, rfl, grown.copied orderly after copy⟩
  | error e k =>
    obtain ⟨failed, -⟩ := (Effect.ensures_of_eq_error run).mp copied
    exact absurd ⟨copyable, fun _ _ _ mem => (List.not_mem_nil mem).elim⟩ failed

theorem Copied.kept {xs : List Handle} (copied : Copied h v w k xs) {x : Handle} {o : Object H}
    (live : h.object? x = some o) : k.object? x = some o := by
  obtain ⟨slot, found, -, object⟩ := object?_eq_some_iff.mp live
  rw [copied.same x fun mem => ?_, live]
  rw [copied.vacant x mem slot found] at object
  cases object

/-- A deep copy needs no more levels than there are slots. A value that is no reference is shared.
What leads to a tree of structures and callables is copied, and nothing else is changed. In all
other cases the copy fails, and all objects are as before. -/
theorem deepCopy_copies_trees (orderly : h.Orderly []) (known : h.Known)
    (given : ∀ ref, v.ref? = some ref → h.Issued ref.handle) :
    (∀ fuel, h.slots.size < fuel → copyWithin true fuel v h = deepCopy v h) ∧
      (v.ref? = none → deepCopy v h = .ok v.share h) ∧
      (h.LeadsToTree v → ∃ w k xs, deepCopy v h = .ok w k ∧ h.Copied v w k xs) ∧
      (v.ref?.isSome → ¬ h.LeadsToTree v →
        ∃ e k, deepCopy v h = .error e k ∧ k.live = h.live ∧ ∀ x, k.object? x = h.object? x) := by
  have copying : ∀ {ref}, v.ref? = some ref → (deepCopy v).Ensures h (Succeeds h [] v h)
      fun _ => Fails h [] v h := fun {ref} refers => by
    refine copyWithin_grows known (h.slots.size + 1) (.start orderly) ?_ refers (given ref refers)
    have := h.occupied_le
    simp only [List.length_nil]
    omega
  have plain : v.ref? = none → ∀ fuel, copyWithin true (fuel + 1) v h = .ok v.share h :=
    fun none fuel => by
      rw [copyWithin.eq_def]
      simp only [none]
      rfl
  refine ⟨fun fuel enough => ?_, fun none => plain none _, fun tree => ?_, fun refers other => ?_⟩
  · cases refers : v.ref? with
    | none =>
      obtain ⟨fuel, rfl⟩ := Nat.exists_eq_add_of_lt enough
      exact (plain refers _).trans (plain refers _).symm
    | some ref => exact copyWithin_enough known orderly refers (given ref refers) enough
  · exact deepCopy_of_copyable orderly (copyable_iff.mpr tree)
  · obtain ⟨ref, refers⟩ := Option.isSome_iff_exists.mp refers
    have copied := copying refers
    cases run : deepCopy v h with
    | ok w k => exact absurd (copyable_iff.mp ((Effect.ensures_of_eq_ok run).mp copied).1) other
    | error e k =>
      obtain ⟨-, grown, after⟩ := (Effect.ensures_of_eq_error run).mp copied
      exact ⟨e, k, rfl, grown.live orderly after, fun x => grown.same x List.not_mem_nil⟩

def capturing : Value × Heap Unit :=
  let (s, h) := ({} : Heap Unit).allocStructure 0
  h.alloc (.callable (.script default { items := [s, .int 3], capacity := 2 }))

theorem copyable_capturing : capturing.2.Copyable capturing.1 := by
  refine .tree (show _ = some ⟨.callable, 1, 0⟩ from rfl) (.inr rfl) rfl (.inr rfl) ?_
  intro w mem owns
  rcases List.mem_cons.mp mem with rfl | mem
  · refine .tree (show _ = some ⟨.struct, 0, 0⟩ from rfl) (.inl rfl) rfl (.inl rfl) fun w mem => ?_
    exact (List.not_mem_nil mem).elim
  · rw [List.mem_singleton.mp mem] at owns
    cases owns

theorem owned_capturing : capturing.2.Owned [] [capturing.1] := by
  have made := owned_allocStructure 0 ({} : Heap Unit) [] owned_empty
  exact Owned.alloc (o := .callable _) (made.recount fun x => rfl) trivial

theorem deepCopy_capturing : capturing.2.LeadsToTree capturing.1 ∧
    ∃ w k xs, deepCopy capturing.1 capturing.2 = .ok w k ∧
      capturing.2.Copied capturing.1 w k xs := by
  have given : ∀ ref, capturing.1.ref? = some ref → capturing.2.Issued ref.handle := by
    rintro ref refers
    cases refers
    exact ⟨_, rfl, .inr ⟨rfl, List.not_mem_nil⟩⟩
  have tree := copyable_iff.mp copyable_capturing
  have copies := deepCopy_copies_trees owned_capturing.orderly owned_capturing.known given
  exact ⟨tree, copies.2.2.1 tree⟩

end ScriptMachine.Heap
