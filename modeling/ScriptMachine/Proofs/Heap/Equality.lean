import Mathlib.Data.List.Zip
import ScriptMachine.Proofs.Heap.Appending
import ScriptMachine.Proofs.Value.Comparison

/-!
# Equality by structure

Values are compared entry by entry, down to `equalDepth` levels of structures and never further, so
that circles of pointers do no harm. A comparison that says yes has seen all there is: what it did
not look into is one object on both sides. It has an answer unless it meets a reference to an object
that is gone, and it does not matter which value comes first.

`Tree` are the values that a deep copy is equal to, as long as they are not too deep.
-/

set_option autoImplicit false

namespace ScriptMachine

/-! ## Comparing in order -/

section Sequences
variable {α β ε : Type} {p : α → Except ε Bool} {xs : List α}

theorem allM_cons_of_ok {x : α} {b : Bool} (first : p x = .ok b) :
    (x :: xs).allM p = if b then xs.allM p else .ok false := by
  rw [List.allM, first]
  cases b <;> rfl

theorem allM_cons_of_error {x : α} {e : ε} (first : p x = .error e) :
    (x :: xs).allM p = .error e := by
  rw [List.allM, first]
  rfl

theorem allM_eq_ok_true_iff : xs.allM p = .ok true ↔ ∀ x ∈ xs, p x = .ok true := by
  induction xs with
  | nil => exact ⟨fun _ _ mem => (List.not_mem_nil mem).elim, fun _ => rfl⟩
  | cons x xs ih =>
    rw [List.forall_mem_cons, ← ih]
    cases first : p x with
    | error e =>
      rw [allM_cons_of_error first]
      exact iff_of_false nofun fun both => nomatch both.1
    | ok b =>
      rw [allM_cons_of_ok first]
      cases b <;> simp

theorem allM_map_eq_ok {q : β → Except ε Bool} {f : α → β} {r : Bool}
    (agree : ∀ x ∈ xs, ∀ b, p x = .ok b → q (f x) = .ok b) (done : xs.allM p = .ok r) :
    (xs.map f).allM q = .ok r := by
  induction xs with
  | nil => exact done
  | cons x xs ih =>
    obtain ⟨here, rest⟩ := List.forall_mem_cons.mp agree
    cases first : p x with
    | error e =>
      rw [allM_cons_of_error first] at done
      cases done
    | ok b =>
      rw [List.map_cons, allM_cons_of_ok (here b first)]
      rw [allM_cons_of_ok first] at done
      cases b with
      | false => exact done
      | true => exact ih rest done

theorem allM_ok_or_error (p : α → Except ε Bool) (xs : List α) :
    (∃ r, xs.allM p = .ok r) ∨ ∃ x ∈ xs, ∃ e, p x = .error e ∧ xs.allM p = .error e := by
  induction xs with
  | nil => exact .inl ⟨true, rfl⟩
  | cons x xs ih =>
    cases first : p x with
    | error e => exact .inr ⟨x, List.mem_cons_self .., e, first, allM_cons_of_error first⟩
    | ok b =>
      rw [allM_cons_of_ok first]
      cases b with
      | false => exact .inl ⟨false, rfl⟩
      | true =>
        refine ih.imp id ?_
        rintro ⟨y, mem, e, failed, run⟩
        exact ⟨y, List.mem_cons_of_mem _ mem, e, failed, run⟩

end Sequences

namespace Heap

variable {H : Type} {h k : Heap H} {a b v w : Value} {s t : Structure} {levels : Nat}

/-! ## One level -/

def equalEntries (h : Heap H) (levels : Nat) : (Key × Value) × (Key × Value) → Except Error Bool
  | ((k, v), (l, w)) => if k = l then h.equalAt levels v w else return false

def equalLeaves (h : Heap H) (a b : Value) : Except Error Bool := do
  h.checkLive a
  h.checkLive b
  return a.same b

inductive EqualStep (h : Heap H) (a b : Value) : Nat → Except Error Bool → Prop
  | leaves {levels : Nat} {answer : Except Error Bool}
      (plain : ∀ s t, h.structureOf a = .ok s → h.structureOf b = .ok t → False)
      (compared : h.equalLeaves a b = answer) : EqualStep h a b levels answer
  | sameObject {levels : Nat} {s t : Structure} (left : h.structureOf a = .ok s)
      (right : h.structureOf b = .ok t) (same : a.ref? = b.ref?) :
      EqualStep h a b levels (.ok true)
  | tooDeep {s t : Structure} (left : h.structureOf a = .ok s) (right : h.structureOf b = .ok t)
      (other : a.ref? ≠ b.ref?) : EqualStep h a b 0 (.ok false)
  | sizes {levels : Nat} {s t : Structure} (left : h.structureOf a = .ok s)
      (right : h.structureOf b = .ok t) (other : a.ref? ≠ b.ref?) (sizes : s.size ≠ t.size) :
      EqualStep h a b (levels + 1) (.ok false)
  | entries {levels : Nat} {s t : Structure} {answer : Except Error Bool}
      (left : h.structureOf a = .ok s) (right : h.structureOf b = .ok t)
      (other : a.ref? ≠ b.ref?) (sizes : s.size = t.size)
      (compared : (s.entries.zip t.entries).allM (h.equalEntries levels) = answer) :
      EqualStep h a b (levels + 1) answer

theorem equalStep_equalAt (h : Heap H) (levels : Nat) (a b : Value) :
    EqualStep h a b levels (h.equalAt levels a b) := by
  rw [equalAt.eq_def]
  cases left : h.structureOf a with
  | error e =>
    refine .leaves (fun s t found => ?_) (by simp only [left]; rfl)
    rw [left] at found
    cases found
  | ok s =>
    cases right : h.structureOf b with
    | error e =>
      refine .leaves (fun s t _ found => ?_) (by simp only [left, right]; rfl)
      rw [right] at found
      cases found
    | ok t =>
      simp only [left, right]
      by_cases same : a.ref? = b.ref?
      · rw [if_pos same]
        exact .sameObject left right same
      rw [if_neg same]
      cases levels with
      | zero => exact .tooDeep left right same
      | succ levels =>
        by_cases sizes : s.size = t.size
        · simp only [ne_eq, sizes, not_true, if_false]
          exact .entries left right same sizes rfl
        · simp only [ne_eq, sizes, not_false_iff, if_true]
          exact .sizes left right same sizes

theorem checkLive_cases (h : Heap H) (v : Value) :
    (h.checkLive v = .ok () ∧ ∀ ref, v.ref? = some ref → (h.object? ref.handle).isSome) ∨
      ∃ ref, v.ref? = some ref ∧ h.object? ref.handle = none ∧
        h.checkLive v = .error (h.stale ref.handle) := by
  cases refers : v.ref? with
  | none =>
    refine .inl ⟨by simp [checkLive, refers, pure, Except.pure], fun ref found => ?_⟩
    cases found
  | some ref =>
    have checked : h.checkLive v = (h.object ref.handle).map fun _ => () := by
      simp only [checkLive, resolve, refers, Option.isSome_some, if_true]
      cases h.object ref.handle <;> rfl
    cases live : h.object? ref.handle with
    | none => exact .inr ⟨ref, rfl, live, by rw [checked, object, live]; rfl⟩
    | some o =>
      refine .inl ⟨by rw [checked, object, live]; rfl, fun ref' found => ?_⟩
      cases found
      rw [live]
      rfl

theorem checkLive_eq_ok_iff :
    h.checkLive v = .ok () ↔ ∀ ref, v.ref? = some ref → (h.object? ref.handle).isSome := by
  rcases h.checkLive_cases v with ⟨ok, live⟩ | ⟨ref, refers, gone, failed⟩
  · exact ⟨fun _ => live, fun _ => ok⟩
  · rw [failed]
    refine ⟨nofun, fun live => ?_⟩
    have there := live ref refers
    rw [gone] at there
    cases there

theorem equalLeaves_eq_ok_iff {r : Bool} :
    h.equalLeaves a b = .ok r ↔
      h.checkLive a = .ok () ∧ h.checkLive b = .ok () ∧ a.same b = r := by
  unfold equalLeaves
  cases left : h.checkLive a with
  | error e => simp [bind, Except.bind]
  | ok _ => cases right : h.checkLive b <;> simp [bind, Except.bind, pure, Except.pure]

/-! ## What equality says -/

/-- Two values that show no difference however far they are followed: one object, or structures of
the same keys with such values under them, or the same content. -/
inductive Equals (h : Heap H) : Value → Value → Prop
  | sameObject {a b : Value} {s t : Structure} (left : h.structureOf a = .ok s)
      (right : h.structureOf b = .ok t) (same : a.ref? = b.ref?) : Equals h a b
  | entries {a b : Value} {s t : Structure} (left : h.structureOf a = .ok s)
      (right : h.structureOf b = .ok t) (keys : s.entries.map Prod.fst = t.entries.map Prod.fst)
      (children : ∀ e ∈ s.entries.zip t.entries, Equals h e.1.2 e.2.2) : Equals h a b
  | leaves {a b : Value}
      (plain : ∀ s t, h.structureOf a = .ok s → h.structureOf b = .ok t → False)
      (live : ∀ v, v = a ∨ v = b → ∀ ref, v.ref? = some ref → (h.object? ref.handle).isSome)
      (same : a.same b = true) : Equals h a b

theorem mem_values_of_entry {key : Key} (mem : (key, v) ∈ s.entries) : v ∈ s.values := by
  rw [Structure.values, Storage.values_eq]
  exact List.mem_map_of_mem mem

theorem live_of_checkLive (left : h.checkLive a = .ok ()) (right : h.checkLive b = .ok ()) :
    ∀ v, v = a ∨ v = b → ∀ ref, v.ref? = some ref → (h.object? ref.handle).isSome := by
  rintro v (rfl | rfl)
  · exact checkLive_eq_ok_iff.mp left
  · exact checkLive_eq_ok_iff.mp right

theorem keys_eq_of_zip {xs ys : List (Key × Value)} (length : xs.length = ys.length)
    (agree : ∀ e ∈ xs.zip ys, e.1.1 = e.2.1) : xs.map Prod.fst = ys.map Prod.fst := by
  induction xs generalizing ys with
  | nil => rw [List.length_eq_zero_iff.mp length.symm]
  | cons x xs ih =>
    cases ys with
    | nil => cases length
    | cons y ys =>
      obtain ⟨first, rest⟩ := List.forall_mem_cons.mp agree
      rw [List.map_cons, List.map_cons, first, ih (Nat.succ.inj length) rest]

theorem equalEntries_eq_true {e : (Key × Value) × (Key × Value)} :
    h.equalEntries levels e = .ok true ↔
      e.1.1 = e.2.1 ∧ h.equalAt levels e.1.2 e.2.2 = .ok true := by
  obtain ⟨⟨k, v⟩, l, w⟩ := e
  by_cases same : k = l <;> simp [equalEntries, same, pure, Except.pure]

theorem equalEntries_swap {e : (Key × Value) × (Key × Value)} {r : Bool}
    (comm : ∀ {r}, h.equalAt levels e.1.2 e.2.2 = .ok r → h.equalAt levels e.2.2 e.1.2 = .ok r)
    (done : h.equalEntries levels e = .ok r) : h.equalEntries levels e.swap = .ok r := by
  obtain ⟨⟨k, v⟩, l, w⟩ := e
  simp only [equalEntries, Prod.swap_prod_mk] at done ⊢
  by_cases same : k = l
  · rw [if_pos same] at done
    rw [if_pos same.symm]
    exact comm done
  · rw [if_neg same] at done
    rw [if_neg (Ne.symm same)]
    exact done

/-- A comparison that says yes has found no difference, and would find none further down. -/
theorem equals_of_equalAt (done : h.equalAt levels a b = .ok true) : h.Equals a b := by
  induction levels using Nat.strongRecOn generalizing a b with
  | ind levels ih =>
    have step := h.equalStep_equalAt levels a b
    rw [done] at step
    cases step with
    | leaves plain compared =>
      obtain ⟨left, right, same⟩ := equalLeaves_eq_ok_iff.mp compared
      exact .leaves plain (live_of_checkLive left right) same
    | sameObject left right same => exact .sameObject left right same
    | entries left right other sizes compared =>
      have agree := fun e mem => equalEntries_eq_true.mp (allM_eq_ok_true_iff.mp compared e mem)
      rw [Structure.size, Structure.size, Storage.size_eq, Storage.size_eq] at sizes
      exact .entries left right (keys_eq_of_zip sizes fun e mem => (agree e mem).1)
        fun e mem => ih _ (Nat.lt_succ_self _) (agree e mem).2

/-! ## Which value comes first -/

/-- An answer does not depend on which of the two values comes first. -/
theorem equalAt_comm {r : Bool} (done : h.equalAt levels a b = .ok r) :
    h.equalAt levels b a = .ok r := by
  induction levels using Nat.strongRecOn generalizing a b r with
  | ind levels ih =>
    have step := h.equalStep_equalAt levels a b
    have back := h.equalStep_equalAt levels b a
    rw [done] at step
    generalize h.equalAt levels b a = answer at back ⊢
    cases step with
    | leaves plain compared =>
      obtain ⟨left, right, same⟩ := equalLeaves_eq_ok_iff.mp compared
      cases back with
      | leaves _ compared' =>
        rw [← compared']
        exact equalLeaves_eq_ok_iff.mpr ⟨right, left, by rw [Value.same_comm, same]⟩
      | sameObject left' right' | tooDeep left' right' | sizes left' right'
      | entries left' right' => exact (plain _ _ right' left').elim
    | sameObject left right same =>
      cases back with
      | leaves plain => exact (plain _ _ right left).elim
      | sameObject => rfl
      | tooDeep _ _ other | sizes _ _ other | entries _ _ other => exact absurd same.symm other
    | tooDeep left right other =>
      cases back with
      | leaves plain => exact (plain _ _ right left).elim
      | sameObject _ _ same => exact absurd same.symm other
      | tooDeep => rfl
    | sizes left right other sizes =>
      cases back with
      | leaves plain => exact (plain _ _ right left).elim
      | sameObject _ _ same => exact absurd same.symm other
      | sizes => rfl
      | entries left' right' _ sizes' =>
        cases left.symm.trans right'
        cases right.symm.trans left'
        exact absurd sizes'.symm sizes
    | entries left right other sizes compared =>
      cases back with
      | leaves plain => exact (plain _ _ right left).elim
      | sameObject _ _ same => exact absurd same.symm other
      | sizes left' right' _ sizes' =>
        cases left.symm.trans right'
        cases right.symm.trans left'
        exact absurd sizes.symm sizes'
      | entries left' right' _ _ compared' =>
        cases left.symm.trans right'
        cases right.symm.trans left'
        rw [← compared', ← List.zip_swap]
        refine allM_map_eq_ok (fun e mem r done => ?_) compared
        exact equalEntries_swap (fun done => ih _ (Nat.lt_succ_self _) done) done

/-! ## Answers -/

/-- The handles that a value refers to, itself or in the entries of structures. -/
inductive Meets (h : Heap H) : Value → Handle → Prop
  | here {v : Value} {ref : HeapRef} (refers : v.ref? = some ref) : Meets h v ref.handle
  | entry {v w : Value} {s : Structure} {x : Handle} (found : h.structureOf v = .ok s)
      (mem : w ∈ s.values) (further : Meets h w x) : Meets h v x

theorem equalLeaves_answers (h : Heap H) (a b : Value) :
    (∃ r, h.equalLeaves a b = .ok r) ∨
      ∃ x, (h.Meets a x ∨ h.Meets b x) ∧ h.object? x = none ∧
        h.equalLeaves a b = .error (h.stale x) := by
  unfold equalLeaves
  rcases h.checkLive_cases a with ⟨left, -⟩ | ⟨ref, refers, gone, left⟩
  · rw [left]
    rcases h.checkLive_cases b with ⟨right, -⟩ | ⟨ref, refers, gone, right⟩
    · rw [right]
      exact .inl ⟨_, rfl⟩
    · rw [right]
      exact .inr ⟨ref.handle, .inr (.here refers), gone, rfl⟩
  · rw [left]
    exact .inr ⟨ref.handle, .inl (.here refers), gone, rfl⟩

/-- A comparison comes to an answer, unless it meets a reference to an object that is gone. -/
theorem equalAt_answers (h : Heap H) (levels : Nat) (a b : Value) :
    (∃ r, h.equalAt levels a b = .ok r) ∨
      ∃ x, (h.Meets a x ∨ h.Meets b x) ∧ h.object? x = none ∧
        h.equalAt levels a b = .error (h.stale x) := by
  induction levels using Nat.strongRecOn generalizing a b with
  | ind levels ih =>
    have step := h.equalStep_equalAt levels a b
    generalize h.equalAt levels a b = answer at step ⊢
    cases step with
    | leaves plain compared => exact compared ▸ h.equalLeaves_answers a b
    | sameObject => exact .inl ⟨true, rfl⟩
    | tooDeep | sizes => exact .inl ⟨false, rfl⟩
    | entries left right other sizes compared =>
      subst compared
      rename_i levels s t
      refine (allM_ok_or_error (h.equalEntries levels) (s.entries.zip t.entries)).imp id ?_
      rintro ⟨⟨⟨k, v⟩, l, w⟩, mem, e, failed, run⟩
      obtain ⟨mem, mem'⟩ := List.of_mem_zip mem
      rw [run]
      simp only [equalEntries] at failed
      split at failed
      · rcases ih levels (Nat.lt_succ_self _) v w with ⟨r, ok⟩ | ⟨x, meets, gone, error⟩
        · rw [ok] at failed
          cases failed
        · rw [error] at failed
          cases failed
          exact ⟨x, meets.imp (.entry left (mem_values_of_entry mem))
            (.entry right (mem_values_of_entry mem')), gone, rfl⟩
      · cases failed

/-! ## Trees -/

/-- A plain value that is neither gone nor undefined, or a structure of a number of levels at most.
Inside it there may be pointers, to whatever is there. A pointer by itself is none of both, unless
it leads to a structure. -/
inductive Tree (h : Heap H) : Nat → Value → Prop
  | primitive {levels : Nat} {v : Value} (plain : v.ref? = none) (number : v.isNaN = false)
      (present : v.isDisposed = false) : Tree h levels v
  | struct {levels : Nat} {v : Value} {s : Structure} (found : h.structureOf v = .ok s)
      (children : ∀ w ∈ s.values, ¬ (w.owns = false ∧ h.isLive w = true) → Tree h levels w) :
      Tree h (levels + 1) v

theorem isLive_of_object? {ref : HeapRef} {o : Object H} (refers : v.ref? = some ref)
    (live : h.object? ref.handle = some o) : h.isLive v = true := by
  rw [isLive, refers]
  simp [live]

theorem Tree.mono {more : Nat} (tree : h.Tree levels v) (le : levels ≤ more) : h.Tree more v := by
  induction tree generalizing more with
  | primitive plain number present => exact .primitive plain number present
  | struct found _ ih =>
    obtain ⟨more, rfl⟩ := Nat.exists_eq_add_of_lt le
    exact .struct found fun w mem leads => ih w mem leads (by omega)

theorem ref?_of_structureOf (found : h.structureOf v = .ok s) :
    ∃ x, v.ref? = some ⟨.struct, x⟩ ∧ h.object? x = some (.struct s) := by
  obtain ⟨x, handle, live⟩ := structureOf_eq_ok found
  exact ⟨x, handleOf_eq_ok handle, live⟩

theorem Tree.copyable (tree : h.Tree levels v) (refers : v.ref?.isSome) : h.Copyable v := by
  induction tree with
  | primitive plain =>
    rw [plain] at refers
    cases refers
  | struct found _ ih =>
    obtain ⟨x, refers, live⟩ := ref?_of_structureOf found
    refine .tree refers (.inl rfl) live (.inl rfl) fun w mem owns => ih w mem ?_ ?_
    · rintro ⟨plain, -⟩
      rw [owns] at plain
      cases plain
    · obtain ⟨inner, owner⟩ := owns_iff.mp owns
      rw [← owned?_eq_ref? owns, owner]
      rfl

theorem equalAt_of_content (content : w.content = v.content) (number : v.isNaN = false)
    (present : v.isDisposed = false)
    (live : ∀ ref, v.ref? = some ref → (h.object? ref.handle).isSome) :
    h.equalAt levels v w = .ok true := by
  have refs := Value.ref?_of_content content
  have step := h.equalStep_equalAt levels v w
  generalize h.equalAt levels v w = answer at step ⊢
  cases step with
  | leaves plain compared =>
    rw [← compared]
    exact equalLeaves_eq_ok_iff.mpr ⟨checkLive_eq_ok_iff.mpr live,
      checkLive_eq_ok_iff.mpr (refs ▸ live), Value.same_of_content content number present⟩
  | sameObject => rfl
  | tooDeep _ _ other | sizes _ _ other | entries _ _ other => exact absurd refs.symm other

theorem equalAt_of_entries (left : h.structureOf a = .ok s) (right : h.structureOf b = .ok t)
    (sizes : s.size = t.size)
    (equal : ∀ e ∈ s.entries.zip t.entries, h.equalEntries levels e = .ok true) :
    h.equalAt (levels + 1) a b = .ok true := by
  have step := h.equalStep_equalAt (levels + 1) a b
  generalize h.equalAt (levels + 1) a b = answer at step ⊢
  cases step with
  | leaves plain => exact (plain s t left right).elim
  | sameObject => rfl
  | sizes left' right' _ other =>
    cases left.symm.trans left'
    cases right.symm.trans right'
    exact absurd sizes other
  | entries left' right' _ _ compared =>
    cases left.symm.trans left'
    cases right.symm.trans right'
    rw [← compared]
    exact allM_eq_ok_true_iff.mpr equal

theorem Tree.equalAt_share (tree : ¬ (v.owns = false ∧ h.isLive v = true) → h.Tree levels v)
    (kept : ∀ x o, h.object? x = some o → k.object? x = some o) (plain : v.owns = false) :
    k.equalAt levels v (Structure.attach v.share) = .ok true := by
  have content : (Structure.attach v.share).content = v.content := Value.content_share plain
  by_cases live : h.isLive v = true
  · rw [isLive] at live
    cases refers : v.ref? with
    | none => rw [refers] at live; cases live
    | some ref =>
      rw [refers] at live
      obtain ⟨o, found⟩ := Option.isSome_iff_exists.mp live
      obtain ⟨number, present⟩ := Value.proper_of_ref? refers
      refine equalAt_of_content content number present fun ref' refers' => ?_
      cases refers.symm.trans refers'
      rw [kept _ _ found]
      rfl
  · cases tree fun pointer => live pointer.2 with
    | primitive none number present =>
      refine equalAt_of_content content number present fun ref refers => ?_
      rw [none] at refers
      cases refers
    | struct found =>
      obtain ⟨x, refers, there⟩ := ref?_of_structureOf found
      exact absurd (isLive_of_object? refers there) live

theorem Tree.equalAt_copy (kept : ∀ x o, h.object? x = some o → k.object? x = some o)
    (tree : h.Tree levels v) :
    ∀ {w w' : Value} {xs : List Handle}, CopyOf h k v w xs → w'.ref? = w.ref? →
      k.equalAt levels v w' = .ok true := by
  induction tree with
  | primitive plain =>
    rintro w w' xs ⟨refers, -⟩ -
    rw [plain] at refers
    cases refers
  | @struct levels v s found children ih =>
    intro w w' xs copy same
    obtain ⟨y, refers, live⟩ := ref?_of_structureOf found
    obtain @⟨ref, o, o', x, us, xs, refers', source, copy, rebuilt, held⟩ := copy
    cases refers.symm.trans refers'
    cases live.symm.trans source
    obtain ⟨alike, holds⟩ := rebuilt
    rename_i s'
    have sizes : s.size = s'.size := by
      have keys := congrArg List.length alike.keys
      rw [List.length_map, List.length_map] at keys
      rw [Structure.size, Structure.size, Storage.size_eq, Storage.size_eq]
      exact keys.symm
    refine equalAt_of_entries (structureOf_of_object? refers (kept _ _ live))
      (structureOf_of_object? same copy) sizes ?_
    rintro ⟨⟨key, u⟩, key', u'⟩ mem
    obtain ⟨i, place⟩ := List.mem_iff_getElem?.mp mem
    obtain ⟨here, there⟩ := List.getElem?_zip_eq_some.mp place
    have value : s.values[i]? = some u := by
      rw [Structure.values, Storage.values_eq, List.getElem?_map, ← Structure.entries, here]
      rfl
    have value' : (us.map Structure.attach)[i]? = some u' := by
      rw [← holds, Structure.values, Storage.values_eq, List.getElem?_map, ← Structure.entries,
        there]
      rfl
    have keys : key = key' := by
      have both := congrArg (·[i]?) alike.keys
      simp only [List.getElem?_map, here, there, Option.map_some, Option.some.injEq] at both
      exact both.symm
    rw [List.getElem?_map, Option.map_eq_some_iff] at value'
    obtain ⟨z, right, rfl⟩ := value'
    have inside := List.mem_of_getElem? value
    refine equalEntries_eq_true.mpr ⟨keys, ?_⟩
    rcases held.at value right with ⟨plain, rfl⟩ | ⟨owns, ys, copy'⟩
    · exact Tree.equalAt_share (children u inside) kept plain
    · refine ih u inside (fun pointer => ?_) copy' rfl
      rw [owns] at pointer
      cases pointer.1

theorem Tree.equal_deepCopy (orderly : h.Orderly []) (tree : h.Tree levels v)
    (inside : levels ≤ equalDepth) : ∃ w k, deepCopy v h = .ok w k ∧ k.equal v w = .ok true := by
  have deep := tree.mono inside
  cases refers : v.ref? with
  | none =>
    refine ⟨v.share, h, deepCopy_of_plain refers, ?_⟩
    cases tree with
    | primitive _ number present =>
      refine equalAt_of_content (Value.content_share ?_) number present fun ref found => ?_
      · unfold Value.owns
        unfold Value.ref? at refers
        split at refers <;> simp_all
      · rw [refers] at found
        cases found
    | struct found =>
      obtain ⟨x, found, -⟩ := ref?_of_structureOf found
      rw [refers] at found
      cases found
  | some ref =>
    obtain ⟨w, k, xs, run, copied⟩ := deepCopy_of_copyable orderly
      (tree.copyable (by rw [refers]; rfl))
    exact ⟨w, k, run, deep.equalAt_copy (fun x o => copied.kept) copied.copy rfl⟩

/-- Equality by structure is sound: what is equal shows no difference however far it is followed. It
has the same answer for both orders of the values, and has one on any heap, circles included, unless
it meets a reference to an object that is gone. A tree of no more levels than are compared has a
deep copy and is equal to it. -/
theorem equal_sound (h : Heap H) :
    (∀ a b, h.equal a b = .ok true → h.Equals a b) ∧
      (∀ a b r, h.equal a b = .ok r → h.equal b a = .ok r) ∧
      (∀ a b, (∃ r, h.equal a b = .ok r) ∨
        ∃ x, (h.Meets a x ∨ h.Meets b x) ∧ h.object? x = none ∧
          h.equal a b = .error (h.stale x)) ∧
      (h.Orderly [] → ∀ v levels, levels ≤ 64 → h.Tree levels v →
        ∃ w k, deepCopy v h = .ok w k ∧ k.equal v w = .ok true) :=
  ⟨fun _ _ => equals_of_equalAt, fun _ _ _ => equalAt_comm, h.equalAt_answers equalDepth,
    fun orderly _ _ inside tree => tree.equal_deepCopy orderly inside⟩

def looped : Value × Heap Unit :=
  let (inner, h) := ({} : Heap Unit).allocStructure 0
  h.alloc (.struct
    { storage := .mixed
        { map :=
            { entries := [(.int 0, inner), (.int 1, .int 7), (.int 2, .pointer ⟨.struct, 1, 0⟩)] }
          index := none
          capacity := 4 } })

theorem tree_looped : looped.2.Tree 2 looped.1 := by
  refine .struct (show looped.2.structureOf looped.1 = .ok _ from rfl) fun w mem leads => ?_
  rcases List.mem_cons.mp mem with rfl | mem
  · exact .struct (show looped.2.structureOf _ = .ok _ from rfl) fun w mem =>
      (List.not_mem_nil mem).elim
  rcases List.mem_cons.mp mem with rfl | mem
  · exact .primitive rfl rfl rfl
  · rw [List.mem_singleton.mp mem] at leads
    exact absurd ⟨rfl, rfl⟩ leads

theorem equal_sound_looped : looped.2.Orderly [] ∧ looped.2.Tree 2 looped.1 ∧
    ∃ w k, deepCopy looped.1 looped.2 = .ok w k ∧ k.equal looped.1 w = .ok true ∧
      k.equal w looped.1 = .ok true ∧ k.Equals looped.1 w := by
  have orderly : looped.2.Orderly [] := by
    refine ((Edits.refl owned_empty.orderly).allocStructure 0).orderly.alloc (o := .struct _) ?_
    refine ⟨?_, fun keys stale => by cases stale⟩
    simp [SortedMap.Ascending]
    decide
  obtain ⟨w, k, run, equal⟩ :=
    (equal_sound looped.2).2.2.2 orderly looped.1 2 (by decide) tree_looped
  exact ⟨orderly, tree_looped, w, k, run, equal, (equal_sound k).2.1 _ _ _ equal,
    (equal_sound k).1 _ _ equal⟩

/-- A value that refers to a callable, but does not own it. -/
def calling : Value × Heap Unit :=
  let (v, h) := ({} : Heap Unit).alloc (.callable (.host "f" ()))
  (v.share, h)

/-- The copy of a callable is another one, and callables are compared by identity. -/
theorem copied_callable_differs : calling.2.Orderly [] ∧ calling.1.owns = false ∧
    calling.2.isLive calling.1 = true ∧
      ∃ w k, deepCopy calling.1 calling.2 = .ok w k ∧ k.equal calling.1 w = .ok false :=
  ⟨owned_empty.orderly.alloc (o := .callable (.host "f" ())) trivial, rfl, rfl, _, _, rfl, rfl⟩

end Heap

end ScriptMachine
