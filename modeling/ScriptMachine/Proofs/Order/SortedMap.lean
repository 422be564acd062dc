import ScriptMachine.Order.SortedMap

/-!
# Ascending entries as a map

A list of entries in strictly ascending key order is determined by what a lookup finds in it. `put`
and `drop` keep the order, change the lookup at one key, and neither lose nor add another entry.
-/

set_option autoImplicit false

namespace ScriptMachine.SortedMap

variable {κ ν : Type} [Ord κ]

/-- Entries in strictly ascending key order. -/
def Ascending (entries : List (κ × ν)) : Prop :=
  entries.Pairwise fun a b => compare a.1 b.1 = .lt

theorem ascending_nil : Ascending ([] : List (κ × ν)) := List.Pairwise.nil

theorem ascending_cons {e : κ × ν} {rest : List (κ × ν)} :
    Ascending (e :: rest) ↔ (∀ e' ∈ rest, compare e.1 e'.1 = .lt) ∧ Ascending rest :=
  List.pairwise_cons

theorem lookup_eq_none_of_below {k : κ} {entries : List (κ × ν)}
    (below : ∀ e ∈ entries, compare k e.1 = .lt) : lookup k entries = none := by
  induction entries with
  | nil => rfl
  | cons e rest ih =>
    have first := below e (List.mem_cons_self ..)
    rw [lookup, if_neg (by rw [first]; decide)]
    exact ih fun e' mem => below e' (List.mem_cons_of_mem e mem)

theorem mem_put {k : κ} {v : ν} {entries : List (κ × ν)} {e : κ × ν} (mem : e ∈ put k v entries) :
    e = (k, v) ∨ e ∈ entries := by
  induction entries with
  | nil => simpa [put] using mem
  | cons e' rest ih =>
    obtain ⟨k', v'⟩ := e'
    rw [put] at mem
    cases cmp : compare k k' with
    | lt => simpa [cmp] using mem
    | eq =>
      simp only [cmp, List.mem_cons] at mem
      exact mem.imp_right (List.mem_cons_of_mem _)
    | gt =>
      simp only [cmp, List.mem_cons] at mem
      rcases mem with rfl | mem
      · exact Or.inr (List.mem_cons_self ..)
      · exact (ih mem).imp_right (List.mem_cons_of_mem _)

theorem length_put_le (k : κ) (v : ν) (entries : List (κ × ν)) :
    (put k v entries).length ≤ entries.length + 1 := by
  induction entries with
  | nil => exact Nat.le_refl _
  | cons e rest ih =>
    rw [put]
    split
    · exact Nat.le_refl _
    · exact Nat.le_succ _
    · exact Nat.succ_le_succ ih

theorem drop_sublist (k : κ) (entries : List (κ × ν)) : (drop k entries).Sublist entries := by
  induction entries with
  | nil => exact List.Sublist.refl _
  | cons e rest ih =>
    rw [drop]
    split
    · exact List.sublist_cons_self _ _
    · exact ih.cons_cons _

theorem ascending_drop {entries : List (κ × ν)} (ascending : Ascending entries) (k : κ) :
    Ascending (drop k entries) :=
  ascending.sublist (drop_sublist k entries)

theorem drop_eq_self {k : κ} {entries : List (κ × ν)} (absent : lookup k entries = none) :
    drop k entries = entries := by
  induction entries with
  | nil => rfl
  | cons e rest ih =>
    rw [lookup] at absent
    split at absent
    · simp at absent
    · rename_i other
      rw [drop, if_neg other, ih absent]

theorem lookup_map (f : ν → ν) (entries : List (κ × ν)) (k : κ) :
    lookup k (entries.map fun e => (e.1, f e.2)) = (lookup k entries).map f := by
  induction entries with
  | nil => rfl
  | cons e rest ih =>
    simp only [List.map_cons, lookup]
    split
    · rfl
    · exact ih

theorem ascending_iff_keys {entries : List (κ × ν)} :
    Ascending entries ↔ (entries.map Prod.fst).Pairwise fun a b => compare a b = .lt := by
  rw [List.pairwise_map]
  rfl

theorem ascending_zip {entries : List (κ × ν)} (ascending : Ascending entries) {values : List ν}
    (length : values.length = entries.length) :
    Ascending ((entries.map Prod.fst).zip values) := by
  rw [ascending_iff_keys, List.map_fst_zip (Nat.le_of_eq (by rw [List.length_map, length]))]
  exact ascending_iff_keys.mp ascending

def IsFirst (entries : List (κ × ν)) : Option κ → Prop
  | none => entries = []
  | some k => ∃ v, (k, v) ∈ entries ∧ ∀ e ∈ entries, compare e.1 k ≠ .lt

def IsLast (entries : List (κ × ν)) : Option κ → Prop
  | none => entries = []
  | some k => ∃ v, (k, v) ∈ entries ∧ ∀ e ∈ entries, compare k e.1 ≠ .lt

/-! ## Lookups -/

variable [Std.LawfulEqOrd κ]

theorem lookup_eq_some_iff {entries : List (κ × ν)} (ascending : Ascending entries) {k : κ} {v : ν} :
    lookup k entries = some v ↔ (k, v) ∈ entries := by
  induction entries with
  | nil => simp [lookup]
  | cons e rest ih =>
    obtain ⟨k', v'⟩ := e
    obtain ⟨above, ascending⟩ := ascending_cons.mp ascending
    rw [lookup, List.mem_cons]
    by_cases same : compare k k' = .eq
    · have eq := Std.LawfulEqOrd.eq_of_compare same
      subst eq
      have absent : (k, v) ∉ rest := by
        intro mem
        have := above _ mem
        simp [Std.ReflOrd.compare_self] at this
      simp [absent, eq_comm]
    · have ne : k ≠ k' := by
        rintro rfl
        exact same Std.ReflOrd.compare_self
      rw [if_neg same, ih ascending]
      simp [ne]

theorem lookup_put [DecidableEq κ] {entries : List (κ × ν)} (ascending : Ascending entries)
    (k : κ) (v : ν) (k' : κ) :
    lookup k' (put k v entries) = if k' = k then some v else lookup k' entries := by
  have other : ∀ {x y : κ}, x ≠ y → compare x y ≠ .eq :=
    fun ne same => ne (Std.LawfulEqOrd.eq_of_compare same)
  induction entries with
  | nil =>
    by_cases same : k' = k
    · simp [put, lookup, same]
    · simp [put, lookup, same, other same]
  | cons e rest ih =>
    obtain ⟨k'', v''⟩ := e
    obtain ⟨above, tail⟩ := ascending_cons.mp ascending
    rw [put]
    cases cmp : compare k k'' with
    | lt =>
      by_cases same : k' = k
      · simp [lookup, same]
      · simp [lookup, same, other same]
    | eq =>
      have eq := Std.LawfulEqOrd.eq_of_compare cmp
      subst eq
      by_cases same : k' = k
      · simp [lookup, same]
      · simp [lookup, same, other same]
    | gt =>
      have ne : k ≠ k'' := by
        rintro rfl
        simp at cmp
      simp only [lookup, ih tail]
      by_cases same : k' = k
      · subst same
        simp [other ne]
      · simp [same]

theorem lookup_drop [DecidableEq κ] {entries : List (κ × ν)} (ascending : Ascending entries)
    (k k' : κ) : lookup k' (drop k entries) = if k' = k then none else lookup k' entries := by
  induction entries with
  | nil => simp [drop, lookup]
  | cons e rest ih =>
    obtain ⟨k'', v''⟩ := e
    obtain ⟨above, tail⟩ := ascending_cons.mp ascending
    rw [drop]
    by_cases found : compare k k'' = .eq
    · have eq := Std.LawfulEqOrd.eq_of_compare found
      subst eq
      rw [if_pos found]
      by_cases same : k' = k
      · subst same
        rw [if_pos rfl]
        exact lookup_eq_none_of_below above
      · have ne : compare k' k ≠ .eq := fun cmp => same (Std.LawfulEqOrd.eq_of_compare cmp)
        simp [lookup, same, ne]
    · rw [if_neg found, lookup, lookup, ih tail]
      by_cases same : k' = k
      · subst same
        simp [found]
      · simp [same]

theorem drop_perm {k : κ} {v : ν} {entries : List (κ × ν)} (found : lookup k entries = some v) :
    ((k, v) :: drop k entries).Perm entries := by
  induction entries with
  | nil => simp [lookup] at found
  | cons e rest ih =>
    obtain ⟨k', v'⟩ := e
    rw [lookup] at found
    rw [drop]
    by_cases same : compare k k' = .eq
    · have eq := Std.LawfulEqOrd.eq_of_compare same
      subst eq
      simp only [same, if_true, Option.some.injEq] at found
      subst found
      rw [if_pos same]
    · rw [if_neg same] at found ⊢
      exact (List.Perm.swap ..).trans ((ih found).cons _)

/-! ## Least and greatest entries -/

/-! ## Order -/

variable [Std.TransOrd κ]

omit [Std.LawfulEqOrd κ] in
theorem isFirst_head? {entries : List (κ × ν)} (ascending : Ascending entries) :
    IsFirst entries (entries.map Prod.fst).head? := by
  cases entries with
  | nil => rfl
  | cons e rest =>
    obtain ⟨above, -⟩ := ascending_cons.mp ascending
    refine ⟨e.2, List.mem_cons_self .., fun e' mem lt => ?_⟩
    rcases List.mem_cons.mp mem with rfl | mem
    · simp at lt
    · have gt := Std.OrientedCmp.gt_of_lt (above e' mem)
      rw [lt] at gt
      simp at gt

omit [Std.LawfulEqOrd κ] in
theorem isLast_getLast? {entries : List (κ × ν)} (ascending : Ascending entries) :
    IsLast entries (entries.map Prod.fst).getLast? := by
  rcases List.eq_nil_or_concat entries with rfl | ⟨init, e, rfl⟩
  · rfl
  · rw [List.concat_eq_append] at ascending ⊢
    have below := (List.pairwise_append.mp ascending).2.2
    rw [List.map_append, List.map_singleton, List.getLast?_concat]
    refine ⟨e.2, by simp, fun e' mem lt => ?_⟩
    rcases List.mem_append.mp mem with mem | mem
    · have gt := Std.OrientedCmp.gt_of_lt (below e' mem e (List.mem_singleton.mpr rfl))
      rw [lt] at gt
      simp at gt
    · rw [List.mem_singleton.mp mem] at lt
      simp at lt

/-- Lists of entries that answer every lookup alike are equal. -/
theorem eq_of_lookup_eq {one two : List (κ × ν)} (ascendingOne : Ascending one)
    (ascendingTwo : Ascending two) (same : ∀ k, lookup k one = lookup k two) : one = two := by
  have member : ∀ e, e ∈ one ↔ e ∈ two := by
    rintro ⟨k, v⟩
    rw [← lookup_eq_some_iff ascendingOne, ← lookup_eq_some_iff ascendingTwo, same k]
  induction one generalizing two with
  | nil =>
    cases two with
    | nil => rfl
    | cons e rest => exact absurd ((member e).mpr (List.mem_cons_self ..)) List.not_mem_nil
  | cons e rest ih =>
    cases two with
    | nil => exact absurd ((member e).mp (List.mem_cons_self ..)) List.not_mem_nil
    | cons e' rest' =>
      obtain ⟨above, tail⟩ := ascending_cons.mp ascendingOne
      obtain ⟨above', tail'⟩ := ascending_cons.mp ascendingTwo
      have heads : e = e' := by
        rcases List.mem_cons.mp ((member e).mp (List.mem_cons_self ..)) with eq | mem
        · exact eq
        · rcases List.mem_cons.mp ((member e').mpr (List.mem_cons_self ..)) with eq | mem'
          · exact eq.symm
          · have loop := Std.TransCmp.lt_trans (above' e mem) (above e' mem')
            simp [Std.ReflOrd.compare_self] at loop
      subst heads
      have members : ∀ d, d ∈ rest ↔ d ∈ rest' := by
        intro d
        have distinct : ∀ {l : List (κ × ν)}, (∀ e' ∈ l, compare e.1 e'.1 = .lt) → d ∈ l → d ≠ e := by
          rintro l above mem rfl
          have := above _ mem
          simp [Std.ReflOrd.compare_self] at this
        have either := member d
        rw [List.mem_cons, List.mem_cons] at either
        constructor
        · intro mem
          exact (either.mp (Or.inr mem)).resolve_left (distinct above mem)
        · intro mem
          exact (either.mpr (Or.inr mem)).resolve_left (distinct above' mem)
      refine congrArg (e :: ·) (ih tail tail' (fun k => ?_) members)
      apply Option.ext
      intro v
      rw [lookup_eq_some_iff tail, lookup_eq_some_iff tail', members]

theorem ascending_put {entries : List (κ × ν)} (ascending : Ascending entries) (k : κ) (v : ν) :
    Ascending (put k v entries) := by
  induction entries with
  | nil => exact List.pairwise_singleton _ _
  | cons e rest ih =>
    obtain ⟨k', v'⟩ := e
    obtain ⟨above, tail⟩ := ascending_cons.mp ascending
    rw [put]
    cases cmp : compare k k' with
    | lt =>
      refine ascending_cons.mpr ⟨fun e mem => ?_, ascending⟩
      rcases List.mem_cons.mp mem with rfl | mem
      · exact cmp
      · exact Std.TransCmp.lt_trans cmp (above e mem)
    | eq =>
      have eq := Std.LawfulEqOrd.eq_of_compare cmp
      subst eq
      exact ascending_cons.mpr ⟨above, tail⟩
    | gt =>
      refine ascending_cons.mpr ⟨fun e mem => ?_, ih tail⟩
      rcases mem_put mem with rfl | mem
      · exact Std.OrientedCmp.lt_of_gt cmp
      · exact above e mem

theorem put_perm {entries : List (κ × ν)} (ascending : Ascending entries) (k : κ) (v : ν) :
    (put k v entries ++ ((lookup k entries).map (k, ·)).toList).Perm ((k, v) :: entries) := by
  induction entries with
  | nil => simp [put, lookup]
  | cons e rest ih =>
    obtain ⟨k', v'⟩ := e
    obtain ⟨above, tail⟩ := ascending_cons.mp ascending
    rw [put, lookup]
    cases cmp : compare k k' with
    | lt =>
      have absent : lookup k rest = none :=
        lookup_eq_none_of_below fun e mem => Std.TransCmp.lt_trans cmp (above e mem)
      simp [absent]
    | eq =>
      have eq := Std.LawfulEqOrd.eq_of_compare cmp
      subst eq
      simp only [if_true, Option.map_some, Option.toList_some, List.cons_append]
      exact (List.perm_append_singleton _ _).cons _
    | gt =>
      simp only [reduceCtorEq, if_false, List.cons_append]
      exact ((ih tail).cons _).trans (List.Perm.swap ..)

/-- Overwriting an entry keeps the keys. -/
theorem map_fst_put {entries : List (κ × ν)} (ascending : Ascending entries) {k : κ}
    (present : (lookup k entries).isSome) (v : ν) :
    (put k v entries).map Prod.fst = entries.map Prod.fst := by
  induction entries with
  | nil => simp [lookup] at present
  | cons e rest ih =>
    obtain ⟨k', v'⟩ := e
    obtain ⟨above, tail⟩ := ascending_cons.mp ascending
    rw [lookup] at present
    rw [put]
    cases cmp : compare k k' with
    | lt =>
      have absent : lookup k rest = none :=
        lookup_eq_none_of_below fun e mem => Std.TransCmp.lt_trans cmp (above e mem)
      simp [cmp, absent] at present
    | eq => simp [Std.LawfulEqOrd.eq_of_compare cmp]
    | gt =>
      simp only [cmp, reduceCtorEq, if_false] at present
      simp [ih tail present]

omit [Std.LawfulEqOrd κ] in
theorem put_eq_concat {entries : List (κ × ν)} {k : κ}
    (above : ∀ e ∈ entries, compare e.1 k = .lt) (v : ν) :
    put k v entries = entries ++ [(k, v)] := by
  induction entries with
  | nil => rfl
  | cons e rest ih =>
    have gt : compare k e.1 = .gt := Std.OrientedCmp.gt_of_lt (above e (List.mem_cons_self ..))
    rw [put, gt]
    simp only [List.cons_append]
    exact congrArg _ (ih fun e' mem => above e' (List.mem_cons_of_mem _ mem))

omit [Std.LawfulEqOrd κ] in
theorem foldl_put {entries before : List (κ × ν)} (ascending : Ascending (before ++ entries)) :
    entries.foldl (fun acc e => put e.1 e.2 acc) before = before ++ entries := by
  induction entries generalizing before with
  | nil => simp
  | cons e rest ih =>
    have above : ∀ e' ∈ before, compare e'.1 e.1 = .lt := fun e' mem =>
      (List.pairwise_append.mp ascending).2.2 e' mem e (List.mem_cons_self ..)
    rw [List.foldl_cons, put_eq_concat above]
    have split : before ++ e :: rest = (before ++ [e]) ++ rest := by simp
    rw [split] at ascending ⊢
    exact ih ascending

end ScriptMachine.SortedMap
