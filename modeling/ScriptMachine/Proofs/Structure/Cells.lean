import ScriptMachine.Proofs.Order.SortedMap
import ScriptMachine.Structure.Cells

/-!
# What is at a position

`Cells.at?` is the view of a row of cells: every operation on rows is stated by what it leaves at
each position, and the searches by what lies between their answer and where they began. The entries
of a row are its occupied positions in ascending order.
-/

set_option autoImplicit false

namespace ScriptMachine.Cells

variable (cells : Cells)

theorem occupied_iff {i : Nat} : cells.occupied i = true ↔ ∃ v, cells.at? i = some v := by
  simp [occupied, Option.isSome_iff_exists]

theorem not_occupied_iff {i : Nat} : ¬ cells.occupied i = true ↔ cells.at? i = none := by
  simp [occupied]

theorem at?_eq_some_iff {i : Nat} {v : Value} : cells.at? i = some v ↔ cells[i]? = some (some v) := by
  simp [at?, Option.join_eq_some_iff]

theorem at?_of_size_le {i : Nat} (outside : cells.size ≤ i) : cells.at? i = none := by
  simp [at?, Array.getElem?_eq_none outside]

/-! ## Operations -/

theorem at?_put (i : Nat) (v : Value) (j : Nat) :
    (cells.put i v).at? j = if j = i then some v else cells.at? j := by
  unfold put
  split
  · rename_i inside
    by_cases same : j = i
    · subst same
      simp [at?, inside]
    · simp [at?, same, Ne.symm same]
  · rename_i outside
    have size : (cells ++ Array.replicate (i - cells.size) (none : Option Value)).size = i := by
      simp only [Array.size_append, Array.size_replicate]
      omega
    by_cases same : j = i
    · simp only [at?, Array.getElem?_push, size, if_pos same, Option.join_some]
    · rw [if_neg same]
      simp only [at?, Array.getElem?_push, size, if_neg same, Array.getElem?_append,
        Array.getElem?_replicate]
      split
      · rfl
      · rename_i beyond
        have absent : cells[j]? = none := Array.getElem?_eq_none (by omega)
        rw [absent]
        split <;> rfl

theorem size_put_of_lt {i : Nat} (v : Value) (inside : i < cells.size) :
    (cells.put i v).size = cells.size := by
  simp [put, inside]

theorem at?_clear (i j : Nat) : (cells.clear i).at? j = if j = i then none else cells.at? j := by
  unfold clear at?
  rw [Array.getElem?_setIfInBounds]
  by_cases same : i = j
  · subst same
    simp only [if_true]
    split <;> rfl
  · simp [same, Ne.symm same]

theorem at?_extract (start stop j : Nat) :
    at? (cells.extract start stop) j =
      if j < stop - start then cells.at? (start + j) else none := by
  unfold at?
  rw [Array.getElem?_extract]
  by_cases inside : j < min stop cells.size - start
  · rw [if_pos inside, if_pos (by omega)]
  · rw [if_neg inside]
    split
    · rw [Array.getElem?_eq_none (by omega)]
    · rfl

theorem at?_push (v : Option Value) (j : Nat) :
    at? (cells.push v) j = if j = cells.size then v else cells.at? j := by
  unfold at?
  rw [Array.getElem?_push]
  split <;> rfl

theorem at?_pop (j : Nat) :
    at? cells.pop j = if j + 1 = cells.size then none else cells.at? j := by
  unfold at?
  rw [Array.getElem?_pop]
  by_cases last : j + 1 = cells.size
  · rw [if_pos last, if_neg (by omega)]
    rfl
  · rw [if_neg last]
    split
    · rfl
    · rw [Array.getElem?_eq_none (by omega)]

theorem at?_pushFront (v : Value) (j : Nat) :
    at? (#[some v] ++ cells) j = if j = 0 then some v else cells.at? (j - 1) := by
  unfold at?
  rw [Array.getElem?_append]
  cases j <;> simp

theorem at?_empty (j : Nat) : at? #[] j = none := by
  simp [at?]

/-! ## Searches -/

/-- The search upwards answers the first occupied position, if there is one in its range. -/
theorem searchUp_spec (length : Nat) : ∀ i, match cells.searchUp i length with
    | some j => i ≤ j ∧ j < i + length ∧ cells.occupied j = true ∧
        ∀ k, i ≤ k → k < j → cells.at? k = none
    | none => ∀ k, i ≤ k → k < i + length → cells.at? k = none := by
  induction length with
  | zero =>
    intro i k low high
    omega
  | succ length ih =>
    intro i
    rw [searchUp]
    by_cases here : cells.occupied i = true
    · simp only [here, if_true]
      refine ⟨Nat.le_refl i, by omega, trivial, fun k low high => ?_⟩
      omega
    · have vacant := cells.not_occupied_iff.mp here
      have later := ih (i + 1)
      rw [if_neg here]
      cases found : cells.searchUp (i + 1) length with
      | none =>
        simp only [found] at later
        intro k low high
        rcases Nat.eq_or_lt_of_le low with rfl | lt
        · exact vacant
        · exact later k lt (by omega)
      | some j =>
        simp only [found] at later
        refine ⟨by omega, by omega, later.2.2.1, fun k low high => ?_⟩
        rcases Nat.eq_or_lt_of_le low with rfl | lt
        · exact vacant
        · exact later.2.2.2 k lt high

theorem firstFrom_eq_some {i j : Nat} (found : cells.firstFrom i = some j) :
    i ≤ j ∧ j < cells.size ∧ cells.occupied j = true ∧
      ∀ k, i ≤ k → k < j → cells.at? k = none := by
  have spec := cells.searchUp_spec (cells.size - i) i
  unfold firstFrom at found
  simp only [found] at spec
  exact ⟨spec.1, by omega, spec.2.2⟩

theorem firstFrom_eq_none {i : Nat} (found : cells.firstFrom i = none) (k : Nat) (low : i ≤ k) :
    cells.at? k = none := by
  have spec := cells.searchUp_spec (cells.size - i) i
  unfold firstFrom at found
  simp only [found] at spec
  rcases Nat.lt_or_ge k cells.size with inside | outside
  · exact spec k low (by omega)
  · exact cells.at?_of_size_le outside

/-- The search downwards answers the last occupied position below its start, if there is one. -/
theorem lastBefore_spec (i : Nat) : match cells.lastBefore i with
    | some j => j < i ∧ cells.occupied j = true ∧ ∀ k, j < k → k < i → cells.at? k = none
    | none => ∀ k, k < i → cells.at? k = none := by
  induction i with
  | zero =>
    intro k high
    omega
  | succ i ih =>
    rw [lastBefore]
    by_cases here : cells.occupied i = true
    · simp only [here, if_true]
      refine ⟨Nat.lt_succ_self i, trivial, fun k low high => ?_⟩
      omega
    · have vacant := cells.not_occupied_iff.mp here
      rw [if_neg here]
      cases found : cells.lastBefore i with
      | none =>
        simp only [found] at ih
        intro k high
        rcases Nat.eq_or_lt_of_le (Nat.le_of_lt_succ high) with rfl | lt
        · exact vacant
        · exact ih k lt
      | some j =>
        simp only [found] at ih
        refine ⟨by omega, ih.2.1, fun k low high => ?_⟩
        rcases Nat.eq_or_lt_of_le (Nat.le_of_lt_succ high) with rfl | lt
        · exact vacant
        · exact ih.2.2 k low lt

theorem lastBefore_eq_some {i j : Nat} (found : cells.lastBefore i = some j) :
    j < i ∧ cells.occupied j = true ∧ ∀ k, j < k → k < i → cells.at? k = none := by
  have spec := cells.lastBefore_spec i
  simpa only [found] using spec

theorem lastBefore_eq_none {i : Nat} (found : cells.lastBefore i = none) (k : Nat) (high : k < i) :
    cells.at? k = none := by
  have spec := cells.lastBefore_spec i
  simp only [found] at spec
  exact spec k high

theorem firstFrom_eq_some_iff {i j : Nat} :
    cells.firstFrom i = some j ↔
      i ≤ j ∧ cells.occupied j = true ∧ ∀ k, i ≤ k → k < j → cells.at? k = none := by
  constructor
  · intro found
    obtain ⟨low, -, occupied, first⟩ := cells.firstFrom_eq_some found
    exact ⟨low, occupied, first⟩
  · rintro ⟨low, occupied, first⟩
    cases found : cells.firstFrom i with
    | none => exact absurd occupied (cells.not_occupied_iff.mpr (cells.firstFrom_eq_none found j low))
    | some k =>
      obtain ⟨low', -, occupied', first'⟩ := cells.firstFrom_eq_some found
      rcases Nat.lt_trichotomy k j with lt | rfl | gt
      · exact absurd occupied' (cells.not_occupied_iff.mpr (first k low' lt))
      · rfl
      · exact absurd occupied (cells.not_occupied_iff.mpr (first' j low gt))

theorem firstFrom_congr {one two : Cells} (same : ∀ i, one.at? i = two.at? i) (i : Nat) :
    one.firstFrom i = two.firstFrom i := by
  apply Option.ext
  intro j
  simp only [firstFrom_eq_some_iff, occupied, same]

theorem lastBefore_eq_some_iff {i j : Nat} :
    cells.lastBefore i = some j ↔
      j < i ∧ cells.occupied j = true ∧ ∀ k, j < k → k < i → cells.at? k = none := by
  refine ⟨cells.lastBefore_eq_some, fun ⟨high, occupied, last⟩ => ?_⟩
  cases found : cells.lastBefore i with
  | none => exact absurd occupied (cells.not_occupied_iff.mpr (cells.lastBefore_eq_none found j high))
  | some k =>
    obtain ⟨high', occupied', last'⟩ := cells.lastBefore_eq_some found
    rcases Nat.lt_trichotomy k j with lt | rfl | gt
    · exact absurd occupied (cells.not_occupied_iff.mpr (last' j lt high))
    · rfl
    · exact absurd occupied' (cells.not_occupied_iff.mpr (last k gt high'))

/-- A search downwards may begin at the end of the row. -/
theorem lastBefore_min (i : Nat) : cells.lastBefore (min i cells.size) = cells.lastBefore i := by
  apply Option.ext
  intro j
  rw [lastBefore_eq_some_iff, lastBefore_eq_some_iff]
  constructor
  · rintro ⟨high, occupied, last⟩
    refine ⟨by omega, occupied, fun k above below => ?_⟩
    rcases Nat.lt_or_ge k cells.size with inside | outside
    · exact last k above (by omega)
    · exact cells.at?_of_size_le outside
  · rintro ⟨high, occupied, last⟩
    have inside : j < cells.size := Nat.lt_of_not_le fun outside =>
      absurd occupied (cells.not_occupied_iff.mpr (cells.at?_of_size_le outside))
    exact ⟨by omega, occupied, fun k above below => last k above (by omega)⟩

theorem lastBefore_congr {one two : Cells} (same : ∀ i, one.at? i = two.at? i) (i : Nat) :
    one.lastBefore i = two.lastBefore i := by
  apply Option.ext
  intro j
  simp only [lastBefore_eq_some_iff, occupied, same]

/-- Searches that pass only empty cells further on answer alike. -/
theorem searchUp_eq_of_vacant {length longer : Nat} {i : Nat} (le : length ≤ longer)
    (vacant : ∀ k, i + length ≤ k → cells.at? k = none) :
    cells.searchUp i length = cells.searchUp i longer := by
  induction length generalizing i longer with
  | zero =>
    have spec := cells.searchUp_spec longer i
    cases found : cells.searchUp i longer with
    | none => rfl
    | some j =>
      simp only [found] at spec
      exact absurd spec.2.2.1 (cells.not_occupied_iff.mpr (vacant j (by omega)))
  | succ length ih =>
    obtain ⟨rest, rfl⟩ : ∃ rest, longer = rest + 1 := ⟨longer - 1, by omega⟩
    have shorter : length ≤ rest := by omega
    rw [searchUp, searchUp, ih shorter fun k above => vacant k (by omega)]

theorem last?_eq_some {i : Nat} (found : cells.last? = some i) :
    i < cells.size ∧ cells.occupied i = true ∧ ∀ k, i < k → cells.at? k = none := by
  obtain ⟨inside, occupied, beyond⟩ := cells.lastBefore_eq_some found
  refine ⟨inside, occupied, fun k above => ?_⟩
  rcases Nat.lt_or_ge k cells.size with lt | outside
  · exact beyond k above lt
  · exact cells.at?_of_size_le outside

theorem last?_eq_none {k : Nat} (found : cells.last? = none) : cells.at? k = none := by
  rcases Nat.lt_or_ge k cells.size with lt | outside
  · exact cells.lastBefore_eq_none found k lt
  · exact cells.at?_of_size_le outside

theorem last?_eq_some_iff {i : Nat} :
    cells.last? = some i ↔ cells.occupied i = true ∧ ∀ k, i < k → cells.at? k = none := by
  refine ⟨fun found => (cells.last?_eq_some found).2, fun ⟨occupied, beyond⟩ => ?_⟩
  cases found : cells.last? with
  | none => exact absurd occupied (cells.not_occupied_iff.mpr (cells.last?_eq_none found))
  | some j =>
    obtain ⟨-, occupiedJ, beyondJ⟩ := cells.last?_eq_some found
    rcases Nat.lt_trichotomy i j with lt | rfl | gt
    · exact absurd occupiedJ (cells.not_occupied_iff.mpr (beyond j lt))
    · rfl
    · exact absurd occupied (cells.not_occupied_iff.mpr (beyondJ i gt))

theorem last?_eq_none_iff : cells.last? = none ↔ ∀ i, cells.at? i = none := by
  refine ⟨fun found _ => cells.last?_eq_none found, fun vacant => ?_⟩
  cases found : cells.last? with
  | none => rfl
  | some j =>
    exact absurd (cells.last?_eq_some found).2.1 (cells.not_occupied_iff.mpr (vacant j))

theorem last?_congr {one two : Cells} (same : ∀ i, one.at? i = two.at? i) :
    one.last? = two.last? := by
  apply Option.ext
  intro i
  simp only [last?_eq_some_iff, occupied, same]

theorem searchUp_last {last : Nat} (found : cells.last? = some last) (i : Nat) :
    cells.searchUp i (last + 1 - i) = cells.firstFrom i := by
  obtain ⟨inside, -, beyond⟩ := cells.last?_eq_some found
  exact cells.searchUp_eq_of_vacant (by omega) fun k above => beyond k (by omega)

theorem at?_withoutTail (j : Nat) : cells.withoutTail.at? j = cells.at? j := by
  unfold withoutTail
  cases found : cells.last? with
  | none =>
    rw [at?_empty]
    exact (cells.last?_eq_none found).symm
  | some last =>
    obtain ⟨-, -, beyond⟩ := cells.last?_eq_some found
    simp only [at?_extract, Nat.sub_zero, Nat.zero_add]
    split
    · rfl
    · exact (beyond j (by omega)).symm

theorem ext_at? {one two : Cells} (size : one.size = two.size)
    (same : ∀ i, one.at? i = two.at? i) : one = two := by
  refine Array.ext size fun i inside inside' => ?_
  have cell := same i
  rwa [at?, at?, Array.getElem?_eq_getElem inside, Array.getElem?_eq_getElem inside',
    Option.join_some, Option.join_some] at cell

theorem withoutTail_congr {one two : Cells} (same : ∀ i, one.at? i = two.at? i) :
    one.withoutTail = two.withoutTail := by
  refine ext_at? ?_ fun i => by rw [at?_withoutTail, at?_withoutTail, same]
  unfold withoutTail
  have last := last?_congr same
  rw [last]
  cases found : two.last? with
  | none => rfl
  | some i =>
    have inside := (two.last?_eq_some found).1
    have inside' := (one.last?_eq_some (last.trans found)).1
    simp only [Array.size_extract]
    omega

theorem occupied_last_withoutTail (nonempty : cells.withoutTail.size ≠ 0) :
    cells.withoutTail.occupied (cells.withoutTail.size - 1) = true := by
  have view := cells.at?_withoutTail
  unfold withoutTail at view nonempty ⊢
  cases found : cells.last? with
  | none => simp [found] at nonempty
  | some last =>
    obtain ⟨inside, occupied, -⟩ := cells.last?_eq_some found
    simp only [found] at view
    have size : (Array.extract cells 0 (last + 1)).size - 1 = last := by
      simp only [Array.size_extract]
      omega
    simp only [size, Cells.occupied, view]
    exact occupied

theorem at?_skipped {i : Nat} (inside : i < cells.skipped) : cells.at? i = none := by
  unfold skipped at inside
  cases found : cells.firstFrom 0 with
  | none => exact cells.firstFrom_eq_none found i (Nat.zero_le i)
  | some first =>
    rw [found] at inside
    exact (cells.firstFrom_eq_some found).2.2.2 i (Nat.zero_le i) inside

theorem at?_trimmed (j : Nat) : cells.trimmed.at? j = cells.at? (cells.skipped + j) := by
  rw [trimmed, at?_withoutTail, at?_extract]
  split
  · rfl
  · exact (cells.at?_of_size_le (by omega)).symm

theorem occupied_first_trimmed (nonempty : cells.trimmed.size ≠ 0) :
    cells.trimmed.occupied 0 = true := by
  have last := occupied_last_withoutTail _ nonempty
  rw [occupied, at?_trimmed, Nat.add_zero]
  unfold skipped
  cases found : cells.firstFrom 0 with
  | none =>
    obtain ⟨v, held⟩ := occupied_iff _ |>.mp last
    rw [← trimmed, at?_trimmed, cells.firstFrom_eq_none found _ (Nat.zero_le _)] at held
    cases held
  | some first => exact (cells.firstFrom_eq_some found).2.2.1

/-! ## Entries -/

/-- Occupied cells of a list with their positions, counted from a start. -/
def entriesFrom (row : List (Option Value)) (start : Nat) : List (Nat × Value) :=
  (row.zipIdx start).filterMap fun (cell, i) => cell.map (i, ·)

theorem entries_eq : cells.entries = entriesFrom cells.toList 0 := rfl

theorem entriesFrom_cons (cell : Option Value) (row : List (Option Value)) (start : Nat) :
    entriesFrom (cell :: row) start =
      (cell.map (start, ·)).toList ++ entriesFrom row (start + 1) := by
  cases cell <;> simp [entriesFrom]

theorem mem_entriesFrom {row : List (Option Value)} {start i : Nat} {v : Value} :
    (i, v) ∈ entriesFrom row start ↔ start ≤ i ∧ row[i - start]? = some (some v) := by
  induction row generalizing start with
  | nil => simp [entriesFrom]
  | cons cell row ih =>
    rw [entriesFrom_cons, List.mem_append, ih]
    constructor
    · rintro (here | ⟨low, found⟩)
      · cases cell with
        | none => simp at here
        | some w =>
          simp only [Option.map_some, Option.toList_some, List.mem_singleton,
            Prod.mk.injEq] at here
          obtain ⟨rfl, rfl⟩ := here
          simp
      · refine ⟨by omega, ?_⟩
        have shift : i - start = (i - (start + 1)) + 1 := by omega
        rwa [shift, List.getElem?_cons_succ]
    · rintro ⟨low, found⟩
      rcases Nat.eq_or_lt_of_le low with rfl | lt
      · simp only [Nat.sub_self, List.getElem?_cons_zero, Option.some.injEq] at found
        subst found
        exact Or.inl (by simp)
      · refine Or.inr ⟨lt, ?_⟩
        have shift : i - start = (i - (start + 1)) + 1 := by omega
        rwa [shift, List.getElem?_cons_succ] at found

theorem mem_entries {i : Nat} {v : Value} : (i, v) ∈ cells.entries ↔ cells.at? i = some v := by
  rw [entries_eq, mem_entriesFrom, at?_eq_some_iff]
  simp

theorem pairwise_entriesFrom (row : List (Option Value)) (start : Nat) :
    (entriesFrom row start).Pairwise fun a b => a.1 < b.1 := by
  induction row generalizing start with
  | nil => exact List.Pairwise.nil
  | cons cell row ih =>
    rw [entriesFrom_cons]
    cases cell with
    | none => exact ih (start + 1)
    | some v =>
      refine List.pairwise_cons.mpr ⟨?_, ih (start + 1)⟩
      rintro ⟨i, w⟩ mem
      exact (mem_entriesFrom.mp mem).1

theorem pairwise_entries : cells.entries.Pairwise fun a b => a.1 < b.1 :=
  pairwise_entriesFrom _ _

theorem map_snd_entriesFrom (row : List (Option Value)) (start : Nat) :
    (entriesFrom row start).map Prod.snd = row.filterMap id := by
  induction row generalizing start with
  | nil => rfl
  | cons cell row ih =>
    rw [entriesFrom_cons, List.map_append, ih]
    cases cell <;> simp

theorem values_eq : cells.values = cells.entries.map Prod.snd :=
  (map_snd_entriesFrom _ _).symm

theorem count_eq : cells.count = cells.entries.length := by
  rw [count, values_eq, List.length_map]

theorem ascending_entries : SortedMap.Ascending cells.entries :=
  cells.pairwise_entries.imp fun lt => Std.compare_eq_lt.mpr lt

theorem entries_congr {one two : Cells} (same : ∀ i, one.at? i = two.at? i) :
    one.entries = two.entries := by
  refine SortedMap.eq_of_lookup_eq one.ascending_entries two.ascending_entries fun i => ?_
  apply Option.ext
  intro v
  rw [SortedMap.lookup_eq_some_iff one.ascending_entries,
    SortedMap.lookup_eq_some_iff two.ascending_entries, mem_entries, mem_entries, same]

theorem lookup_entries (i : Nat) : SortedMap.lookup i cells.entries = cells.at? i := by
  apply Option.ext
  intro v
  rw [SortedMap.lookup_eq_some_iff cells.ascending_entries, mem_entries]

theorem entries_put (i : Nat) (v : Value) :
    (cells.put i v).entries = SortedMap.put i v cells.entries := by
  refine SortedMap.eq_of_lookup_eq (ascending_entries _)
    (SortedMap.ascending_put cells.ascending_entries i v) fun j => ?_
  rw [SortedMap.lookup_put cells.ascending_entries, lookup_entries, lookup_entries, at?_put]

/-! ## Counting -/

theorem count_congr {one two : Cells} (same : ∀ i, one.at? i = two.at? i) :
    one.count = two.count := by
  rw [count_eq, count_eq, entries_congr same]

theorem count_eq_zero_iff : cells.count = 0 ↔ ∀ i, cells.at? i = none := by
  rw [count_eq, List.length_eq_zero_iff]
  refine ⟨fun none i => ?_, fun vacant => ?_⟩
  · rw [← lookup_entries, none]
    rfl
  · refine List.eq_nil_iff_forall_not_mem.mpr fun ⟨i, v⟩ mem => ?_
    rw [mem_entries, vacant] at mem
    cases mem

theorem count_put (i : Nat) (v : Value) :
    (cells.put i v).count = if cells.occupied i then cells.count else cells.count + 1 := by
  have length := (SortedMap.put_perm cells.ascending_entries i v).length_eq
  rw [← entries_put, lookup_entries, List.length_append, List.length_cons, ← count_eq,
    ← count_eq] at length
  unfold occupied
  cases held : cells.at? i with
  | none => simpa [held] using length
  | some w => simpa [held] using length

theorem count_clear (i : Nat) :
    (cells.clear i).count = if cells.occupied i then cells.count - 1 else cells.count := by
  have entries : (cells.clear i).entries = SortedMap.drop i cells.entries := by
    refine SortedMap.eq_of_lookup_eq (ascending_entries _)
      (SortedMap.ascending_drop cells.ascending_entries i) fun j => ?_
    rw [SortedMap.lookup_drop cells.ascending_entries, lookup_entries, lookup_entries, at?_clear]
  rw [count_eq, entries, count_eq]
  unfold occupied
  cases held : cells.at? i with
  | none =>
    rw [SortedMap.drop_eq_self ((cells.lookup_entries i).trans held)]
    rfl
  | some w =>
    have length := (SortedMap.drop_perm ((cells.lookup_entries i).trans held)).length_eq
    rw [List.length_cons] at length
    simp only [Option.isSome_some, if_true]
    omega

theorem at?_update (i : Nat) (f : Value → Value) (j : Nat) :
    (cells.update i f).at? j = if j = i then (cells.at? i).map f else cells.at? j := by
  unfold update at?
  rw [Array.getElem?_modify]
  by_cases same : i = j
  · subst same
    cases cells[i]? <;> simp
  · simp [same, Ne.symm same]

theorem occupied_update (i : Nat) (f : Value → Value) (j : Nat) :
    (cells.update i f).occupied j = cells.occupied j := by
  rw [occupied, occupied, at?_update]
  split
  · rename_i same
    rw [same, Option.isSome_map]
  · rfl

theorem count_push (cell : Option Value) :
    count (cells.push cell) = if cell.isSome then cells.count + 1 else cells.count := by
  cases cell <;> simp [count, values]

theorem count_pushFront (v : Value) : count (#[some v] ++ cells) = cells.count + 1 := by
  simp [count, values]

theorem count_withoutFirst :
    count (cells.extract 1 cells.size) =
      if cells.occupied 0 then cells.count - 1 else cells.count := by
  obtain ⟨row⟩ := cells
  cases row with
  | nil => rfl
  | cons cell row => cases cell <;> simp [count, values, occupied, at?]

theorem count_pop :
    count cells.pop =
      if cells.occupied (cells.size - 1) then cells.count - 1 else cells.count := by
  obtain ⟨row⟩ := cells
  rcases List.eq_nil_or_concat row with rfl | ⟨init, cell, rfl⟩
  · rfl
  · cases cell <;> simp [count, values, occupied, at?]

theorem count_trimmed : cells.trimmed.count = cells.count := by
  have tail : cells.trimmed.count = count (cells.extract cells.skipped cells.size) :=
    count_congr fun i => at?_withoutTail _ i
  have before : (cells.toList.take cells.skipped).filterMap id = [] := by
    rw [List.filterMap_eq_nil_iff]
    intro cell mem
    obtain ⟨i, inside, rfl⟩ := List.mem_iff_getElem.mp mem
    have vacant := cells.at?_skipped (i := i) (by simp at inside; omega)
    simp only [List.length_take, Array.length_toList] at inside
    simpa [at?, Array.getElem?_eq_getElem (show i < cells.size by omega)] using vacant
  have rest := congrArg (List.filterMap id) (List.take_append_drop cells.skipped cells.toList)
  rw [List.filterMap_append, before, List.nil_append] at rest
  rw [tail, count, count, values, values, ← rest, Array.toList_extract, List.extract,
    List.take_of_length_le (by simp)]

theorem last?_put (i : Nat) (v : Value) :
    (cells.put i v).last? = if cells.last?.all (· < i) then some i else cells.last? := by
  cases found : cells.last? with
  | none =>
    refine (last?_eq_some_iff _).mpr ⟨by simp [occupied, at?_put], fun k above => ?_⟩
    rw [at?_put, if_neg (by omega), cells.last?_eq_none found]
  | some last =>
    obtain ⟨-, occupied, beyond⟩ := cells.last?_eq_some found
    by_cases later : last < i
    · simp only [Option.all_some, later, decide_true, if_true]
      refine (last?_eq_some_iff _).mpr ⟨by simp [Cells.occupied, at?_put], fun k above => ?_⟩
      rw [at?_put, if_neg (by omega), beyond k (by omega)]
    · simp only [Option.all_some, later, decide_false, Bool.false_eq_true, if_false]
      refine (last?_eq_some_iff _).mpr ⟨?_, fun k above => ?_⟩
      · rw [Cells.occupied, at?_put]
        split
        · rfl
        · exact occupied
      · rw [at?_put, if_neg (by omega), beyond k above]

theorem last?_clear (i : Nat) :
    (cells.clear i).last? =
      if cells.last? = some i then (cells.clear i).lastBefore i else cells.last? := by
  split
  · rename_i found
    obtain ⟨-, -, beyond⟩ := cells.last?_eq_some found
    have vacant : ∀ k, i ≤ k → (cells.clear i).at? k = none := by
      intro k above
      rw [at?_clear]
      split
      · rfl
      · exact beyond k (by omega)
    have spec := (cells.clear i).lastBefore_spec i
    cases search : (cells.clear i).lastBefore i with
    | none =>
      simp only [search] at spec
      refine (last?_eq_none_iff _).mpr fun k => ?_
      rcases Nat.lt_or_ge k i with lt | ge
      · exact spec k lt
      · exact vacant k ge
    | some j =>
      simp only [search] at spec
      refine (last?_eq_some_iff _).mpr ⟨spec.2.1, fun k above => ?_⟩
      rcases Nat.lt_or_ge k i with lt | ge
      · exact spec.2.2 k above lt
      · exact vacant k ge
  · rename_i other
    cases found : cells.last? with
    | none =>
      refine (last?_eq_none_iff _).mpr fun k => ?_
      rw [at?_clear, cells.last?_eq_none found, ite_self]
    | some last =>
      rw [found, Option.some.injEq] at other
      obtain ⟨-, occupied, beyond⟩ := cells.last?_eq_some found
      refine (last?_eq_some_iff _).mpr ⟨?_, fun k above => ?_⟩
      · rw [Cells.occupied, at?_clear, if_neg other]
        exact occupied
      · rw [at?_clear, beyond k above, ite_self]

theorem last?_update (i : Nat) (f : Value → Value) : (cells.update i f).last? = cells.last? := by
  apply Option.ext
  intro j
  have none_iff : ∀ k, (cells.update i f).at? k = none ↔ cells.at? k = none := by
    intro k
    rw [← not_occupied_iff, ← not_occupied_iff, occupied_update]
  simp only [last?_eq_some_iff, occupied_update, none_iff]

theorem count_update (i : Nat) (f : Value → Value) : (cells.update i f).count = cells.count := by
  obtain ⟨row⟩ := cells
  simp only [count, values, update, List.modify_toArray]
  induction row generalizing i with
  | nil => cases i <;> rfl
  | cons cell row ih =>
    cases i with
    | zero => cases cell <;> simp
    | succ i => cases cell <;> simpa using ih i

theorem at?_vacant (n j : Nat) : at? (Array.replicate n none) j = none := by
  unfold at?
  rw [Array.getElem?_replicate]
  split <;> rfl

/-! ## Refilling -/

/-- As many values as the row held find the places of the old ones, in order. -/
theorem entriesFrom_refill {row : List (Option Value)} {values : List Value}
    (length : values.length = (row.filterMap id).length) (start : Nat) :
    entriesFrom (refill row values) start = ((entriesFrom row start).map Prod.fst).zip values := by
  induction row generalizing values start with
  | nil => rfl
  | cons cell row ih =>
    cases cell with
    | none =>
      simp only [refill, entriesFrom_cons, Option.map_none, Option.toList_none, List.nil_append]
      exact ih (by simpa using length) (start + 1)
    | some w =>
      cases values with
      | nil => simp at length
      | cons v values =>
        simp only [refill, entriesFrom_cons, Option.map_some, Option.toList_some,
          List.singleton_append, List.map_cons, List.zip_cons_cons]
        rw [ih (by simpa using length)]

theorem entries_refill {values : List Value} (length : values.length = cells.count) :
    entries (refill cells.toList values).toArray = (cells.entries.map Prod.fst).zip values :=
  entriesFrom_refill length 0

theorem length_refill (row : List (Option Value)) (values : List Value) :
    (refill row values).length = row.length := by
  induction row, values using refill.induct with
  | case1 values => simp [refill]
  | case2 rest values ih => simp [refill, ih]
  | case3 w rest v values ih => simp [refill, ih]
  | case4 w rest ih => simp [refill, ih]

theorem occupied_iff_mem_keys {i : Nat} :
    cells.occupied i = true ↔ i ∈ cells.entries.map Prod.fst := by
  rw [occupied_iff, List.mem_map]
  constructor
  · rintro ⟨v, found⟩
    exact ⟨(i, v), cells.mem_entries.mpr found, rfl⟩
  · rintro ⟨⟨j, v⟩, mem, rfl⟩
    exact ⟨v, cells.mem_entries.mp mem⟩

theorem occupied_refill {values : List Value} (length : values.length = cells.count) (i : Nat) :
    occupied (refill cells.toList values).toArray i = cells.occupied i := by
  rw [Bool.eq_iff_iff, occupied_iff_mem_keys, occupied_iff_mem_keys, cells.entries_refill length,
    List.map_fst_zip (Nat.le_of_eq (by rw [List.length_map, length, count_eq]))]

end ScriptMachine.Cells
