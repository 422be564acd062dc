import ScriptMachine.Proofs.Structure.Dense
import ScriptMachine.Structure.Ring

/-!
# Rings as maps

A ring is a row under integer keys that begins and ends with an entry. Pushing, popping and removing
keep it so: what they do to the entries is to put or drop one, and cutting empty cells off the ends
does nothing to them.
-/

set_option autoImplicit false

namespace ScriptMachine.Ring

open SortedMap (Ascending lookup drop)

variable {r : Ring}

/-- The keys are words, and both ends hold an entry. -/
structure Valid (r : Ring) : Prop where
  fits : r.cells.Fits r.first.toInt
  front : r.cells.size ≠ 0 → r.cells.occupied 0 = true
  back : r.cells.size ≠ 0 → r.cells.occupied (r.cells.size - 1) = true

theorem entries_eq (r : Ring) : r.entries = r.cells.keyed r.first.toInt := rfl

theorem size_eq (r : Ring) : r.size = r.entries.length := by
  rw [size, r.live_eq, Cells.count_eq, entries, List.length_map]

theorem values_eq (r : Ring) : r.values = r.entries.map Prod.snd := by
  rw [values, Cells.values_eq, entries, List.map_map]
  rfl

theorem Valid.ascending (valid : r.Valid) : Ascending r.entries :=
  Cells.ascending_keyed valid.fits

theorem stop_eq (r : Ring) : r.stop = r.first.toInt + r.cells.size := rfl

theorem index?_eq_some {k : Key} {i : Nat} (found : r.index? k = some i) :
    i < r.cells.size ∧ ∃ w, k = .int w ∧ w.toInt = r.first.toInt + i := by
  cases k with
  | int w =>
    have stop_eq := r.stop_eq
    simp only [index?] at found
    split at found
    · simp only [Option.some.injEq] at found
      exact ⟨by omega, w, rfl, by omega⟩
    · simp at found
  | _ => simp [index?] at found

theorem Valid.get?_eq (valid : r.Valid) (k : Key) : r.get? k = lookup k r.entries := by
  rw [entries_eq, Cells.lookup_keyed valid.fits]
  cases k with
  | int w =>
    have stop_eq := r.stop_eq
    simp only [get?, index?, Cells.read]
    by_cases inside : r.first.toInt ≤ w.toInt ∧ w.toInt < r.stop
    · simp [inside]
    · rw [if_neg inside]
      split
      · exact (r.cells.at?_of_size_le (by omega)).symm
      · rfl
  | _ => simp [get?, index?, Cells.read]

/-! ## Cutting the ends -/

theorem toInt_first (fits : r.cells.Fits r.first.toInt) {n i : Nat} {v : Value} {d : Int64}
    (shift : d = Int64.ofInt n) (found : r.cells.at? (n + i) = some v) :
    (r.first + d).toInt = r.first.toInt + n := by
  have low := Int64.le_toInt r.first
  have high := (fits _ v found).2
  exact Cells.toInt_add shift (by omega) (by omega)

/-- Cutting empty cells off leaves every entry under its key, and a ring that is valid again. -/
theorem trimmed_spec (fits : r.cells.Fits r.first.toInt) :
    r.trimmed.Valid ∧ r.trimmed.entries = r.entries := by
  have view := r.cells.at?_trimmed
  have word : ∀ j v, r.cells.trimmed.at? j = some v →
      r.trimmed.first.toInt = r.first.toInt + r.cells.skipped := fun j v found =>
    toInt_first fits Int64.ofInt_eq_ofNat.symm ((view j).symm.trans found)
  have fits' : r.trimmed.cells.Fits r.trimmed.first.toInt := by
    intro i v found
    have first := word i v found
    have := fits _ v ((view i).symm.trans found)
    omega
  refine ⟨⟨fits', r.cells.occupied_first_trimmed, Cells.occupied_last_withoutTail _⟩, ?_⟩
  rw [entries_eq]
  refine Cells.keyed_eq_of_read fits' (Cells.ascending_keyed fits) fun k => ?_
  rw [entries_eq, Cells.lookup_keyed fits]
  cases k with
  | int w =>
    refine (Cells.read_shift view word w).trans ?_
    split
    · rfl
    · rename_i below
      simp only [Cells.read]
      split
      · exact (r.cells.at?_skipped (by omega)).symm
      · rfl
  | _ => rfl

/-! ## Taking entries off the ends -/

structure Popped (r : Ring) (k : Key) (v : Value) (after : Option Value × Ring) : Prop where
  answer : after.1 = some v
  valid : after.2.Valid
  mem : (k, v) ∈ r.entries
  entries : after.2.entries = drop k r.entries
  limit : after.2.limit = r.limit

theorem size_eq_zero_iff : r.cells.isEmpty = true ↔ r.cells.size = 0 := by
  simp [Array.isEmpty]

theorem Valid.withoutFirst (valid : r.Valid) :
    r.withoutFirst.cells.Fits r.withoutFirst.first.toInt ∧
      r.withoutFirst.entries = drop (.int r.first) r.entries := by
  have view : ∀ j, r.withoutFirst.cells.at? j = r.cells.at? (1 + j) := by
    intro j
    rw [Ring.withoutFirst, Cells.at?_extract]
    split
    · rfl
    · exact (r.cells.at?_of_size_le (by omega)).symm
  have word : ∀ j u, r.withoutFirst.cells.at? j = some u →
      r.withoutFirst.first.toInt = r.first.toInt + (1 : Nat) := fun j _ found =>
    toInt_first valid.fits (d := 1) rfl ((view j).symm.trans found)
  have fits' : r.withoutFirst.cells.Fits r.withoutFirst.first.toInt := by
    intro i u foundI
    have first := word i u foundI
    have := valid.fits _ u ((view i).symm.trans foundI)
    omega
  refine ⟨fits', ?_⟩
  refine Cells.keyed_eq_of_read fits' (SortedMap.ascending_drop valid.ascending _) fun k => ?_
  rw [SortedMap.lookup_drop valid.ascending, entries_eq, Cells.lookup_keyed valid.fits]
  cases k with
  | int w =>
    have iff : w = r.first ↔ w.toInt = r.first.toInt := Int64.toInt_inj.symm
    refine (Cells.read_shift view word w).trans ?_
    simp only [Key.int.injEq, iff, Cells.read]
    split
    · exact (if_neg (c := w.toInt = r.first.toInt) (by omega)).symm
    · split
      · rfl
      · rw [if_neg (by omega)]
  | _ => rfl

theorem Valid.popFront (valid : r.Valid) :
    (r.entries = [] ∧ r.popFront = (none, r)) ∨
      ∃ k v, Popped r k v r.popFront ∧ ∀ e ∈ r.entries, compare e.1 k ≠ .lt := by
  unfold Ring.popFront
  by_cases empty : r.cells.isEmpty = true
  · rw [if_pos empty]
    have size := size_eq_zero_iff.mp empty
    exact Or.inl ⟨Cells.keyed_eq_nil fun j => r.cells.at?_of_size_le (by omega), rfl⟩
  · rw [if_neg empty]
    have occupied := valid.front fun size => empty (size_eq_zero_iff.mpr size)
    obtain ⟨v, found, mem, least⟩ :=
      Cells.keyed_least valid.fits occupied fun j below => absurd below (Nat.not_lt_zero j)
    have first : Key.int (Int64.ofInt (r.first.toInt + (0 : Nat))) = .int r.first := by
      simp
    rw [first] at mem least
    obtain ⟨fits', entries⟩ := valid.withoutFirst
    obtain ⟨valid', entries'⟩ := trimmed_spec fits'
    exact Or.inr ⟨_, v, ⟨found, valid', mem, entries'.trans entries, rfl⟩, least⟩

theorem Valid.popBack (valid : r.Valid) :
    (r.entries = [] ∧ r.popBack = (none, r)) ∨
      ∃ k v, Popped r k v r.popBack ∧ ∀ e ∈ r.entries, compare k e.1 ≠ .lt := by
  unfold Ring.popBack
  by_cases empty : r.cells.isEmpty = true
  · rw [if_pos empty]
    have size := size_eq_zero_iff.mp empty
    exact Or.inl ⟨Cells.keyed_eq_nil fun j => r.cells.at?_of_size_le (by omega), rfl⟩
  · rw [if_neg empty]
    have nonempty : r.cells.size ≠ 0 := fun size => empty (size_eq_zero_iff.mpr size)
    obtain ⟨v, found, mem, greatest⟩ := Cells.keyed_greatest valid.fits (valid.back nonempty)
      fun j above => r.cells.at?_of_size_le (by omega)
    have view : ∀ j, r.withoutLast.cells.at? j =
        if j = r.cells.size - 1 then none else r.cells.at? j := by
      intro j
      rw [withoutLast, Cells.at?_pop]
      by_cases last : j + 1 = r.cells.size
      · rw [if_pos last, if_pos (by omega)]
      · rw [if_neg last, if_neg (by omega)]
    have fits' : r.withoutLast.cells.Fits r.withoutLast.first.toInt := by
      intro i u foundI
      rw [view] at foundI
      split at foundI
      · simp at foundI
      · exact valid.fits i u foundI
    obtain ⟨valid', entries'⟩ := trimmed_spec fits'
    obtain ⟨low, high⟩ := valid.fits _ v found
    have entries : r.withoutLast.entries = drop _ r.entries :=
      Cells.keyed_drop valid.fits fits' (Cells.toInt_ofInt low high) view
    exact Or.inr ⟨_, v, ⟨found, valid', mem, entries'.trans entries, rfl⟩, greatest⟩

/-! ## Placing entries -/

structure Pushed (r : Ring) (k : Key) (v : Value) (pushed : Ring) : Prop where
  valid : pushed.Valid
  absent : lookup k r.entries = none
  entries : pushed.entries = SortedMap.put k v r.entries
  limit : pushed.limit = r.limit

theorem Valid.append (valid : r.Valid) {w : Int64} (next : w.toInt = r.stop) (v : Value) :
    Pushed r (.int w) v (r.append (some v)) := by
  have stop_eq := r.stop_eq
  have view := r.cells.at?_push (some v)
  have fits' : Cells.Fits r.first.toInt (r.cells.push (some v)) := by
    intro i u found
    rw [view] at found
    split at found
    · have low := Int64.le_toInt w
      have high := Int64.toInt_lt w
      omega
    · exact valid.fits i u found
  refine ⟨⟨fits', fun _ => ?_, fun _ => ?_⟩, ?_, ?_, rfl⟩
  · rw [Ring.append, Cells.occupied, view]
    split
    · rfl
    · exact valid.front (by omega)
  · simp only [Ring.append, Array.size_push, Nat.add_sub_cancel]
    rw [Cells.occupied, view, if_pos rfl]
    rfl
  · rw [← valid.get?_eq]
    simp only [get?, index?]
    rw [if_neg (by omega)]
    rfl
  · exact Cells.keyed_put valid.fits fits' (next.trans stop_eq) view

theorem toInt_first_prepend {w : Int64} (previous : w.toInt = r.first.toInt - 1) (v : Value) :
    (r.prepend v).first.toInt = r.first.toInt - 1 := by
  have low := Int64.le_toInt w
  have high := Int64.toInt_lt w
  have sum : (r.prepend v).first = r.first + Int64.ofInt (-1) := by
    rw [Ring.prepend, Int64.sub_eq_add_neg]
    rfl
  rw [sum, Cells.toInt_add rfl (by omega) (by omega)]
  rfl

theorem Valid.fits_prepend (valid : r.Valid) {w : Int64} (previous : w.toInt = r.first.toInt - 1)
    (v : Value) : (r.prepend v).cells.Fits (r.prepend v).first.toInt := by
  intro i u found
  rw [toInt_first_prepend previous]
  rw [Ring.prepend, r.cells.at?_pushFront v] at found
  split at found
  · have low := Int64.le_toInt w
    have high := Int64.toInt_lt w
    omega
  · have := valid.fits _ u found
    omega

theorem Valid.entries_prepend (valid : r.Valid) {w : Int64}
    (previous : w.toInt = r.first.toInt - 1) (v : Value) :
    (r.prepend v).entries = SortedMap.put (.int w) v r.entries := by
  have first := toInt_first_prepend previous v
  refine Cells.keyed_eq_of_read (valid.fits_prepend previous v)
    (SortedMap.ascending_put valid.ascending _ _) fun k => ?_
  rw [SortedMap.lookup_put valid.ascending, entries_eq, Cells.lookup_keyed valid.fits, first]
  cases k with
  | int u =>
    have iff : u = w ↔ u.toInt = r.first.toInt - 1 := by
      rw [← Int64.toInt_inj, previous]
    simp only [Ring.prepend, Cells.read, r.cells.at?_pushFront v, Key.int.injEq, iff]
    by_cases here : u.toInt = r.first.toInt - 1
    · have position : (u.toInt - (r.first.toInt - 1)).toNat = 0 := by omega
      rw [if_pos here, if_pos (by omega), if_pos position]
    · rw [if_neg here]
      by_cases above : r.first.toInt ≤ u.toInt
      · have position : (u.toInt - (r.first.toInt - 1)).toNat - 1 =
            (u.toInt - r.first.toInt).toNat := by omega
        rw [if_pos above, if_pos (by omega), if_neg (by omega), position]
      · rw [if_neg above, if_neg (by omega)]
  | _ => rfl

theorem Valid.prepend (valid : r.Valid) {w : Int64} (previous : w.toInt = r.first.toInt - 1)
    (v : Value) : Pushed r (.int w) v (r.prepend v) := by
  have view := r.cells.at?_pushFront v
  refine ⟨⟨valid.fits_prepend previous v, fun _ => ?_, fun _ => ?_⟩, ?_,
    valid.entries_prepend previous v, rfl⟩
  · rw [Ring.prepend, Cells.occupied, view, if_pos rfl]
    rfl
  · have size : (#[some v] ++ r.cells).size - 1 = r.cells.size := by
      simp only [Array.size_append, List.size_toArray, List.length_cons, List.length_nil]
      omega
    rw [Ring.prepend, Cells.occupied, view, size]
    split
    · rfl
    · exact valid.back (by omega)
  · rw [← valid.get?_eq]
    simp only [get?, index?]
    rw [if_neg (by omega)]
    rfl

def Stored (r : Ring) (k : Key) (v : Value) (old : Option Value) (after : Ring) : Prop :=
  after.Valid ∧ after.limit = r.limit ∧
    ((old = lookup k r.entries ∧ after.entries = SortedMap.put k v r.entries) ∨
      (r.limit ≠ none ∧ lookup k r.entries = none ∧ ∃ k' w, old = some w ∧
        (k', w) ∈ SortedMap.put k v r.entries ∧
        after.entries = drop k' (SortedMap.put k v r.entries)))

theorem Pushed.stored {k : Key} {v : Value} {pushed : Ring} (push : Pushed r k v pushed) :
    Stored r k v none pushed :=
  ⟨push.valid, push.limit, Or.inl ⟨push.absent.symm, push.entries⟩⟩

theorem Pushed.evicted {k k' : Key} {v w : Value} {pushed : Ring} {after : Option Value × Ring}
    (push : Pushed r k v pushed) (excess : pushed.overLimit = true) (pop : Popped pushed k' w after) :
    Stored r k v after.1 after.2 := by
  have limited : r.limit ≠ none := by
    intro none
    simp [overLimit, push.limit, none] at excess
  refine ⟨pop.valid, pop.limit.trans push.limit,
    Or.inr ⟨limited, push.absent, k', w, pop.answer, ?_, ?_⟩⟩
  · rw [← push.entries]
    exact pop.mem
  · rw [← push.entries]
    exact pop.entries

theorem Pushed.entries_ne_nil {k : Key} {v : Value} {pushed : Ring} (push : Pushed r k v pushed)
    (valid : r.Valid) : pushed.entries ≠ [] := by
  intro none
  have found := SortedMap.lookup_put valid.ascending k v k
  rw [← push.entries, none] at found
  simp [lookup] at found

theorem Valid.pushBack (valid : r.Valid) {w : Int64} (next : w.toInt = r.stop) (v : Value) :
    Stored r (.int w) v (r.pushBack v).1 (r.pushBack v).2 := by
  have push := valid.append next v
  unfold Ring.pushBack
  simp only
  split
  · rename_i excess
    rcases push.valid.popFront with ⟨none, -⟩ | ⟨k', u, pop, -⟩
    · exact absurd none (push.entries_ne_nil valid)
    · exact push.evicted excess pop
  · exact push.stored

theorem Valid.pushFront (valid : r.Valid) {w : Int64} (previous : w.toInt = r.first.toInt - 1)
    (v : Value) : Stored r (.int w) v (r.pushFront v).1 (r.pushFront v).2 := by
  have push := valid.prepend previous v
  unfold Ring.pushFront
  simp only
  split
  · rename_i excess
    rcases push.valid.popBack with ⟨none, -⟩ | ⟨k', u, pop, -⟩
    · exact absurd none (push.entries_ne_nil valid)
    · exact push.evicted excess pop
  · exact push.stored

theorem Valid.moved (valid : r.Valid) (empty : r.cells.isEmpty = true) (first : Int64) :
    Valid { r with first } ∧ entries { r with first } = [] ∧ r.entries = [] := by
  have size := size_eq_zero_iff.mp empty
  have vacant : ∀ j, r.cells.at? j = none := fun j => r.cells.at?_of_size_le (by omega)
  refine ⟨⟨?_, valid.front, valid.back⟩, Cells.keyed_eq_nil vacant, Cells.keyed_eq_nil vacant⟩
  intro i v found
  simp [vacant] at found

theorem Valid.overwritten (valid : r.Valid) {k : Key} {i : Nat} (found : r.index? k = some i)
    (v : Value) :
    (r.store i v).Valid ∧ r.cells.at? i = lookup k r.entries ∧
      (r.store i v).entries = SortedMap.put k v r.entries := by
  obtain ⟨inside, w, rfl, word⟩ := index?_eq_some found
  have view := r.cells.at?_put i v
  have size := r.cells.size_put_of_lt v inside
  have kept : ∀ j, r.cells.occupied j = true → (r.cells.put i v).occupied j = true := by
    intro j occupied
    rw [Cells.occupied, view]
    split
    · rfl
    · exact occupied
  have fits' : (r.cells.put i v).Fits r.first.toInt := by
    intro j u foundJ
    rw [view] at foundJ
    split at foundJ
    · have low := Int64.le_toInt w
      have high := Int64.toInt_lt w
      omega
    · exact valid.fits j u foundJ
  refine ⟨⟨fits', fun nonempty => ?_, fun nonempty => ?_⟩, ?_, ?_⟩
  · simp only [store, size] at nonempty
    exact kept _ (valid.front nonempty)
  · simp only [store, size] at nonempty ⊢
    exact kept _ (valid.back nonempty)
  · rw [← valid.get?_eq]
    simp [get?, found]
  · exact Cells.keyed_put valid.fits fits' word view

/-- How a ring takes an entry: a cell between its ends is overwritten, or the entry is pushed at one
of them. An empty ring is moved to the key first. -/
inductive Placed (r : Ring) (v : Value) : Key → Option Value → Ring → Prop where
  | overwrites {k : Key} {i : Nat} (found : r.index? k = some i) :
      Placed r v k (r.cells.at? i) (r.store i v)
  | begins {w : Int64} (absent : r.index? (.int w) = none) (empty : r.cells.isEmpty = true) :
      Placed r v (.int w) (Ring.pushBack { r with first := w } v).1
        (Ring.pushBack { r with first := w } v).2
  | behind {w : Int64} (absent : r.index? (.int w) = none) (next : w.toInt = r.stop) :
      Placed r v (.int w) (r.pushBack v).1 (r.pushBack v).2
  | before {w : Int64} (absent : r.index? (.int w) = none) (previous : w.toInt = r.first.toInt - 1) :
      Placed r v (.int w) (r.pushFront v).1 (r.pushFront v).2

theorem placed_of_place {k : Key} {v : Value} {old : Option Value} {after : Ring}
    (placed : r.place k v = .stored old after) : r.Placed v k old after := by
  cases k with
  | int w =>
    unfold place at placed
    simp only at placed
    cases found : r.index? (.int w) with
    | some i =>
      rw [found] at placed
      cases placed
      exact .overwrites found
    | none =>
      simp only [found] at placed
      split at placed
      · rename_i empty
        cases placed
        exact .begins found empty
      · split at placed
        · rename_i next
          cases placed
          exact .behind found next
        · split at placed
          · rename_i previous
            cases placed
            exact .before found previous
          · cases placed
  | _ => simp [place] at placed

theorem Valid.begins (valid : r.Valid) (empty : r.cells.isEmpty = true) (w : Int64) :
    Valid { r with first := w } ∧ w.toInt = stop { r with first := w } := by
  have size := size_eq_zero_iff.mp empty
  exact ⟨(valid.moved empty w).1, by simp [stop_eq, size]⟩

theorem Valid.place_stored (valid : r.Valid) {k : Key} {v : Value} {old : Option Value}
    {after : Ring} (placed : r.place k v = .stored old after) : Stored r k v old after := by
  cases placed_of_place placed with
  | overwrites found =>
    obtain ⟨valid', old, entries⟩ := valid.overwritten found v
    exact ⟨valid', rfl, .inl ⟨old, entries⟩⟩
  | @begins w _ empty =>
    obtain ⟨-, entries', entries⟩ := valid.moved empty w
    obtain ⟨valid', next⟩ := valid.begins empty w
    have stored := valid'.pushBack next v
    unfold Stored at stored ⊢
    rw [entries'] at stored
    rw [entries]
    exact stored
  | behind _ next => exact valid.pushBack next v
  | before _ previous => exact valid.pushFront previous v

theorem place_ne_needs (k : Key) (v : Value) (capacity : Nat) : r.place k v ≠ .needs capacity := by
  cases k with
  | int w =>
    unfold place
    simp only
    split
    · simp
    · split
      · simp
      · split
        · simp
        · split <;> simp
  | _ => simp [place]

/-! ## Removing, visiting and rebuilding -/

theorem Valid.remove (valid : r.Valid) (k : Key) :
    (r.remove k).2.Valid ∧ (r.remove k).2.limit = r.limit ∧
      (r.remove k).1 = lookup k r.entries ∧ (r.remove k).2.entries = drop k r.entries := by
  unfold Ring.remove
  cases got : r.get? k with
  | none =>
    have absent := (valid.get?_eq k).symm.trans got
    refine ⟨valid, rfl, absent.symm, ?_⟩
    rw [SortedMap.drop_eq_self absent]
  | some v =>
    have found := (valid.get?_eq k).symm.trans got
    cases index : r.index? k with
    | none => simp [get?, index] at got
    | some i =>
      obtain ⟨inside, w, rfl, word⟩ := index?_eq_some index
      have view := r.cells.at?_clear i
      have fits' : (r.vacated i).cells.Fits r.first.toInt := by
        intro j u foundJ
        rw [vacated, view] at foundJ
        split at foundJ
        · simp at foundJ
        · exact valid.fits j u foundJ
      obtain ⟨valid', entries'⟩ := trimmed_spec (r := r.vacated i) fits'
      exact ⟨valid', rfl, found.symm,
        entries'.trans (Cells.keyed_drop valid.fits fits' word view)⟩

theorem Valid.firstKey? (valid : r.Valid) : SortedMap.IsFirst r.entries r.firstKey? := by
  unfold Ring.firstKey?
  by_cases empty : r.cells.isEmpty = true
  · simp only [empty, if_true]
    exact (valid.moved empty 0).2.2
  · obtain ⟨v, -, mem, least⟩ := Cells.keyed_least valid.fits
      (valid.front fun size => empty (size_eq_zero_iff.mpr size))
      fun j below => absurd below (Nat.not_lt_zero j)
    simp only [Int.natCast_zero, Int.add_zero, Int64.ofInt_toInt] at mem least
    simp only [empty, Bool.false_eq_true, if_false]
    exact ⟨v, mem, least⟩

theorem Valid.lastKey? (valid : r.Valid) : SortedMap.IsLast r.entries r.lastKey? := by
  unfold Ring.lastKey?
  by_cases empty : r.cells.isEmpty = true
  · simp only [empty, if_true]
    exact (valid.moved empty 0).2.2
  · have nonempty : r.cells.size ≠ 0 := fun size => empty (size_eq_zero_iff.mpr size)
    obtain ⟨v, -, mem, greatest⟩ := Cells.keyed_greatest valid.fits (valid.back nonempty)
      fun j above => r.cells.at?_of_size_le (by omega)
    simp only [empty, Bool.false_eq_true, if_false]
    exact ⟨v, mem, greatest⟩

theorem foldl_append (r : Ring) (row : List (Option Value)) :
    (row.foldl Ring.append r).cells = r.cells ++ row.toArray ∧
      (row.foldl Ring.append r).first = r.first ∧ (row.foldl Ring.append r).limit = r.limit ∧
      (row.foldl Ring.append r).capacity = r.capacity := by
  induction row generalizing r with
  | nil => exact ⟨by simp, rfl, rfl, rfl⟩
  | cons cell row ih =>
    obtain ⟨cells, rest⟩ := ih (r.append cell)
    refine ⟨?_, rest⟩
    rw [List.foldl_cons, cells]
    simp [Ring.append]

theorem isSome_get? {w : Int64} {i : Nat}
    (word : w.toInt = r.first.toInt + i) (occupied : r.cells.occupied i = true) :
    (r.get? (.int w)).isSome := by
  obtain ⟨v, found⟩ := r.cells.occupied_iff.mp occupied
  have stop_eq := r.stop_eq
  have inside : i < r.cells.size := by
    refine Nat.lt_of_not_le fun outside => ?_
    rw [r.cells.at?_of_size_le outside] at found
    cases found
  have position : (w.toInt - r.first.toInt).toNat = i := by omega
  simp only [get?, index?, if_pos (show r.first.toInt ≤ w.toInt ∧ w.toInt < r.stop by omega),
    Option.bind_some, position]
  exact occupied

/-- The integer behind the keys is no word exactly if the greatest word is a key. -/
theorem Valid.stop_le_iff (valid : r.Valid) :
    2 ^ 63 ≤ r.stop ↔ (r.get? (.int Int64.maxValue)).isSome = true := by
  have stop_eq := r.stop_eq
  have greatest : Int64.maxValue.toInt = 2 ^ 63 - 1 := by decide
  have high := Int64.toInt_lt r.first
  constructor
  · intro past
    have occupied := valid.back (by omega)
    obtain ⟨v, found⟩ := r.cells.occupied_iff.mp occupied
    have := (valid.fits _ v found).2
    exact isSome_get? (i := r.cells.size - 1) (by omega) occupied
  · intro held
    obtain ⟨v, found⟩ := Option.isSome_iff_exists.mp held
    obtain ⟨i, index, -⟩ := Option.bind_eq_some_iff.mp found
    obtain ⟨inside, w, same, word⟩ := index?_eq_some index
    cases same
    omega

/-- Uses of the keys, other than a step from a probe, stay within the words unless an entry is under
the greatest or the least word. -/
theorem Valid.held_of_overflows (valid : r.Valid) {use : Use} (overflow : r.overflows use = true)
    (stays : ∀ k, use ≠ .next k ∧ use ≠ .prev k) :
    (r.get? (.int Int64.maxValue)).isSome ∨ (r.get? (.int Int64.minValue)).isSome := by
  have least : Int64.minValue.toInt = -(2 ^ 63) := by decide
  have greatest : Int64.maxValue.toInt = 2 ^ 63 - 1 := by decide
  cases use with
  | read k =>
    cases k <;> simp only [overflows, Key.int?, Option.any_some, Option.any_none, decide_eq_true_eq,
      Bool.false_eq_true] at overflow
    exact .inl (valid.stop_le_iff.mp overflow.2)
  | write k =>
    cases k <;> simp only [overflows, Key.int?, Option.any_some, Option.any_none, decide_eq_true_eq,
      Bool.false_eq_true] at overflow
    rcases overflow with past | ⟨nonempty, low, -⟩
    · exact .inl (valid.stop_le_iff.mp past)
    · exact .inr (isSome_get? (i := 0) (by omega) (valid.front nonempty))
  | behind =>
    simp only [overflows, decide_eq_true_eq] at overflow
    exact .inl (valid.stop_le_iff.mp overflow.2)
  | before =>
    simp only [overflows, decide_eq_true_eq] at overflow
    exact .inr (isSome_get? (i := 0) (by omega) (valid.front overflow.1))
  | next k => exact absurd rfl (stays k).1
  | prev k => exact absurd rfl (stays k).2
  | popFront =>
    simp only [overflows, decide_eq_true_eq] at overflow
    exact .inl (isSome_get? (i := 0) (by omega) (valid.front overflow.1))

theorem first_rebuild (r target : Ring) (values : List Value) :
    (r.rebuild target values).first = r.first :=
  (foldl_append _ _).2.1

theorem limit_rebuild (r target : Ring) (values : List Value) :
    (r.rebuild target values).limit = r.limit :=
  (foldl_append _ _).2.2.1

theorem capacity_rebuild (r target : Ring) (values : List Value) :
    (r.rebuild target values).capacity = target.capacity :=
  (foldl_append _ _).2.2.2

theorem cells_rebuild (r : Ring) (capacity : Nat) (values : List Value) :
    (r.rebuild (Pooled.fresh capacity) values).cells =
      (Cells.refill r.cells.toList values).toArray :=
  (foldl_append _ _).1.trans Array.empty_append

theorem Valid.rebuild (valid : r.Valid) (capacity : Nat) {values : List Value}
    (length : values.length = r.size) :
    (r.rebuild (Pooled.fresh capacity) values).Valid ∧
      (r.rebuild (Pooled.fresh capacity) values).limit = r.limit ∧
      (r.rebuild (Pooled.fresh capacity) values).entries = (r.entries.map Prod.fst).zip values := by
  have cells := r.cells_rebuild capacity values
  have first := r.first_rebuild (Pooled.fresh capacity) values
  have size : (Cells.refill r.cells.toList values).toArray.size = r.cells.size := by
    simp [Cells.length_refill]
  have count := length.trans r.live_eq
  have occupied := r.cells.occupied_refill count
  refine ⟨⟨?_, ?_, ?_⟩, limit_rebuild .., ?_⟩
  · intro i v found
    rw [cells] at found
    have here : r.cells.occupied i = true := by
      rw [← occupied, Cells.occupied_iff]
      exact ⟨v, found⟩
    obtain ⟨w, foundW⟩ := r.cells.occupied_iff.mp here
    rw [first]
    exact valid.fits i w foundW
  · rw [cells, size, occupied]
    exact valid.front
  · rw [cells, size, occupied]
    exact valid.back
  · rw [entries_eq, cells, first]
    exact Cells.keyed_zip (r.cells.entries_refill count)

theorem valid_fresh (capacity : Nat) (limit : Option Nat) :
    Valid { (Pooled.fresh capacity : Ring) with limit } :=
  ⟨fun i v found => by simp [Pooled.fresh, vacant, Cells.at?_empty] at found,
    fun h => by simp [Pooled.fresh, vacant] at h,
    fun h => by simp [Pooled.fresh, vacant] at h⟩

instance : LawfulPooled Ring := ⟨fun _ => rfl, fun _ => rfl⟩

end ScriptMachine.Ring
