import ScriptMachine.Proofs.Order.SortedMap
import ScriptMachine.Proofs.Pool
import ScriptMachine.Proofs.Structure.Cells
import ScriptMachine.Proofs.Value.KeyOrder
import ScriptMachine.Structure.Dense

/-!
# Rows under integer keys

A row of cells from an integer on is a list of entries under integer keys, and a lookup in that list
reads one cell. Both positional layouts are such rows; a dense row starts at zero.
-/

set_option autoImplicit false

namespace ScriptMachine

open SortedMap (Ascending lookup put drop)

namespace Cells

/-- The entries of a row whose first cell is under a given integer. -/
def keyed (base : Int) (cells : Cells) : List (Key × Value) :=
  cells.entries.map fun (i, v) => (.int (Int64.ofInt (base + i)), v)

def read (base : Int) (cells : Cells) : Key → Option Value
  | .int w => if base ≤ w.toInt then cells.at? (w.toInt - base).toNat else none
  | _ => none

def Fits (base : Int) (cells : Cells) : Prop :=
  ∀ (i : Nat) (v : Value), cells.at? i = some v → -(2 ^ 63) ≤ base + i ∧ base + i < 2 ^ 63

theorem toInt_ofInt {i : Int} (low : -(2 ^ 63) ≤ i) (high : i < 2 ^ 63) :
    (Int64.ofInt i).toInt = i :=
  Int64.toInt_ofInt_of_le low high

theorem toInt_add {w d : Int64} {i : Int} (shift : d = Int64.ofInt i)
    (low : -(2 ^ 63) ≤ w.toInt + i) (high : w.toInt + i < 2 ^ 63) :
    (w + d).toInt = w.toInt + i := by
  have sum : w + d = Int64.ofInt (w.toInt + i) := by
    rw [Int64.ofInt_add, Int64.ofInt_toInt, shift]
  rw [sum, toInt_ofInt low high]

variable {base : Int} {cells : Cells}

theorem mem_keyed {k : Key} {v : Value} :
    (k, v) ∈ cells.keyed base ↔
      ∃ i : Nat, k = .int (Int64.ofInt (base + i)) ∧ cells.at? i = some v := by
  simp only [keyed, List.mem_map, Prod.exists, Prod.mk.injEq]
  constructor
  · rintro ⟨i, w, mem, rfl, rfl⟩
    exact ⟨i, rfl, cells.mem_entries.mp mem⟩
  · rintro ⟨i, rfl, found⟩
    exact ⟨i, v, cells.mem_entries.mpr found, rfl, rfl⟩

theorem ascending_keyed (fits : cells.Fits base) : Ascending (cells.keyed base) := by
  refine List.pairwise_map.mpr (cells.pairwise_entries.imp_of_mem ?_)
  rintro ⟨i, v⟩ ⟨j, w⟩ memI memJ lt
  have boundI := fits i v (cells.mem_entries.mp memI)
  have boundJ := fits j w (cells.mem_entries.mp memJ)
  show compare (Int64.ofInt (base + i)).toInt (Int64.ofInt (base + j)).toInt = .lt
  rw [toInt_ofInt boundI.1 boundI.2, toInt_ofInt boundJ.1 boundJ.2]
  exact Std.compare_eq_lt.mpr (by simp only at lt; omega)

theorem lookup_keyed (fits : cells.Fits base) (k : Key) :
    lookup k (cells.keyed base) = cells.read base k := by
  apply Option.ext
  intro v
  rw [SortedMap.lookup_eq_some_iff (ascending_keyed fits), mem_keyed]
  constructor
  · rintro ⟨i, rfl, found⟩
    obtain ⟨low, high⟩ := fits i v found
    have position : (base + (i : Int) - base).toNat = i := by omega
    simp only [read, toInt_ofInt low high, position, found]
    rw [if_pos (by omega)]
  · intro found
    cases k with
    | int w =>
      simp only [read] at found
      split at found
      · rename_i above
        refine ⟨(w.toInt - base).toNat, ?_, found⟩
        have back : base + ((w.toInt - base).toNat : Int) = w.toInt := by omega
        rw [back, Int64.ofInt_toInt]
      · simp at found
    | _ => simp [read] at found

theorem keyed_eq_of_read {entries : List (Key × Value)} (fits : cells.Fits base)
    (ascending : Ascending entries) (same : ∀ k, cells.read base k = lookup k entries) :
    cells.keyed base = entries :=
  SortedMap.eq_of_lookup_eq (ascending_keyed fits) ascending fun k => by
    rw [lookup_keyed fits, same]

theorem read_change {cells' : Cells} {w : Int64} {i : Nat} {x : Option Value}
    (word : w.toInt = base + i) (view : ∀ j, cells'.at? j = if j = i then x else cells.at? j)
    (k : Key) : cells'.read base k = if k = .int w then x else cells.read base k := by
  cases k with
  | int u =>
    by_cases same : u = w
    · subst same
      have position : (u.toInt - base).toNat = i := by omega
      simp only [read, view, position, if_true]
      rw [if_pos (by omega)]
    · have other : u.toInt ≠ base + i := fun eq => same (Int64.toInt_inj.mp (by omega))
      simp only [read, view, Key.int.injEq, same, if_false]
      split
      · rw [if_neg (by omega)]
      · rfl
  | _ => simp [read]

theorem keyed_put {cells' : Cells} {w : Int64} {i : Nat} {v : Value} (fits : cells.Fits base)
    (fits' : cells'.Fits base) (word : w.toInt = base + i)
    (view : ∀ j, cells'.at? j = if j = i then some v else cells.at? j) :
    cells'.keyed base = SortedMap.put (.int w) v (cells.keyed base) := by
  refine keyed_eq_of_read fits' (SortedMap.ascending_put (ascending_keyed fits) _ _) fun k => ?_
  rw [SortedMap.lookup_put (ascending_keyed fits), lookup_keyed fits, read_change word view]

theorem keyed_drop {cells' : Cells} {w : Int64} {i : Nat} (fits : cells.Fits base)
    (fits' : cells'.Fits base) (word : w.toInt = base + i)
    (view : ∀ j, cells'.at? j = if j = i then none else cells.at? j) :
    cells'.keyed base = drop (.int w) (cells.keyed base) := by
  refine keyed_eq_of_read fits' (SortedMap.ascending_drop (ascending_keyed fits) _) fun k => ?_
  rw [SortedMap.lookup_drop (ascending_keyed fits), lookup_keyed fits, read_change word view]

/-- A row that lost its first cells is read as it was behind them. Where it begins does not matter
if nothing is left of it. -/
theorem read_shift {cells' : Cells} {base' : Int} {n : Nat}
    (view : ∀ j, cells'.at? j = cells.at? (n + j))
    (word : ∀ j v, cells'.at? j = some v → base' = base + n) (w : Int64) :
    cells'.read base' (.int w) =
      if base + n ≤ w.toInt then cells.read base (.int w) else none := by
  have later : base + n ≤ w.toInt →
      cells.read base (.int w) = cells'.at? (w.toInt - (base + n)).toNat := by
    intro above
    have position : n + (w.toInt - (base + n)).toNat = (w.toInt - base).toNat := by omega
    rw [view, position]
    exact if_pos (by omega)
  by_cases vacant : ∀ j, cells'.at? j = none
  · have none : cells'.read base' (.int w) = none := by
      simp only [read, vacant, ite_self]
    rw [none]
    split
    · rename_i above
      rw [later above, vacant]
    · rfl
  · obtain ⟨j, held⟩ := Classical.not_forall.mp vacant
    obtain ⟨v, found⟩ := Option.ne_none_iff_exists'.mp held
    obtain rfl := word j v found
    split
    · rename_i above
      rw [later above]
      exact if_pos above
    · rename_i below
      exact if_neg below

theorem keyed_least (fits : cells.Fits base) {i : Nat} (occupied : cells.occupied i = true)
    (first : ∀ j, j < i → cells.at? j = none) :
    ∃ v, cells.at? i = some v ∧ (Key.int (Int64.ofInt (base + i)), v) ∈ cells.keyed base ∧
      ∀ e ∈ cells.keyed base, compare e.1 (Key.int (Int64.ofInt (base + i))) ≠ .lt := by
  obtain ⟨v, found⟩ := cells.occupied_iff.mp occupied
  refine ⟨v, found, mem_keyed.mpr ⟨i, rfl, found⟩, ?_⟩
  rintro ⟨k, u⟩ mem
  obtain ⟨j, rfl, foundJ⟩ := mem_keyed.mp mem
  have notBelow : i ≤ j := by
    rcases Nat.lt_or_ge j i with below | above
    · simp [first j below] at foundJ
    · exact above
  obtain ⟨low, high⟩ := fits i v found
  obtain ⟨lowJ, highJ⟩ := fits j u foundJ
  show compare (Int64.ofInt (base + j)).toInt (Int64.ofInt (base + i)).toInt ≠ .lt
  rw [toInt_ofInt low high, toInt_ofInt lowJ highJ]
  intro lt
  have := Std.compare_eq_lt.mp lt
  omega

theorem keyed_greatest (fits : cells.Fits base) {i : Nat} (occupied : cells.occupied i = true)
    (last : ∀ j, i < j → cells.at? j = none) :
    ∃ v, cells.at? i = some v ∧ (Key.int (Int64.ofInt (base + i)), v) ∈ cells.keyed base ∧
      ∀ e ∈ cells.keyed base, compare (Key.int (Int64.ofInt (base + i))) e.1 ≠ .lt := by
  obtain ⟨v, found⟩ := cells.occupied_iff.mp occupied
  refine ⟨v, found, mem_keyed.mpr ⟨i, rfl, found⟩, ?_⟩
  rintro ⟨k, u⟩ mem
  obtain ⟨j, rfl, foundJ⟩ := mem_keyed.mp mem
  have notAbove : j ≤ i := by
    rcases Nat.lt_or_ge i j with above | below
    · simp [last j above] at foundJ
    · exact below
  obtain ⟨low, high⟩ := fits i v found
  obtain ⟨lowJ, highJ⟩ := fits j u foundJ
  show compare (Int64.ofInt (base + i)).toInt (Int64.ofInt (base + j)).toInt ≠ .lt
  rw [toInt_ofInt low high, toInt_ofInt lowJ highJ]
  intro lt
  have := Std.compare_eq_lt.mp lt
  omega

theorem keyed_eq_nil (vacant : ∀ j, cells.at? j = none) : cells.keyed base = [] := by
  apply List.eq_nil_iff_forall_not_mem.mpr
  rintro ⟨k, v⟩ mem
  obtain ⟨i, -, found⟩ := mem_keyed.mp mem
  simp [vacant] at found

theorem keyed_zip {cells' : Cells} {values : List Value}
    (entries : cells'.entries = (cells.entries.map Prod.fst).zip values) :
    cells'.keyed base = ((cells.keyed base).map Prod.fst).zip values := by
  have step : ∀ (positions : List Nat) (values : List Value),
      (positions.zip values).map (fun (i, v) => (Key.int (Int64.ofInt (base + i)), v)) =
        (positions.map fun i => Key.int (Int64.ofInt (base + (i : Nat)))).zip values := by
    intro positions values
    rw [List.zip_map_left]
    rfl
  simp only [keyed, entries, step, List.map_map]
  rfl

end Cells

namespace Dense

variable {d : Dense}

/-- No entry is past the limit of dense rows. -/
def Valid (d : Dense) : Prop := ∀ (i : Nat) (v : Value), d.cells.at? i = some v → i < limit

theorem Valid.fits (valid : d.Valid) : d.cells.Fits 0 := by
  intro i v found
  have := valid i v found
  simp only [limit] at this
  omega

theorem keyAt_eq (i : Nat) : keyAt i = .int (Int64.ofInt (0 + i)) := by
  rw [keyAt, Int.zero_add, Int64.ofInt_eq_ofNat]

theorem entries_eq (d : Dense) : d.entries = d.cells.keyed 0 := by
  simp only [entries, Cells.keyed, keyAt_eq]

theorem entries_congr {d' : Dense} (same : ∀ i, d.cells.at? i = d'.cells.at? i) :
    d.entries = d'.entries := by
  rw [entries, entries, Cells.entries_congr same]

theorem Valid.ascending (valid : d.Valid) : Ascending d.entries := by
  rw [entries_eq]
  exact Cells.ascending_keyed valid.fits

theorem index?_eq_some {k : Key} {i : Nat} (found : index? k = some i) :
    i < limit ∧ ∃ w, k = .int w ∧ w.toInt = i := by
  cases k with
  | int w =>
    simp only [index?] at found
    split at found
    · simp only [Option.some.injEq] at found
      exact ⟨by omega, w, rfl, by omega⟩
    · simp at found
  | _ => simp [index?] at found

theorem Valid.get?_eq (valid : d.Valid) (k : Key) : d.get? k = lookup k d.entries := by
  rw [entries_eq, Cells.lookup_keyed valid.fits]
  cases k with
  | int w =>
    simp only [get?, index?, Cells.read, Int.sub_zero]
    by_cases inside : 0 ≤ w.toInt ∧ w.toInt < limit
    · simp [inside]
    · rw [if_neg inside]
      split
      · cases found : d.cells.at? w.toInt.toNat with
        | none => rfl
        | some v =>
          have := valid _ v found
          omega
      · rfl
  | _ => simp [get?, index?, Cells.read]

theorem size_eq (d : Dense) : d.size = d.entries.length := by
  rw [size, d.len_eq, Cells.count_eq, entries, List.length_map]

theorem values_eq (d : Dense) : d.values = d.entries.map Prod.snd := by
  rw [values, Cells.values_eq, entries, List.map_map]
  rfl

theorem Valid.store (valid : d.Valid) {i : Nat} (inside : i < limit) (v : Value) :
    (d.store i v).Valid := by
  intro j u found
  rw [Dense.store, Cells.at?_put] at found
  split at found
  · omega
  · exact valid j u found

theorem Valid.place_stored (valid : d.Valid) {k : Key} {v : Value} {old : Option Value} {d' : Dense}
    (placed : d.place k v = .stored old d') :
    d'.Valid ∧ old = lookup k d.entries ∧ d'.entries = put k v d.entries := by
  unfold place at placed
  cases found : index? k with
  | none => simp [found] at placed
  | some i =>
    simp only [found] at placed
    split at placed
    · simp at placed
    · simp only [Placement.stored.injEq] at placed
      obtain ⟨rfl, rfl⟩ := placed
      obtain ⟨inside, w, rfl, word⟩ := index?_eq_some found
      have valid' := valid.store inside v
      refine ⟨valid', ?_, ?_⟩
      · rw [← valid.get?_eq]
        simp [get?, found]
      · rw [entries_eq, entries_eq]
        exact Cells.keyed_put (w := w) (i := i) valid.fits valid'.fits (by omega)
          (d.cells.at?_put i v)

/-- A row that is too short asks for enough cells. -/
theorem place_needs {k : Key} {v : Value} {capacity : Nat}
    (placed : d.place k v = .needs capacity) :
    ∃ i, index? k = some i ∧ i < capacity ∧ d.capacity ≤ capacity := by
  unfold place at placed
  cases found : index? k with
  | none => simp [found] at placed
  | some i =>
    simp only [found] at placed
    split at placed
    · simp only [Placement.needs.injEq] at placed
      exact ⟨i, rfl, by omega, by omega⟩
    · simp at placed

theorem place_of_room {k : Key} {i : Nat} (found : index? k = some i) (room : i < d.capacity)
    (v : Value) : ∃ old d', d.place k v = .stored old d' := by
  unfold place
  rw [found]
  simp only
  rw [if_neg (by omega)]
  exact ⟨_, _, rfl⟩

theorem Valid.remove (valid : d.Valid) (k : Key) :
    (d.remove k).2.Valid ∧ (d.remove k).1 = lookup k d.entries ∧
      (d.remove k).2.entries = drop k d.entries := by
  unfold Dense.remove
  cases got : d.get? k with
  | none =>
    have absent := (valid.get?_eq k).symm.trans got
    refine ⟨valid, absent.symm, ?_⟩
    rw [SortedMap.drop_eq_self absent]
  | some v =>
    have found := (valid.get?_eq k).symm.trans got
    cases index : index? k with
    | none => simp [get?, index] at got
    | some i =>
      obtain ⟨inside, w, rfl, word⟩ := index?_eq_some index
      have view := d.cells.at?_clear i
      have valid' : (d.vacated i).Valid := by
        intro j u foundJ
        rw [vacated, view] at foundJ
        split at foundJ
        · simp at foundJ
        · exact valid j u foundJ
      refine ⟨valid', found.symm, ?_⟩
      rw [entries_eq, entries_eq]
      exact Cells.keyed_drop valid.fits valid'.fits (by omega) view

theorem vacant_of_len (empty : d.len = 0) (i : Nat) : d.cells.at? i = none :=
  (Cells.count_eq_zero_iff _).mp (d.len_eq ▸ empty) i

theorem Valid.firstKey? (valid : d.Valid) : SortedMap.IsFirst d.entries d.firstKey? := by
  unfold Dense.firstKey?
  rw [entries_eq]
  by_cases empty : d.len = 0
  · rw [if_pos empty]
    exact Cells.keyed_eq_nil (vacant_of_len empty)
  · rw [if_neg empty]
    cases found : d.cells.firstFrom 0 with
    | none =>
      exact Cells.keyed_eq_nil fun j => d.cells.firstFrom_eq_none found j (Nat.zero_le j)
    | some i =>
      obtain ⟨-, -, occupied, first⟩ := d.cells.firstFrom_eq_some found
      obtain ⟨v, -, mem, least⟩ :=
        Cells.keyed_least valid.fits occupied fun j below => first j (Nat.zero_le j) below
      simp only [Option.map_some, keyAt_eq]
      exact ⟨v, mem, least⟩

theorem Valid.lastKey? (valid : d.Valid) : SortedMap.IsLast d.entries d.lastKey? := by
  unfold Dense.lastKey?
  rw [entries_eq, d.high_eq]
  cases found : d.cells.last? with
  | none => exact Cells.keyed_eq_nil fun j => d.cells.last?_eq_none found
  | some i =>
    obtain ⟨-, occupied, beyond⟩ := d.cells.last?_eq_some found
    obtain ⟨v, -, mem, greatest⟩ := Cells.keyed_greatest valid.fits occupied beyond
    simp only [Option.map_some, keyAt_eq]
    exact ⟨v, mem, greatest⟩

/-- The search that stops at the last entry misses nothing. -/
theorem nextKey?_int (d : Dense) (w : Int64) :
    d.nextKey? (.int w) = (d.cells.firstFrom (w.toInt + 1).toNat).map keyAt := by
  unfold nextKey?
  cases last : d.high with
  | none =>
    have vacant : ∀ i, d.cells.at? i = none :=
      fun i => d.cells.last?_eq_none (d.high_eq ▸ last)
    cases found : d.cells.firstFrom (w.toInt + 1).toNat with
    | none => rfl
    | some j =>
      obtain ⟨-, -, occupied, -⟩ := d.cells.firstFrom_eq_some found
      exact absurd occupied (d.cells.not_occupied_iff.mpr (vacant j))
  | some high =>
    simp only [d.cells.searchUp_last (d.high_eq ▸ last)]

/-! ## Moving entries into another row -/

@[simp] theorem capacity_store {i : Nat} (inside : i < d.capacity) (v : Value) :
    (d.store i v).capacity = d.capacity :=
  d.cells.size_put_of_lt v inside

theorem entries_storeAll (target : Dense) (entries : List (Nat × Value)) :
    (target.storeAll entries).cells.entries =
      entries.foldl (fun acc e => SortedMap.put e.1 e.2 acc) target.cells.entries := by
  induction entries generalizing target with
  | nil => rfl
  | cons e rest ih =>
    rw [storeAll, List.foldl_cons, ← storeAll, ih, List.foldl_cons, ← Cells.entries_put]
    rfl

theorem at?_storeAll {target : Dense} (empty : ∀ i, target.cells.at? i = none) (row : Cells)
    (i : Nat) : (target.storeAll row.entries).cells.at? i = row.at? i := by
  have none : target.cells.entries = [] := by
    refine List.eq_nil_iff_forall_not_mem.mpr fun ⟨j, v⟩ mem => ?_
    rw [Cells.mem_entries, empty] at mem
    cases mem
  have moved := entries_storeAll target row.entries
  rw [none, SortedMap.foldl_put (by simpa using row.ascending_entries), List.nil_append] at moved
  rw [← Cells.lookup_entries, moved, Cells.lookup_entries]

theorem foldl_place {entries : List (Nat × Value)}
    (room : ∀ e ∈ entries, e.1 < limit ∧ e.1 < d.capacity) :
    (entries.map fun (i, v) => (keyAt i, v)).foldl (fun d (k, v) => (d.place k v).after d) d =
        d.storeAll entries ∧
      (d.storeAll entries).capacity = d.capacity := by
  induction entries generalizing d with
  | nil => exact ⟨rfl, rfl⟩
  | cons e rest ih =>
    obtain ⟨inside, short⟩ := room e List.mem_cons_self
    have word : (Int64.ofNat e.1).toInt = e.1 := by
      rw [← Int64.ofInt_eq_ofNat]
      exact Cells.toInt_ofInt (by omega) (by simp only [limit] at inside; omega)
    have index : index? (keyAt e.1) = some e.1 := by
      simp only [index?, keyAt, word]
      rw [if_pos (by omega), Int.toNat_natCast]
    have placed : (d.place (keyAt e.1) e.2).after d = d.store e.1 e.2 := by
      simp only [place, index, if_neg (Nat.not_le.mpr short), Placement.after]
    have kept := capacity_store short e.2
    obtain ⟨same, capacity⟩ := ih (d := d.store e.1 e.2) fun e' mem => by
      rw [kept]
      exact room e' (List.mem_cons_of_mem e mem)
    refine ⟨?_, capacity.trans kept⟩
    rw [List.map_cons, List.foldl_cons]
    simp only [placed]
    exact same

theorem Valid.moved (valid : d.Valid) {target : Dense} (empty : ∀ i, target.cells.at? i = none)
    (larger : d.capacity ≤ target.capacity) :
    let moved := d.entries.foldl (fun target (k, v) => (target.place k v).after target) target
    moved.Valid ∧ (∀ i, moved.cells.at? i = d.cells.at? i) ∧
      moved.capacity = target.capacity := by
  have room : ∀ e ∈ d.cells.entries, e.1 < limit ∧ e.1 < target.capacity := by
    intro e mem
    have found := d.cells.mem_entries.mp mem
    refine ⟨valid _ _ found, Nat.lt_of_lt_of_le ?_ larger⟩
    refine Nat.lt_of_not_le fun outside => ?_
    rw [d.cells.at?_of_size_le outside] at found
    cases found
  obtain ⟨same, capacity⟩ := foldl_place room
  have view := at?_storeAll empty d.cells
  simp only [entries] at same ⊢
  rw [same]
  exact ⟨fun i v found => valid i v (view i ▸ found), view, capacity⟩

theorem rebuild_entries {target : Dense} (empty : ∀ i, target.cells.at? i = none)
    {values : List Value} (length : values.length = d.size) :
    (d.rebuild target values).entries = (d.entries.map Prod.fst).zip values := by
  rw [entries_eq, entries_eq]
  refine Cells.keyed_zip ?_
  rw [← d.cells.entries_refill (length.trans d.len_eq)]
  exact Cells.entries_congr (at?_storeAll empty _)

theorem Valid.rebuild (valid : d.Valid) {target : Dense} (empty : ∀ i, target.cells.at? i = none)
    {values : List Value} (length : values.length = d.size) : (d.rebuild target values).Valid := by
  intro i v found
  have occupied : d.cells.occupied i = true := by
    rw [← d.cells.occupied_refill (length.trans d.len_eq), Cells.occupied_iff]
    exact ⟨v, by rwa [Dense.rebuild, at?_storeAll empty] at found⟩
  obtain ⟨w, foundW⟩ := d.cells.occupied_iff.mp occupied
  exact valid i w foundW

theorem valid_fresh (capacity : Nat) : (Pooled.fresh capacity : Dense).Valid := by
  intro i v found
  rw [show (Pooled.fresh capacity : Dense) = vacant capacity from rfl, vacant,
    Cells.at?_vacant] at found
  cases found

theorem ext_cells {one two : Dense} (same : one.cells = two.cells) : one = two := by
  obtain ⟨cells, len, high, len_eq, high_eq⟩ := one
  obtain ⟨cells', len', high', len_eq', high_eq'⟩ := two
  subst same len_eq high_eq len_eq' high_eq'
  rfl

theorem eq_vacant (empty : ∀ i, d.cells.at? i = none) : d = vacant d.capacity := by
  refine ext_cells (Cells.ext_at? (by simp [vacant, capacity]) fun i => ?_)
  rw [empty, vacant, Cells.at?_vacant]

/-- A row that counts no entries has no values to give back. -/
theorem drain_values (d : Dense) : (Pooled.drain d).1 = d.values := by
  simp only [Pooled.drain]
  split
  · rfl
  · rename_i none
    exact (List.eq_nil_of_length_eq_zero (d.len_eq.symm.trans (by omega))).symm

instance : LawfulPooled Dense where
  capacity_fresh n := by simp [Pooled.capacity, Pooled.fresh, capacity, vacant]
  drain_eq d := by
    simp only [Pooled.drain, Pooled.fresh, Pooled.capacity]
    split
    · rfl
    · have vacant := eq_vacant (vacant_of_len (d := d) (by omega))
      refine Eq.trans (ext_cells ?_) vacant
      rfl

end Dense

end ScriptMachine
