import ScriptMachine.Proofs.Structure.Layouts

/-!
# The keys next to a probe

In every layout the key after a probe is the least one above it, and the key before a probe is the
greatest one below it. A row and a ring answer this for integers only, which is what all their keys
are.
-/

set_option autoImplicit false

namespace ScriptMachine

namespace SortedMap

variable {κ ν : Type} [Ord κ]

def IsNext (entries : List (κ × ν)) (probe : κ) : Option κ → Prop
  | none => ∀ e ∈ entries, compare probe e.1 ≠ .lt
  | some k => (∃ v, (k, v) ∈ entries) ∧ compare probe k = .lt ∧
      ∀ e ∈ entries, compare probe e.1 = .lt → compare e.1 k ≠ .lt

theorem IsFirst.isNext {entries : List (κ × ν)} {probe : κ} {answer : Option κ}
    (first : IsFirst entries answer) (below : ∀ e ∈ entries, compare probe e.1 = .lt) :
    IsNext entries probe answer := by
  cases answer with
  | none =>
    rintro e mem
    rw [show entries = [] from first] at mem
    cases mem
  | some k =>
    obtain ⟨v, mem, least⟩ := first
    exact ⟨⟨v, mem⟩, below _ mem, fun e mem _ => least e mem⟩

theorem isNext_nextAbove [Std.TransOrd κ] {entries : List (κ × ν)} (ascending : Ascending entries)
    (probe : κ) : IsNext entries probe (nextAbove probe (entries.map Prod.fst)) := by
  unfold nextAbove
  cases found : (entries.map Prod.fst).find? fun k => (compare probe k).isLT with
  | none =>
    intro e mem above
    have := List.find?_eq_none.mp found e.1 (List.mem_map_of_mem mem)
    simp [above] at this
  | some k =>
    obtain ⟨above, before, behind, split, notAbove⟩ := List.find?_eq_some_iff_append.mp found
    have inside : k ∈ entries.map Prod.fst := by simp [split]
    obtain ⟨⟨k', v⟩, mem, rfl⟩ := List.mem_map.mp inside
    refine ⟨⟨v, mem⟩, by simpa using above, fun e mem' above' lower => ?_⟩
    have place : e.1 ∈ before ++ k' :: behind := split ▸ List.mem_map_of_mem mem'
    have order := ascending_iff_keys.mp ascending
    rw [split] at order
    rcases List.mem_append.mp place with early | late
    · have := notAbove _ early
      simp [above'] at this
    · rcases List.mem_cons.mp late with same | late
      · rw [same] at lower
        simp at lower
      · have later := List.rel_of_pairwise_cons (List.pairwise_append.mp order).2.1 late
        have gt := Std.OrientedCmp.gt_of_lt later
        rw [lower] at gt
        cases gt

def IsPrev (entries : List (κ × ν)) (probe : κ) : Option κ → Prop
  | none => ∀ e ∈ entries, compare e.1 probe ≠ .lt
  | some k => (∃ v, (k, v) ∈ entries) ∧ compare k probe = .lt ∧
      ∀ e ∈ entries, compare e.1 probe = .lt → compare k e.1 ≠ .lt

theorem IsLast.isPrev {entries : List (κ × ν)} {probe : κ} {answer : Option κ}
    (last : IsLast entries answer) (below : ∀ e ∈ entries, compare e.1 probe = .lt) :
    IsPrev entries probe answer := by
  cases answer with
  | none =>
    rintro e mem
    rw [show entries = [] from last] at mem
    cases mem
  | some k =>
    obtain ⟨v, mem, greatest⟩ := last
    exact ⟨⟨v, mem⟩, below _ mem, fun e mem _ => greatest e mem⟩

theorem isPrev_lastBelow [Std.TransOrd κ] {entries : List (κ × ν)} (ascending : Ascending entries)
    (probe : κ) : IsPrev entries probe (lastBelow probe (entries.map Prod.fst)) := by
  unfold lastBelow
  induction entries with
  | nil =>
    intro e mem
    cases mem
  | cons e rest ih =>
    obtain ⟨above, ascending⟩ := ascending_cons.mp ascending
    have later := ih ascending
    rw [List.map_cons, List.takeWhile_cons]
    by_cases below : compare e.1 probe = .lt
    · have isLT : (compare e.1 probe).isLT = true := by rw [below]; rfl
      rw [if_pos isLT, List.getLast?_cons]
      cases found : ((rest.map Prod.fst).takeWhile fun k => (compare k probe).isLT).getLast? with
      | none =>
        rw [found] at later
        refine ⟨⟨e.2, List.mem_cons_self ..⟩, below, fun e' mem lower => ?_⟩
        rcases List.mem_cons.mp mem with rfl | mem
        · simp
        · exact absurd lower (later e' mem)
      | some k =>
        rw [found] at later
        obtain ⟨⟨v, mem⟩, lower, greatest⟩ := later
        refine ⟨⟨v, List.mem_cons_of_mem _ mem⟩, lower, fun e' mem' lower' => ?_⟩
        rcases List.mem_cons.mp mem' with rfl | mem'
        · have gt := Std.OrientedCmp.gt_of_lt (above _ mem)
          simp only [Option.getD_some, gt]
          decide
        · exact greatest e' mem' lower'
    · have notLT : ¬ (compare e.1 probe).isLT = true := by simpa using below
      rw [if_neg notLT]
      intro e' mem lower
      rcases List.mem_cons.mp mem with rfl | mem
      · exact below lower
      · exact below (Std.TransCmp.lt_trans (above e' mem) lower)

end SortedMap

open SortedMap (IsNext IsPrev)

theorem Cells.keyed_next {cells : Cells} {base : Int} (fits : cells.Fits base) (w : Int64)
    (start : Nat) (above : ∀ j : Nat, start ≤ j ↔ w.toInt < base + j) :
    IsNext (cells.keyed base) (.int w)
      ((cells.firstFrom start).map fun i : Nat => Key.int (Int64.ofInt (base + i))) := by
  have order : ∀ (j : Nat) (v : Value), cells.at? j = some v →
      (compare (Key.int w) (Key.int (Int64.ofInt (base + j))) = .lt ↔ start ≤ j) := by
    intro j v found
    obtain ⟨low, high⟩ := fits j v found
    show compare w.toInt (Int64.ofInt (base + j)).toInt = .lt ↔ _
    rw [toInt_ofInt low high, above j]
    exact Std.compare_eq_lt
  cases found : cells.firstFrom start with
  | none =>
    rintro ⟨k, v⟩ mem lower
    obtain ⟨j, rfl, held⟩ := mem_keyed.mp mem
    have := cells.firstFrom_eq_none found j ((order j v held).mp lower)
    simp [this] at held
  | some i =>
    obtain ⟨low, -, occupied, first⟩ := cells.firstFrom_eq_some found
    obtain ⟨v, held⟩ := cells.occupied_iff.mp occupied
    refine ⟨⟨v, mem_keyed.mpr ⟨i, rfl, held⟩⟩, (order i v held).mpr low, ?_⟩
    rintro ⟨k, u⟩ mem lower
    obtain ⟨j, rfl, held'⟩ := mem_keyed.mp mem
    have notBelow : i ≤ j := by
      rcases Nat.lt_or_ge j i with below | above
      · simp [first j ((order j u held').mp lower) below] at held'
      · exact above
    obtain ⟨low, high⟩ := fits i v held
    obtain ⟨low', high'⟩ := fits j u held'
    show compare (Int64.ofInt (base + j)).toInt (Int64.ofInt (base + i)).toInt ≠ .lt
    rw [toInt_ofInt low high, toInt_ofInt low' high']
    intro lt
    have := Std.compare_eq_lt.mp lt
    omega

theorem Cells.lt_size_of_at? {cells : Cells} {i : Nat} {v : Value} (found : cells.at? i = some v) :
    i < cells.size := by
  rcases Nat.lt_or_ge i cells.size with inside | outside
  · exact inside
  · rw [cells.at?_of_size_le outside] at found
    cases found

/-- Searching a row down from the last position below an integer finds the key before it. -/
theorem Cells.keyed_prev {cells : Cells} {base : Int} (fits : cells.Fits base) (w : Int64)
    (stop : Nat) (below : ∀ (j : Nat) (v : Value), cells.at? j = some v →
      (j < stop ↔ base + j < w.toInt)) :
    IsPrev (cells.keyed base) (.int w)
      ((cells.lastBefore stop).map fun i : Nat => Key.int (Int64.ofInt (base + i))) := by
  have order : ∀ (j : Nat) (v : Value), cells.at? j = some v →
      (compare (Key.int (Int64.ofInt (base + j))) (Key.int w) = .lt ↔ j < stop) := by
    intro j v found
    obtain ⟨low, high⟩ := fits j v found
    show compare (Int64.ofInt (base + j)).toInt w.toInt = .lt ↔ _
    rw [toInt_ofInt low high, below j v found]
    exact Std.compare_eq_lt
  cases found : cells.lastBefore stop with
  | none =>
    rintro ⟨k, v⟩ mem lower
    obtain ⟨j, rfl, held⟩ := mem_keyed.mp mem
    have vacant := cells.lastBefore_eq_none found j ((order j v held).mp lower)
    simp [vacant] at held
  | some i =>
    obtain ⟨inside, occupied, last⟩ := cells.lastBefore_eq_some found
    obtain ⟨v, held⟩ := cells.occupied_iff.mp occupied
    refine ⟨⟨v, mem_keyed.mpr ⟨i, rfl, held⟩⟩, (order i v held).mpr inside, ?_⟩
    rintro ⟨k, u⟩ mem lower
    obtain ⟨j, rfl, held'⟩ := mem_keyed.mp mem
    have notAbove : j ≤ i := by
      rcases Nat.lt_or_ge i j with above | below
      · simp [last j above ((order j u held').mp lower)] at held'
      · exact below
    obtain ⟨low, high⟩ := fits i v held
    obtain ⟨low', high'⟩ := fits j u held'
    show compare (Int64.ofInt (base + i)).toInt (Int64.ofInt (base + j)).toInt ≠ .lt
    rw [toInt_ofInt low high, toInt_ofInt low' high']
    intro lt
    have := Std.compare_eq_lt.mp lt
    omega

namespace Structure

variable {s : Structure}

/-- A probe that the layout can answer: an integer, where entries are held by position. -/
def Meets (s : Structure) (probe : Key) : Prop := s.Positional → ∃ w, probe = .int w

theorem compare_of_keyed {t : Table String} (layout : s.storage = .keyed t) {probe : Key}
    (other : ∀ k, probe ≠ .str k) {e : Key × Value} (mem : e ∈ s.entries) :
    compare probe e.1 = compare probe (.str "") := by
  rw [entries, layout] at mem
  obtain ⟨⟨text, v⟩, -, rfl⟩ := List.mem_map.mp mem
  cases probe with
  | str k => exact absurd rfl (other k)
  | _ => rfl

theorem nextKey?_spec (valid : s.storage.Valid) {probe : Key} (meets : s.Meets probe) :
    IsNext s.entries probe (s.nextKey? probe).1 := by
  have ascending := valid.ascending
  cases layout : s.storage with
  | dense d =>
    obtain ⟨w, rfl⟩ := meets (.inl (layout_eq_dense.mpr ⟨d, layout⟩))
    rw [layout] at valid
    unfold nextKey?
    rw [entries, layout]
    show IsNext d.entries _ (d.nextKey? (.int w))
    rw [d.nextKey?_int, Dense.entries_eq, funext Dense.keyAt_eq]
    exact Cells.keyed_next (Dense.Valid.fits valid) w (w.toInt + 1).toNat fun j => by omega
  | ring r =>
    obtain ⟨w, rfl⟩ := meets (.inr (layout_eq_ring.mpr ⟨r, layout⟩))
    rw [layout] at valid
    unfold nextKey?
    rw [entries, layout]
    exact Cells.keyed_next (Ring.Valid.fits valid) w (w.toInt - r.first.toInt + 1).toNat
      fun j => by omega
  | mixed t =>
    unfold nextKey?
    rw [layout]
    exact (read_mixed layout valid (nextAbove probe)).1 ▸ SortedMap.isNext_nextAbove ascending probe
  | keyed t =>
    by_cases text : ∃ k, probe = .str k
    · obtain ⟨k, rfl⟩ := text
      unfold nextKey?
      rw [layout]
      exact (read_keyed layout valid (f := Option.map Key.str) (nextAbove_str k)).1 ▸
        SortedMap.isNext_nextAbove ascending _
    · have other : ∀ k, probe ≠ .str k := fun k same => text ⟨k, same⟩
      rw [nextKey?_keyed layout other]
      split
      · rename_i below
        refine (firstKey?_spec valid).1.isNext fun e mem => ?_
        rw [compare_of_keyed layout other mem]
        simpa using below
      · rename_i above
        intro e mem lower
        rw [compare_of_keyed layout other mem] at lower
        exact above (by rw [lower]; rfl)

theorem prevKey?_keyed {t : Table String} (layout : s.storage = .keyed t) {key : Key}
    (other : ∀ k, key ≠ .str k) :
    s.prevKey? key = if (compare key (.str "")).isGT then s.lastKey? else (none, s) := by
  unfold prevKey? lastKey?
  rw [layout]
  cases key with
  | str k => exact absurd rfl (other k)
  | _ => rfl

theorem lastBelow_str (probe : String) (texts : List String) :
    (lastBelow probe texts).map Key.str = lastBelow (Key.str probe) (texts.map Key.str) := by
  unfold lastBelow
  rw [List.takeWhile_map, List.getLast?_map]
  rfl

theorem prevKey?_spec (valid : s.storage.Valid) {probe : Key} (meets : s.Meets probe) :
    IsPrev s.entries probe (s.prevKey? probe).1 := by
  have ascending := valid.ascending
  cases layout : s.storage with
  | dense d =>
    obtain ⟨w, rfl⟩ := meets (.inl (layout_eq_dense.mpr ⟨d, layout⟩))
    rw [layout] at valid
    unfold prevKey?
    rw [entries, layout]
    show IsPrev d.entries _
      ((d.cells.lastBefore (min w.toInt.toNat d.cells.size)).map Dense.keyAt)
    rw [Dense.entries_eq, funext Dense.keyAt_eq]
    refine Cells.keyed_prev (Dense.Valid.fits valid) w _ fun j v found => ?_
    have inside := Cells.lt_size_of_at? found
    omega
  | ring r =>
    obtain ⟨w, rfl⟩ := meets (.inr (layout_eq_ring.mpr ⟨r, layout⟩))
    rw [layout] at valid
    unfold prevKey?
    rw [entries, layout]
    refine Cells.keyed_prev (Ring.Valid.fits valid) w
      (min (w.toInt - r.first.toInt).toNat r.cells.size) fun j v found => ?_
    have inside := Cells.lt_size_of_at? found
    omega
  | mixed t =>
    unfold prevKey?
    rw [layout]
    exact (read_mixed layout valid (lastBelow probe)).1 ▸ SortedMap.isPrev_lastBelow ascending probe
  | keyed t =>
    by_cases text : ∃ k, probe = .str k
    · obtain ⟨k, rfl⟩ := text
      unfold prevKey?
      rw [layout]
      exact (read_keyed layout valid (f := Option.map Key.str) (lastBelow_str k)).1 ▸
        SortedMap.isPrev_lastBelow ascending _
    · have other : ∀ k, probe ≠ .str k := fun k same => text ⟨k, same⟩
      rw [prevKey?_keyed layout other]
      split
      · rename_i above
        refine (lastKey?_spec valid).1.isPrev fun e mem => Std.OrientedCmp.lt_of_gt ?_
        rw [compare_of_keyed layout other mem]
        simpa using above
      · rename_i below
        intro e mem lower
        have gt := Std.OrientedCmp.gt_of_lt lower
        rw [compare_of_keyed layout other mem] at gt
        exact below (by rw [gt]; rfl)

theorem prevKey?_read (valid : s.storage.Valid) (key : Key) : Read s (s.prevKey? key).2 := by
  cases layout : s.storage with
  | dense d | ring r =>
    unfold prevKey?
    rw [layout]
    exact Read.refl valid
  | mixed t =>
    unfold prevKey?
    rw [layout]
    exact (read_mixed layout valid (lastBelow key)).2
  | keyed t =>
    by_cases text : ∃ k, key = .str k
    · obtain ⟨k, rfl⟩ := text
      unfold prevKey?
      rw [layout]
      exact (read_keyed layout valid (f := Option.map Key.str) (lastBelow_str k)).2
    · rw [prevKey?_keyed layout fun k same => text ⟨k, same⟩]
      split
      · exact (lastKey?_spec valid).2
      · exact Read.refl valid

theorem keys_spec (valid : s.storage.Valid) :
    s.keys.1 = s.entries.map Prod.fst ∧ Read s s.keys.2 := by
  unfold keys
  cases layout : s.storage with
  | dense d => exact ⟨by rw [entries, layout]; rfl, Read.refl valid⟩
  | ring r => exact ⟨by rw [entries, layout]; rfl, Read.refl valid⟩
  | mixed t => exact read_mixed layout valid id
  | keyed t =>
    exact read_keyed layout valid fun texts =>
      show List.map Key.str (id texts) = id (texts.map Key.str) from rfl

end Structure

end ScriptMachine
