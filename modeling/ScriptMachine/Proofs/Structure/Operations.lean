import ScriptMachine.Proofs.Structure.Storage
import ScriptMachine.Structure.Navigation

/-!
# Operations on structures as changes of their entries

One lemma for each operation of a structure says what it answers and what the entries are
afterwards. Storage that is reshaped on the way is not seen in any of them.
-/

set_option autoImplicit false

namespace ScriptMachine.Structure

open SortedMap (Ascending lookup drop IsFirst IsLast)

variable {s : Structure} {pools : StructurePools}

/-! ## Setting and deleting -/

theorem placeWithin_spec (valid : s.storage.Valid) (clean : pools.Clean) (k : Key) (v : Value)
    (attempts : Nat) :
    s.storage.Stored k v (s.placeWithin pools k v (attempts + 2)).1
        (s.placeWithin pools k v (attempts + 2)).2.1.storage ∧
      (s.placeWithin pools k v (attempts + 2)).2.2.Clean := by
  have again : ∀ after : Structure × StructurePools, Reshaped s k v after →
      s.storage.Stored k v (after.1.placeWithin after.2 k v (attempts + 1)).1
          (after.1.placeWithin after.2 k v (attempts + 1)).2.1.storage ∧
        (after.1.placeWithin after.2 k v (attempts + 1)).2.2.Clean := by
    intro after reshaped
    obtain ⟨old, storage, placed⟩ := reshaped.stores
    have stored := reshaped.valid.place_stored placed
    rw [placeWithin]
    simp only [placed]
    refine ⟨⟨stored.valid, fun _ => stored.unbounded reshaped.unbounded, Or.inl ?_⟩, reshaped.clean⟩
    rcases stored.entries with put | ⟨bounded, -⟩
    · rwa [reshaped.entries] at put
    · exact absurd reshaped.unbounded bounded
  rw [placeWithin]
  cases placed : s.storage.place k v with
  | stored old after => exact ⟨valid.place_stored placed, clean⟩
  | needs capacity => exact again _ (grow_reshaped valid clean placed)
  | refused => exact again _ (migrate_reshaped valid clean k v)

/-- Setting stores the value, marked as an entry; what comes back is what it displaced. -/
theorem set_spec (valid : s.storage.Valid) (clean : pools.Clean) (k : Key) (v : Value) :
    ∃ old, (s.set pools k v).1 = old.map detach ∧
      s.storage.Stored k (attach v) old (s.set pools k v).2.1.storage ∧
      (s.set pools k v).2.2.Clean :=
  ⟨_, rfl, placeWithin_spec valid clean k (attach v) 2⟩

theorem delete_spec (valid : s.storage.Valid) (k : Key) :
    (s.delete k).2.storage.Valid ∧ (s.storage.Unbounded → (s.delete k).2.storage.Unbounded) ∧
      (s.delete k).1 = (lookup k s.entries).map detach ∧
      (s.delete k).2.entries = drop k s.entries := by
  obtain ⟨valid', unbounded, answer, entries⟩ := valid.remove k
  exact ⟨valid', unbounded, congrArg (Option.map detach) answer, entries⟩

/-! ## Ordered reading -/

/-- A reading that leaves the entries as they are. -/
structure Read (s after : Structure) : Prop where
  valid : after.storage.Valid
  unbounded : s.storage.Unbounded → after.storage.Unbounded
  entries : after.entries = s.entries

theorem Read.refl (valid : s.storage.Valid) : Read s s := ⟨valid, id, rfl⟩

theorem map_fst_textEntries (entries : List (String × Value)) :
    (textEntries entries).map Prod.fst = (entries.map Prod.fst).map Key.str := by
  simp [textEntries]

/-- Reading a table of texts is reading the keys of the structure, if the reading does the same with
both. -/
theorem read_keyed {t : Table String} (layout : s.storage = .keyed t) (valid : s.storage.Valid)
    {α β : Type} {read : List String → α} {f : α → β} {pick : List Key → β}
    (same : ∀ texts, f (read texts) = pick (texts.map Key.str)) :
    (s.readKeyed (t.ordered read) f).1 = pick (s.entries.map Prod.fst) ∧
      Read s (s.readKeyed (t.ordered read) f).2 := by
  rw [layout] at valid
  obtain ⟨answer, valid', entries⟩ := Table.Valid.ordered valid read
  have before : s.entries = textEntries t.entries := by rw [Structure.entries, layout]; rfl
  refine ⟨?_, valid', fun _ => trivial, (congrArg textEntries entries).trans before.symm⟩
  rw [before, map_fst_textEntries]
  exact (congrArg f answer).trans (same _)

theorem read_mixed {t : Table Key} (layout : s.storage = .mixed t) (valid : s.storage.Valid)
    {α : Type} (pick : List Key → α) :
    (s.readMixed (t.ordered pick)).1 = pick (s.entries.map Prod.fst) ∧
      Read s (s.readMixed (t.ordered pick)).2 := by
  rw [layout] at valid
  obtain ⟨answer, valid', entries⟩ := Table.Valid.ordered valid pick
  have before : s.entries = t.entries := by rw [Structure.entries, layout]; rfl
  exact ⟨before ▸ answer, valid', fun _ => trivial, entries.trans before.symm⟩

theorem firstKey?_spec (valid : s.storage.Valid) :
    IsFirst s.entries s.firstKey?.1 ∧ Read s s.firstKey?.2 := by
  unfold firstKey?
  cases layout : s.storage with
  | dense d =>
    refine ⟨?_, Read.refl valid⟩
    rw [layout] at valid
    rw [entries, layout]
    exact Dense.Valid.firstKey? valid
  | keyed t =>
    obtain ⟨answer, read⟩ := read_keyed layout valid (f := Option.map Key.str)
      fun texts => (List.head?_map ..).symm
    exact ⟨answer ▸ SortedMap.isFirst_head? valid.ascending, read⟩
  | mixed t =>
    obtain ⟨answer, read⟩ := read_mixed layout valid List.head?
    exact ⟨answer ▸ SortedMap.isFirst_head? valid.ascending, read⟩
  | ring r =>
    refine ⟨?_, Read.refl valid⟩
    rw [layout] at valid
    rw [entries, layout]
    exact Ring.Valid.firstKey? valid

theorem lastKey?_spec (valid : s.storage.Valid) :
    IsLast s.entries s.lastKey?.1 ∧ Read s s.lastKey?.2 := by
  unfold lastKey?
  cases layout : s.storage with
  | dense d =>
    refine ⟨?_, Read.refl valid⟩
    rw [layout] at valid
    rw [entries, layout]
    exact Dense.Valid.lastKey? valid
  | keyed t =>
    obtain ⟨answer, read⟩ := read_keyed layout valid (f := Option.map Key.str)
      fun texts => (List.getLast?_map ..).symm
    exact ⟨answer ▸ SortedMap.isLast_getLast? valid.ascending, read⟩
  | mixed t =>
    obtain ⟨answer, read⟩ := read_mixed layout valid List.getLast?
    exact ⟨answer ▸ SortedMap.isLast_getLast? valid.ascending, read⟩
  | ring r =>
    refine ⟨?_, Read.refl valid⟩
    rw [layout] at valid
    rw [entries, layout]
    exact Ring.Valid.lastKey? valid

theorem nextAbove_str (probe : String) (texts : List String) :
    (nextAbove probe texts).map Key.str = nextAbove (Key.str probe) (texts.map Key.str) := by
  unfold nextAbove
  rw [List.find?_map]
  rfl

theorem nextKey?_keyed {t : Table String} (layout : s.storage = .keyed t) {key : Key}
    (other : ∀ k, key ≠ .str k) :
    s.nextKey? key = if (compare key (.str "")).isLT then s.firstKey? else (none, s) := by
  unfold nextKey? firstKey?
  rw [layout]
  cases key with
  | str k => exact absurd rfl (other k)
  | _ => rfl

theorem nextKey?_read (valid : s.storage.Valid) (key : Key) : Read s (s.nextKey? key).2 := by
  cases layout : s.storage with
  | dense d | ring r =>
    unfold nextKey?
    rw [layout]
    exact Read.refl valid
  | mixed t =>
    unfold nextKey?
    rw [layout]
    exact (read_mixed layout valid (nextAbove key)).2
  | keyed t =>
    by_cases text : ∃ k, key = .str k
    · obtain ⟨k, rfl⟩ := text
      unfold nextKey?
      rw [layout]
      exact (read_keyed layout valid (f := Option.map Key.str) (nextAbove_str k)).2
    · rw [nextKey?_keyed layout fun k same => text ⟨k, same⟩]
      split
      · exact (firstKey?_spec valid).2
      · exact Read.refl valid

/-! ## Taking entries off the ends -/

/-- What taking an entry off an end does, where `End` says which entry is at that end. -/
structure Popped (End : Option Key → Prop) (s : Structure) (after : Option Value × Structure) :
    Prop where
  valid : after.2.storage.Valid
  unbounded : s.storage.Unbounded → after.2.storage.Unbounded
  either : (s.entries = [] ∧ after.1 = none ∧ after.2.entries = []) ∨
    ∃ k v, End (some k) ∧ (k, v) ∈ s.entries ∧ after.1 = some (detach v) ∧
      after.2.entries = drop k s.entries

def deleteRead : Option Key × Structure → Option Value × Structure
  | (none, s) => (none, s)
  | (some key, s) => s.delete key

theorem popped_deleteRead {End : Option Key → Prop} {reading : Option Key × Structure}
    (valid : s.storage.Valid) (isEnd : End reading.1) (empty : End none → s.entries = [])
    (held : ∀ k, End (some k) → ∃ v, (k, v) ∈ s.entries) (read : Read s reading.2) :
    Popped End s (deleteRead reading) := by
  obtain ⟨key, after⟩ := reading
  cases key with
  | none =>
    exact ⟨read.valid, read.unbounded, Or.inl ⟨empty isEnd, rfl, read.entries.trans (empty isEnd)⟩⟩
  | some k =>
    obtain ⟨v, mem⟩ := held k isEnd
    obtain ⟨valid', unbounded, answer, entries⟩ := delete_spec read.valid k
    refine ⟨valid', fun h => unbounded (read.unbounded h), Or.inr ⟨k, v, isEnd, mem, ?_, ?_⟩⟩
    · have found := (SortedMap.lookup_eq_some_iff valid.ascending).mpr mem
      rw [read.entries] at answer
      exact answer.trans (congrArg (Option.map detach) found)
    · exact entries.trans (congrArg (drop k) read.entries)

theorem popped_ring {End : Option Key → Prop} {r : Ring} (layout : s.storage = .ring r)
    (valid : s.storage.Valid) {after : Option Value × Ring}
    (pop : (r.entries = [] ∧ after = (none, r)) ∨ ∃ k v, Ring.Popped r k v after ∧ End (some k)) :
    Popped End s (after.1.map detach, { s with storage := .ring after.2 }) := by
  have entries : s.entries = r.entries := by rw [Structure.entries, layout]; rfl
  rcases pop with ⟨empty, rfl⟩ | ⟨k, v, popped, isEnd⟩
  · exact ⟨layout ▸ valid, layout ▸ id, .inl ⟨entries.trans empty, rfl, empty⟩⟩
  · refine ⟨popped.valid, ?_, .inr ⟨k, v, isEnd, entries ▸ popped.mem, ?_, ?_⟩⟩
    · rw [layout]
      exact popped.limit.trans
    · rw [popped.answer]
      rfl
    · rw [entries]
      exact popped.entries

theorem popFront_spec (valid : s.storage.Valid) : Popped (IsFirst s.entries) s s.popFront := by
  obtain ⟨isFirst, reading⟩ := firstKey?_spec valid
  have other := popped_deleteRead valid isFirst id (fun k first => ⟨_, first.choose_spec.1⟩) reading
  unfold popFront
  cases layout : s.storage with
  | ring r =>
    refine popped_ring layout valid ?_
    rw [layout] at valid
    rw [entries, layout]
    exact (Ring.Valid.popFront valid).imp_right fun ⟨k, v, popped, least⟩ =>
      ⟨k, v, popped, v, popped.mem, least⟩
  | _ => exact other

theorem popBack_spec (valid : s.storage.Valid) : Popped (IsLast s.entries) s s.popBack := by
  obtain ⟨isLast, reading⟩ := lastKey?_spec valid
  have other := popped_deleteRead valid isLast id (fun k last => ⟨_, last.choose_spec.1⟩) reading
  unfold popBack
  cases layout : s.storage with
  | ring r =>
    refine popped_ring layout valid ?_
    rw [layout] at valid
    rw [entries, layout]
    exact (Ring.Valid.popBack valid).imp_right fun ⟨k, v, popped, greatest⟩ =>
      ⟨k, v, popped, v, popped.mem, greatest⟩
  | _ => exact other

/-! ## Keys for appending and prepending -/

def IsGreatestInt (held : Int64 → Option Value) : Option Int64 → Prop
  | none => ∀ w, held w = none
  | some w => (held w).isSome ∧ ∀ w', (held w').isSome → w'.toInt ≤ w.toInt

def IsLeastInt (held : Int64 → Option Value) : Option Int64 → Prop
  | none => ∀ w, held w = none
  | some w => (held w).isSome ∧ ∀ w', (held w').isSome → w.toInt ≤ w'.toInt

def keyBehind (top : Option Int64) : Key := .int ((top.map wordAfter).getD 0)

def keyBefore (low : Option Int64) : Key := .int ((low.map wordBefore).getD 0)

def ints (entries : List (Key × Value)) (w : Int64) : Option Value := lookup (.int w) entries

theorem ints_cons {k : Key} (other : k.int? = none) (v : Value) (rest : List (Key × Value)) :
    ints ((k, v) :: rest) = ints rest := by
  funext w
  have ne : compare (Key.int w) k ≠ .eq := by
    intro same
    rw [← Std.LawfulEqOrd.eq_of_compare same] at other
    simp [Key.int?] at other
  rw [ints, lookup, if_neg ne]
  rfl

variable {entries : List (Key × Value)}

theorem isSome_lookup (ascending : Ascending entries) {k : Key} :
    (lookup k entries).isSome ↔ ∃ v, (k, v) ∈ entries := by
  rw [Option.isSome_iff_exists]
  exact exists_congr fun v => SortedMap.lookup_eq_some_iff ascending

theorem compare_int (a b : Int64) : compare (Key.int a) (Key.int b) = compare a.toInt b.toInt := rfl

theorem isGreatestInt_of_isLast (ascending : Ascending entries)
    (allInts : ∀ e ∈ entries, ∃ w, e.1 = .int w) {key : Option Key} (last : IsLast entries key) :
    IsGreatestInt (ints entries) (key.bind Key.int?) := by
  cases key with
  | none =>
    intro w
    rw [show entries = [] from last]
    rfl
  | some k =>
    obtain ⟨v, mem, greatest⟩ := last
    obtain ⟨w, eq⟩ := allInts _ mem
    simp only at eq
    subst eq
    refine ⟨(isSome_lookup ascending).mpr ⟨v, mem⟩, fun w' held => ?_⟩
    obtain ⟨v', mem'⟩ := (isSome_lookup ascending).mp held
    have notLess := greatest _ mem'
    rw [compare_int, ne_eq, Std.compare_eq_lt] at notLess
    omega

theorem isLeastInt_of_isFirst (ascending : Ascending entries)
    (allInts : ∀ e ∈ entries, ∃ w, e.1 = .int w) {key : Option Key} (first : IsFirst entries key) :
    IsLeastInt (ints entries) (key.bind Key.int?) := by
  cases key with
  | none =>
    intro w
    rw [show entries = [] from first]
    rfl
  | some k =>
    obtain ⟨v, mem, least⟩ := first
    obtain ⟨w, eq⟩ := allInts _ mem
    simp only at eq
    subst eq
    refine ⟨(isSome_lookup ascending).mpr ⟨v, mem⟩, fun w' held => ?_⟩
    obtain ⟨v', mem'⟩ := (isSome_lookup ascending).mp held
    have notLess := least _ mem'
    rw [compare_int, ne_eq, Std.compare_eq_lt] at notLess
    omega

theorem isLeastInt_findSome? (ascending : Ascending entries) :
    IsLeastInt (ints entries) ((entries.map Prod.fst).findSome? Key.int?) := by
  induction entries with
  | nil => exact fun w => rfl
  | cons e rest ih =>
    obtain ⟨k, v⟩ := e
    obtain ⟨above, tail⟩ := SortedMap.ascending_cons.mp ascending
    cases k with
    | int w =>
      refine ⟨(isSome_lookup ascending).mpr ⟨v, List.mem_cons_self ..⟩, fun w' held => ?_⟩
      obtain ⟨v', mem⟩ := (isSome_lookup ascending).mp held
      rcases List.mem_cons.mp mem with eq | mem
      · cases eq
        exact Int.le_refl _
      · have less := above _ mem
        rw [compare_int, Std.compare_eq_lt] at less
        omega
    | _ =>
      rw [ints_cons rfl]
      exact ih tail

theorem isGreatestInt_findSome? (ascending : Ascending entries) :
    IsGreatestInt (ints entries) ((entries.map Prod.fst).reverse.findSome? Key.int?) := by
  induction entries with
  | nil => exact fun w => rfl
  | cons e rest ih =>
    obtain ⟨k, v⟩ := e
    obtain ⟨above, tail⟩ := SortedMap.ascending_cons.mp ascending
    have later := ih tail
    simp only [List.map_cons, List.reverse_cons, List.findSome?_append]
    cases found : (rest.map Prod.fst).reverse.findSome? Key.int? with
    | none =>
      rw [found] at later
      cases k with
      | int w =>
        refine ⟨(isSome_lookup ascending).mpr ⟨v, List.mem_cons_self ..⟩, fun w' held => ?_⟩
        obtain ⟨v', mem⟩ := (isSome_lookup ascending).mp held
        rcases List.mem_cons.mp mem with eq | mem
        · cases eq
          exact Int.le_refl _
        · have absent := later w'
          simp [ints, (SortedMap.lookup_eq_some_iff tail).mpr mem] at absent
      | _ =>
        rw [ints_cons rfl]
        exact later
    | some w =>
      rw [found] at later
      obtain ⟨here, greatest⟩ := later
      obtain ⟨u, memW⟩ := (isSome_lookup tail).mp here
      refine ⟨(isSome_lookup ascending).mpr ⟨u, List.mem_cons_of_mem _ memW⟩, fun w' held => ?_⟩
      obtain ⟨v', mem⟩ := (isSome_lookup ascending).mp held
      rcases List.mem_cons.mp mem with eq | mem
      · cases eq
        have less := above _ memW
        rw [compare_int, Std.compare_eq_lt] at less
        omega
      · exact greatest w' ((isSome_lookup tail).mpr ⟨v', mem⟩)

theorem int_of_mem_keyed {base : Int} {cells : Cells} :
    ∀ e ∈ cells.keyed base, ∃ w, e.1 = .int w := by
  rintro ⟨k, v⟩ mem
  obtain ⟨i, eq, -⟩ := Cells.mem_keyed.mp mem
  exact ⟨_, eq⟩

theorem int_of_mem_dense {d : Dense} (layout : s.storage = .dense d) :
    ∀ e ∈ s.entries, ∃ w, e.1 = .int w := by
  rw [Structure.entries, layout]
  show ∀ e ∈ d.entries, _
  rw [d.entries_eq]
  exact int_of_mem_keyed

theorem int_of_mem_ring {r : Ring} (layout : s.storage = .ring r) :
    ∀ e ∈ s.entries, ∃ w, e.1 = .int w := by
  rw [Structure.entries, layout]
  exact int_of_mem_keyed

theorem ints_of_keyed {t : Table String} (layout : s.storage = .keyed t) (w : Int64) :
    ints s.entries w = none := by
  rw [Structure.entries, layout]
  exact lookup_textEntries t.entries (.int w)

theorem toInt_wordAfter {w : Int64} (room : w.toInt + 1 < 2 ^ 63) :
    (wordAfter w).toInt = w.toInt + 1 := by
  have low := Int64.le_toInt w
  have fits : Word.fits (w.toInt + 1) = true := decide_eq_true ⟨by omega, room⟩
  rw [wordAfter, Word.ofInt?, if_pos fits, Option.getD_some]
  exact Cells.toInt_ofInt (by omega) room

theorem toInt_wordBefore {w : Int64} (room : -(2 ^ 63) < w.toInt) :
    (wordBefore w).toInt = w.toInt - 1 := by
  have high := Int64.toInt_lt w
  have fits : Word.fits (w.toInt - 1) = true := decide_eq_true ⟨by omega, by omega⟩
  rw [wordBefore, Word.ofInt?, if_pos fits, Option.getD_some]
  exact Cells.toInt_ofInt (by omega) (by omega)

theorem wordAfter_eq {w : Int64} (room : w.toInt + 1 < 2 ^ 63) : wordAfter w = w + 1 := by
  rw [← Int64.ofInt_toInt (wordAfter w), toInt_wordAfter room, Int64.ofInt_add, Int64.ofInt_toInt]
  rfl

theorem wordBefore_eq {w : Int64} (room : -(2 ^ 63) < w.toInt) : wordBefore w = w - 1 := by
  rw [← Int64.ofInt_toInt (wordBefore w), toInt_wordBefore room, Int64.ofInt_sub,
    Int64.ofInt_toInt]
  rfl

theorem word_of_dense {d : Dense} (layout : s.storage = .dense d) (valid : s.storage.Valid)
    {e : Key × Value} (mem : e ∈ s.entries) {w : Int64} (int : e.1 = .int w) :
    0 ≤ w.toInt ∧ w.toInt < Dense.limit := by
  rw [layout] at valid
  have mem' : (e.1, e.2) ∈ d.cells.keyed 0 := by
    rw [← d.entries_eq]
    rw [Structure.entries, layout] at mem
    exact mem
  obtain ⟨i, key, found⟩ := Cells.mem_keyed.mp mem'
  have inside := Dense.Valid.fits valid i _ found
  have short : i < Dense.limit := valid i _ found
  obtain rfl : w = Int64.ofInt (0 + i) := Key.int.inj (int.symm.trans key)
  rw [Cells.toInt_ofInt inside.1 inside.2]
  omega

theorem not_overflows_head {use : Use} {uses : List Use}
    (safe : s.overflows (use :: uses) = false) : s.overflows [use] = false := by
  unfold overflows at safe ⊢
  cases layout : s.storage with
  | ring r =>
    rw [layout] at safe
    simp only [List.any_cons, Bool.or_eq_false_iff] at safe
    simp [safe.1]
  | _ => rfl

theorem bind_int?_eq_some {k? : Option Key} {w : Int64} (found : k?.bind Key.int? = some w) :
    k? = some (.int w) := by
  obtain ⟨k, rfl, int⟩ := Option.bind_eq_some_iff.mp found
  cases k <;> cases int
  rfl

theorem appendKey_spec (valid : s.storage.Valid) :
    ∃ top, IsGreatestInt (ints s.entries) top ∧
      (s.overflows [.behind] = false → s.appendKey.1 = keyBehind top) ∧ Read s s.appendKey.2 := by
  have last := (lastKey?_spec valid).1
  have next : ∀ top : Option Int64, (∀ w, top = some w → w.toInt + 1 < 2 ^ 63) →
      Key.int ((top.map (· + 1)).getD 0) = keyBehind top := by
    intro top room
    cases top with
    | none => rfl
    | some w => rw [keyBehind, Option.map_some, Option.map_some, wordAfter_eq (room w rfl)]
  unfold appendKey
  unfold lastKey? at last
  cases layout : s.storage with
  | dense d =>
    rw [layout] at last
    refine ⟨_, isGreatestInt_of_isLast valid.ascending (int_of_mem_dense layout) last,
      fun _ => next _ fun w top => ?_, Read.refl valid⟩
    simp only [bind_int?_eq_some top] at last
    obtain ⟨v, mem, -⟩ := last
    have := (word_of_dense layout valid mem rfl).2
    simp only [Dense.limit] at this
    omega
  | keyed t => exact ⟨none, ints_of_keyed layout, fun _ => rfl, Read.refl valid⟩
  | mixed t =>
    obtain ⟨answer, read⟩ := read_mixed layout valid fun keys => keys.reverse.findSome? Key.int?
    exact ⟨_, isGreatestInt_findSome? valid.ascending, fun _ => congrArg keyBehind answer, read⟩
  | ring r =>
    rw [layout] at last
    refine ⟨_, isGreatestInt_of_isLast valid.ascending (int_of_mem_ring layout) last,
      fun safe => next _ fun w top => ?_, Read.refl valid⟩
    simp only [overflows, layout, List.any_cons, Ring.overflows, List.any_nil, Bool.or_false,
      decide_eq_false_iff_not] at safe
    have top := bind_int?_eq_some top
    unfold Ring.lastKey? at top
    split at top
    · cases top
    · rename_i nonempty
      have size : r.cells.size ≠ 0 := fun none => nonempty (Ring.size_eq_zero_iff.mpr none)
      have stop_eq := r.stop_eq
      have low := Int64.le_toInt r.first
      cases top
      rw [Cells.toInt_ofInt (by omega) (by omega)]
      omega

theorem prependKey_spec (valid : s.storage.Valid) :
    ∃ low, IsLeastInt (ints s.entries) low ∧
      (s.overflows [.before] = false → s.prependKey.1 = keyBefore low) ∧
      Read s s.prependKey.2 := by
  have first := (firstKey?_spec valid).1
  have next : ∀ low : Option Int64, (∀ w, low = some w → -(2 ^ 63) < w.toInt) →
      Key.int ((low.map (· - 1)).getD 0) = keyBefore low := by
    intro low room
    cases low with
    | none => rfl
    | some w => rw [keyBefore, Option.map_some, Option.map_some, wordBefore_eq (room w rfl)]
  unfold prependKey
  unfold firstKey? at first
  cases layout : s.storage with
  | dense d =>
    rw [layout] at first
    refine ⟨_, isLeastInt_of_isFirst valid.ascending (int_of_mem_dense layout) first,
      fun _ => next _ fun w low => ?_, Read.refl valid⟩
    simp only [bind_int?_eq_some low] at first
    obtain ⟨v, mem, -⟩ := first
    have := (word_of_dense layout valid mem rfl).1
    omega
  | keyed t => exact ⟨none, ints_of_keyed layout, fun _ => rfl, Read.refl valid⟩
  | mixed t =>
    obtain ⟨answer, read⟩ := read_mixed layout valid fun keys => keys.findSome? Key.int?
    exact ⟨_, isLeastInt_findSome? valid.ascending, fun _ => congrArg keyBefore answer, read⟩
  | ring r =>
    rw [layout] at first
    refine ⟨_, isLeastInt_of_isFirst valid.ascending (int_of_mem_ring layout) first,
      fun safe => next _ fun w low => ?_, Read.refl valid⟩
    simp only [overflows, layout, List.any_cons, Ring.overflows, List.any_nil, Bool.or_false,
      decide_eq_false_iff_not] at safe
    have low := bind_int?_eq_some low
    unfold Ring.firstKey? at low
    split at low
    · cases low
    · rename_i nonempty
      have size : r.cells.size ≠ 0 := fun none => nonempty (Ring.size_eq_zero_iff.mpr none)
      have least := Int64.le_toInt r.first
      cases low
      omega

/-! ## New structures -/

/-- A structure with the keys of another one holds the new values under them, in order. -/
theorem rebuild_spec (valid : s.storage.Valid) (clean : pools.Clean) {values : List Value}
    (length : values.length = s.size) :
    (s.rebuild pools values).1.storage.Valid ∧
      (s.storage.Unbounded → (s.rebuild pools values).1.storage.Unbounded) ∧
      (s.rebuild pools values).1.entries =
        (s.entries.map Prod.fst).zip (values.map attach) ∧
      (s.rebuild pools values).2.Clean := by
  unfold rebuild
  simp only [Structure.entries, Structure.size] at length ⊢
  cases layout : s.storage with
  | dense d =>
    rw [layout] at valid length
    have length' : (values.map attach).length = d.size := (List.length_map _).trans length
    obtain ⟨room, -, fresh, clean'⟩ := clean.dense.checkout d.capacity
    have empty : ∀ i, (Pooled.fresh room : Dense).cells.at? i = none := Cells.at?_vacant room
    simp only [fresh]
    exact ⟨Dense.Valid.rebuild valid empty length', fun _ => trivial,
      Dense.rebuild_entries empty length', { clean with dense := clean' }⟩
  | keyed t =>
    rw [layout] at valid length
    have length' : (values.map attach).length = t.size := (List.length_map _).trans length
    obtain ⟨room, -, fresh, clean'⟩ := clean.keyed.checkout t.size
    obtain ⟨valid', entries'⟩ := Table.Valid.rebuild valid room length'
    simp only [fresh]
    refine ⟨valid', fun _ => trivial, ?_, { clean with keyed := clean' }⟩
    refine (congrArg textEntries entries').trans ?_
    have keys : (Storage.keyed t).entries.map Prod.fst = (t.entries.map Prod.fst).map Key.str :=
      map_fst_textEntries t.entries
    rw [keys]
    exact List.zip_map_left.symm
  | mixed t =>
    rw [layout] at valid length
    have length' : (values.map attach).length = t.size := (List.length_map _).trans length
    obtain ⟨room, -, fresh, clean'⟩ := clean.mixed.checkout t.size
    obtain ⟨valid', entries'⟩ := Table.Valid.rebuild valid room length'
    simp only [fresh]
    exact ⟨valid', fun _ => trivial, entries', { clean with mixed := clean' }⟩
  | ring r =>
    rw [layout] at valid length
    have length' : (values.map attach).length = r.size := (List.length_map _).trans length
    obtain ⟨room, -, fresh, clean'⟩ := clean.ring.checkout r.span
    obtain ⟨valid', limit', entries'⟩ := Ring.Valid.rebuild valid room length'
    simp only [fresh]
    exact ⟨valid', limit'.trans, entries', { clean with ring := clean' }⟩

theorem new_spec (clean : pools.Clean) (capacity : Nat) :
    (new pools capacity).1.storage.Valid ∧ (new pools capacity).1.storage.Unbounded ∧
      (new pools capacity).1.entries = [] ∧ (new pools capacity).2.Clean := by
  obtain ⟨room, -, fresh, clean'⟩ := clean.dense.checkout (min capacity Pool.maxBucket)
  unfold new
  simp only [Structure.entries, fresh]
  refine ⟨Dense.valid_fresh room, trivial, ?_, { clean with dense := clean' }⟩
  exact List.eq_nil_of_length_eq_zero (Dense.size_eq _).symm

theorem queue_spec (clean : pools.Clean) (limit : Nat) :
    (queue pools limit).1.storage.Valid ∧
      (limit = 0 → (queue pools limit).1.storage.Unbounded) ∧
      (queue pools limit).1.entries = [] ∧ (queue pools limit).2.Clean := by
  obtain ⟨room, -, fresh, clean'⟩ := clean.ring.checkout (min limit Pool.maxBucket)
  unfold queue
  simp only [Structure.entries, fresh]
  refine ⟨Ring.valid_fresh room _, ?_, rfl, { clean with ring := clean' }⟩
  rintro rfl
  rfl

end ScriptMachine.Structure
