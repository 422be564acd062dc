import ScriptMachine.Proofs.Structure.Layouts

/-!
# One more entry at an end

A value that is appended goes behind all integer keys of a structure, and one that is prepended goes
before them. Where the outermost integer is held there is no integer left on that side, and the
value takes the place of the entry that is there. An entry that comes to be under the greatest word
can not be read in a ring any more, nor can the others: the integer behind it is no word.
-/

set_option autoImplicit false

namespace ScriptMachine.Structure

open SortedMap (lookup)

variable {s : Structure} {pools : StructurePools}

/-! ## The key at one end -/

def utmost (front : Bool) : Int64 := if front then Int64.minValue else Int64.maxValue

def Beyond (front : Bool) (w w' : Int64) : Prop :=
  if front then w.toInt < w'.toInt else w'.toInt < w.toInt

def edgeUse (front : Bool) : Use := if front then .before else .behind

def edgeKey (s : Structure) (front : Bool) : Key × Structure :=
  if front then s.prependKey else s.appendKey

theorem layout_edgeKey (s : Structure) (front : Bool) : (s.edgeKey front).2.layout = s.layout := by
  cases front with
  | true => exact layout_prependKey s
  | false => exact layout_appendKey s

theorem toInt_wordAfter_of_ne {w : Int64} (inside : w ≠ Int64.maxValue) :
    (wordAfter w).toInt = w.toInt + 1 := by
  have high := Int64.toInt_lt w
  have less : w.toInt ≠ Int64.maxValue.toInt := fun same => inside (Int64.toInt_inj.mp same)
  have most := Int64.toInt_maxValue
  exact toInt_wordAfter (by omega)

theorem toInt_wordBefore_of_ne {w : Int64} (inside : w ≠ Int64.minValue) :
    (wordBefore w).toInt = w.toInt - 1 := by
  have low := Int64.le_toInt w
  have more : w.toInt ≠ Int64.minValue.toInt := fun same => inside (Int64.toInt_inj.mp same)
  have least := Int64.toInt_minValue
  exact toInt_wordBefore (by omega)

theorem IsGreatestInt.behind {held : Int64 → Option Value} {top : Option Int64}
    (greatest : IsGreatestInt held top) :
    ∃ w, keyBehind top = .int w ∧ ((held Int64.maxValue).isSome → w = Int64.maxValue) ∧
      (¬ (held Int64.maxValue).isSome →
        (w = Int64.maxValue ↔ (held (Int64.maxValue - 1)).isSome = true) ∧
        ∀ w', (held w').isSome → w'.toInt < w.toInt) := by
  cases top with
  | none =>
    have none : ∀ w, ¬ (held w).isSome := by
      intro w here
      rw [greatest w] at here
      cases here
    refine ⟨_, rfl, fun full => absurd full (none _),
      fun _ => ⟨?_, fun w' here => absurd here (none w')⟩⟩
    exact iff_of_false (by decide) (none _)
  | some t =>
    obtain ⟨there, most⟩ := greatest
    refine ⟨wordAfter t, rfl, fun full => ?_, fun free => ⟨?_, fun w' here => ?_⟩⟩
    · have last : t = Int64.maxValue :=
        Int64.toInt_inj.mp (Int.le_antisymm (Int64.toInt_le t) (most _ full))
      rw [last]
      decide
    · have inside : t ≠ Int64.maxValue := fun last => free (last ▸ there)
      have after := toInt_wordAfter_of_ne inside
      have words : Int64.maxValue.toInt = 2 ^ 63 - 1 ∧
        (Int64.maxValue - 1).toInt = 2 ^ 63 - 2 := by decide
      constructor
      · intro last
        have previous : t = Int64.maxValue - 1 := Int64.toInt_inj.mp (by rw [last] at after; omega)
        exact previous ▸ there
      · intro previous
        have below := most _ previous
        have high := Int64.toInt_lt (wordAfter t)
        exact Int64.toInt_inj.mp (by omega)
    · have inside : t ≠ Int64.maxValue := fun last => free (last ▸ there)
      have below := most w' here
      rw [toInt_wordAfter_of_ne inside]
      omega

theorem IsLeastInt.before {held : Int64 → Option Value} {low : Option Int64}
    (least : IsLeastInt held low) :
    ∃ w, keyBefore low = .int w ∧ w ≠ Int64.maxValue ∧
      ((held Int64.minValue).isSome → w = Int64.minValue) ∧
      (¬ (held Int64.minValue).isSome → ∀ w', (held w').isSome → w.toInt < w'.toInt) := by
  cases low with
  | none =>
    have none : ∀ w, ¬ (held w).isSome := by
      intro w here
      rw [least w] at here
      cases here
    exact ⟨_, rfl, by decide, fun full => absurd full (none _),
      fun _ w' here => absurd here (none w')⟩
  | some t =>
    obtain ⟨there, most⟩ := least
    refine ⟨wordBefore t, rfl, ?_, fun full => ?_, fun free w' here => ?_⟩
    · intro last
      by_cases first : t = Int64.minValue
      · rw [first] at last
        exact absurd last (by decide)
      · have before := toInt_wordBefore_of_ne first
        have high := Int64.toInt_lt t
        rw [last, Int64.toInt_maxValue] at before
        omega
    · have last : t = Int64.minValue :=
        Int64.toInt_inj.mp (Int.le_antisymm (most _ full) (Int64.minValue_le_toInt t))
      rw [last]
      decide
    · have inside : t ≠ Int64.minValue := fun last => free (last ▸ there)
      have above := most w' here
      rw [toInt_wordBefore_of_ne inside]
      omega

theorem contains_int (valid : s.storage.Valid) (w : Int64) :
    s.contains (.int w) = (ints s.entries w).isSome := by
  have looked : s.get? (.int w) = lookup (.int w) s.entries := valid.get?_eq _
  rw [contains, looked]
  rfl

theorem overflows_append (s : Structure) (one two : List Use) :
    s.overflows (one ++ two) = (s.overflows one || s.overflows two) := by
  unfold overflows
  split
  · exact List.any_append
  · rfl

theorem overflows_edgeKey (s : Structure) (front : Bool) (uses : List Use) :
    (s.edgeKey front).2.overflows uses = s.overflows uses := by
  obtain ⟨storage, migrations⟩ := s
  cases front <;> cases storage <;> rfl

/-- No entry is under the outermost integer at one end, and a ring does not come to have one there
under the greatest word. -/
def Roomy (s : Structure) (front : Bool) : Prop :=
  ¬ s.contains (.int (utmost front)) = true ∧
    (s.layout = .ring → front = false → ¬ s.contains (.int (Int64.maxValue - 1)) = true)

theorem edgeKey_spec (valid : s.storage.Valid) (front : Bool)
    (safe : s.overflows [edgeUse front] = false) :
    ∃ w, (s.edgeKey front).1 = .int w ∧ Read s (s.edgeKey front).2 ∧
      (s.contains (.int (utmost front)) = true → w = utmost front) ∧
      (¬ s.contains (.int (utmost front)) = true →
        (w = Int64.maxValue ↔ front = false ∧ s.contains (.int (Int64.maxValue - 1)) = true) ∧
        ∀ w', s.contains (.int w') = true → Beyond front w w') := by
  simp only [contains_int valid]
  cases front with
  | false =>
    obtain ⟨top, greatest, key, read⟩ := appendKey_spec valid
    obtain ⟨w, word, full, free⟩ := greatest.behind
    refine ⟨w, (key safe).trans word, read, full, fun none => ?_⟩
    obtain ⟨last, beyond⟩ := free none
    exact ⟨by simpa using last, beyond⟩
  | true =>
    obtain ⟨low, least, key, read⟩ := prependKey_spec valid
    obtain ⟨w, word, other, full, free⟩ := least.before
    exact ⟨w, (key safe).trans word, read, full, fun none => ⟨by simp [other], free none⟩⟩

/-! ## One more entry -/

/-- One more entry, under an integer that is farther out than all others, and nothing else. All
entries can be read. -/
structure Adds (s : Structure) (w : Int64) (v : Value) (front : Bool) (after : Structure) :
    Prop where
  kept : ∀ k u, s.get? k = some u → after.get? k = some u
  size : after.size = s.size + 1
  stored : after.get? (.int w) = some (attach v)
  beyond : ∀ w', s.contains (.int w') = true → Beyond front w w'
  readable : ∀ k, after.contains k = true → after.overflows [.read k] = false

def push (s : Structure) (pools : StructurePools) (front : Bool) (v : Value) :
    Option Value × Structure × StructurePools :=
  (s.edgeKey front).2.set pools (s.edgeKey front).1 v

structure Assigned (s : Structure) (k : Key) (v : Value)
    (result : Option Value × Structure × StructurePools) : Prop where
  displaced : result.1 = (s.get? k).map detach
  get? : ∀ k', result.2.1.get? k' = if k' = k then some (attach v) else s.get? k'
  size : result.2.1.size = if s.contains k then s.size else s.size + 1

theorem assigned_set (valid : s.storage.Valid) (clean : pools.Clean)
    (unbounded : s.storage.Unbounded) (k : Key) (v : Value) :
    s.Assigned k v (s.set pools k v) := by
  have ascending : SortedMap.Ascending s.entries := valid.ascending
  have looked : ∀ k, s.get? k = lookup k s.entries := valid.get?_eq
  obtain ⟨old, answer, stored, -⟩ := set_spec valid clean k v
  obtain ⟨displaced, entries⟩ := stored.entries.resolve_right fun bounded => bounded.1 unbounded
  refine ⟨?_, fun k' => ?_, ?_⟩
  · rw [answer, displaced, looked]
    rfl
  · have found : (s.set pools k v).2.1.get? k' = _ := stored.valid.get?_eq k'
    rw [found, entries, looked]
    exact SortedMap.lookup_put ascending k (attach v) k'
  · have perm := (SortedMap.put_perm ascending k (attach v)).length_eq
    have after : (s.set pools k v).2.1.size = _ := (Storage.size_eq _).trans (congrArg _ entries)
    have before : s.size = s.entries.length := s.storage.size_eq
    rw [List.length_append, List.length_cons] at perm
    rw [after, contains, looked, before]
    change (SortedMap.put k (attach v) s.entries).length = _
    cases held : lookup k s.entries with
    | none => simpa [held] using perm
    | some u => simpa [held] using perm

theorem Read.get?_eq {after : Structure} (read : Read s after) (valid : s.storage.Valid) (k : Key) :
    after.get? k = s.get? k := by
  have looked : s.get? k = lookup k s.entries := valid.get?_eq k
  have looked' : after.get? k = lookup k after.entries := read.valid.get?_eq k
  rw [looked, looked', read.entries]

theorem Assigned.of_read {read : Structure} {k : Key} {v : Value}
    {result : Option Value × Structure × StructurePools} (valid : s.storage.Valid)
    (same : Read s read) (assigned : read.Assigned k v result) : s.Assigned k v result := by
  have get := same.get?_eq valid
  have size : read.size = s.size := by
    have before : s.size = s.entries.length := s.storage.size_eq
    have after : read.size = read.entries.length := read.storage.size_eq
    rw [before, after, same.entries]
  obtain ⟨displaced, found, sized⟩ := assigned
  simp only [contains, get, size] at displaced found sized
  exact ⟨displaced, found, sized⟩

/-- A structure with a key that can not be read is a ring with an entry under the greatest word. -/
theorem contains_of_overflows (valid : s.storage.Valid) {k : Key}
    (overflow : s.overflows [.read k] = true) :
    s.layout = .ring ∧ s.contains (.int Int64.maxValue) = true := by
  rw [overflows] at overflow
  cases layout : s.storage with
  | ring r =>
    rw [layout] at overflow valid
    cases k with
    | int w =>
      simp only [List.any_cons, List.any_nil, Bool.or_false, Ring.overflows,
        Key.int?, Option.any_some, decide_eq_true_eq] at overflow
      refine ⟨layout_eq_ring.mpr ⟨r, layout⟩, ?_⟩
      rw [contains, get?, layout]
      exact (Ring.Valid.stop_le_iff valid).mp overflow.2
    | _ => simp [Ring.overflows, Key.int?] at overflow
  | _ => simp [layout] at overflow

theorem overflows_of_contains (valid : s.storage.Valid) (ring : s.layout = .ring)
    (held : s.contains (.int Int64.maxValue) = true) :
    s.overflows [.read (.int Int64.maxValue)] = true ∧
      ∀ k, s.overflows [.write (.int k)] = true := by
  obtain ⟨r, layout⟩ := layout_eq_ring.mp ring
  rw [layout] at valid
  rw [contains, get?, layout] at held
  have past := (Ring.Valid.stop_le_iff valid).mpr held
  have high := Int64.toInt_le r.first
  simp only [overflows, layout, List.any_cons, List.any_nil, Bool.or_false, Ring.overflows,
    Key.int?, Option.any_some, decide_eq_true_eq]
  exact ⟨⟨high, past⟩, fun _ => .inl past⟩

theorem ring_set_last (ring : s.layout = .ring) (valid : s.storage.Valid)
    (free : ¬ s.contains (.int Int64.maxValue) = true)
    (previous : s.contains (.int (Int64.maxValue - 1)) = true) (pools : StructurePools) (v : Value) :
    (s.set pools (.int Int64.maxValue) v).2.1.layout = .ring := by
  obtain ⟨r, layout⟩ := layout_eq_ring.mp ring
  rw [layout] at valid
  rw [contains, get?, layout] at free previous
  have words : Int64.maxValue.toInt = 2 ^ 63 - 1 ∧
    (Int64.maxValue - 1).toInt = 2 ^ 63 - 2 := by decide
  have stop := mt (Ring.Valid.stop_le_iff valid).mp free
  obtain ⟨u, found⟩ := Option.isSome_iff_exists.mp previous
  obtain ⟨i, index, -⟩ := Option.bind_eq_some_iff.mp found
  obtain ⟨inside, w, same, word⟩ := Ring.index?_eq_some index
  cases same
  have stop_eq := r.stop_eq
  have next : Int64.maxValue.toInt = r.stop := by omega
  have absent : r.index? (.int Int64.maxValue) = none := by
    rw [Ring.index?, if_neg (by omega)]
  have nonempty : ¬ r.cells.isEmpty = true := fun empty => by
    have := Ring.size_eq_zero_iff.mp empty
    omega
  have placed : r.place (.int Int64.maxValue) (attach v) =
      .stored (r.pushBack (attach v)).1 (r.pushBack (attach v)).2 := by
    rw [Ring.place]
    simp only [absent, if_neg nonempty, if_pos next]
  rw [set, placeAttempts, placeWithin, layout]
  simp only [Storage.place, placed]
  rfl

/-- A value that was put under a key at one end, be there room for it or not. -/
structure Lands (s : Structure) (front : Bool) (w : Int64) (v : Value)
    (result : Option Value × Structure × StructurePools) : Prop where
  valid : result.2.1.storage.Valid
  assigned : s.Assigned (.int w) v result
  ring : result.2.1.layout = .ring → s.layout = .ring
  within : s.layout = .ring → ¬ s.contains (.int Int64.maxValue) = true
  full : s.contains (.int (utmost front)) = true → w = utmost front
  free : ¬ s.contains (.int (utmost front)) = true →
    (w = Int64.maxValue ↔ front = false ∧ s.contains (.int (Int64.maxValue - 1)) = true) ∧
      ∀ w', s.contains (.int w') = true → Beyond front w w'
  last : s.layout = .ring → s.contains (.int (Int64.maxValue - 1)) = true →
    w = Int64.maxValue → result.2.1.layout = .ring

theorem lands_push (valid : s.storage.Valid) (clean : pools.Clean) (unbounded : s.storage.Unbounded)
    (front : Bool) (v : Value) (safe : s.overflows [edgeUse front] = false)
    (fits : s.overflows [.write (s.edgeKey front).1] = false) :
    ∃ w, s.Lands front w v (s.push pools front v) := by
  obtain ⟨w, key, read, full, free⟩ := edgeKey_spec valid front safe
  obtain ⟨old, -, stored, -⟩ := set_spec read.valid clean (.int w) v
  have layout := s.layout_edgeKey front
  have same : ∀ k, (s.edgeKey front).2.contains k = s.contains k := fun k => by
    rw [contains, contains, read.get?_eq valid]
  have within : s.layout = .ring → ¬ s.contains (.int Int64.maxValue) = true := by
    intro ring held
    have past := (overflows_of_contains read.valid (layout.trans ring) ((same _).trans held)).2 w
    rw [overflows_edgeKey, ← key, fits] at past
    cases past
  have pushed : s.push pools front v = (s.edgeKey front).2.set pools (.int w) v := by
    rw [push, key]
  rw [pushed]
  refine ⟨w, stored.valid,
    (assigned_set read.valid clean (read.unbounded unbounded) (.int w) v).of_read valid read,
    fun ring => ?_, within, full, free, fun ring previous greatest => ?_⟩
  · exact layout.symm.trans (((widens_set _ _ _ _).layout (.inr ring)).trans ring)
  · rw [greatest]
    exact ring_set_last (layout.trans ring) read.valid (mt ((same _).symm.trans ·) (within ring))
      ((same _).trans previous) pools v

theorem Lands.adds {front : Bool} {w : Int64} {v : Value}
    {result : Option Value × Structure × StructurePools} (lands : s.Lands front w v result)
    (roomy : s.Roomy front) : result.1 = none ∧ s.Adds w v front result.2.1 := by
  obtain ⟨last, beyond⟩ := lands.free roomy.1
  obtain ⟨displaced, get, size⟩ := lands.assigned
  have new : s.get? (.int w) = none := by
    cases found : s.get? (.int w) with
    | none => rfl
    | some u =>
      have itself := beyond w (by rw [contains, found]; rfl)
      cases front
      · exact absurd itself (Int.lt_irrefl _)
      · exact absurd itself (Int.lt_irrefl _)
  rw [new] at displaced
  rw [contains, new] at size
  refine ⟨displaced, fun k u held => ?_, size, by rw [get, if_pos rfl], beyond, fun k _ => ?_⟩
  · have other : k ≠ .int w := by
      rintro rfl
      rw [new] at held
      cases held
    rw [get, if_neg other, held]
  · refine Bool.eq_false_iff.mpr fun overflow => ?_
    obtain ⟨ring, held⟩ := contains_of_overflows lands.valid overflow
    rw [contains, get] at held
    split at held
    · rename_i same
      obtain ⟨back, previous⟩ := last.mp (Key.int.inj same).symm
      exact roomy.2 (lands.ring ring) back previous
    · exact lands.within (lands.ring ring) held

theorem Lands.not_adds {front : Bool} {w : Int64} {v : Value}
    {result : Option Value × Structure × StructurePools} (lands : s.Lands front w v result)
    (full : ¬ s.Roomy front) (w' : Int64) : ¬ s.Adds w' v front result.2.1 := by
  intro added
  refine full ⟨fun held => ?_, fun ring back previous => ?_⟩
  · have size := lands.assigned.size
    rw [added.size, if_pos (lands.full held ▸ held)] at size
    exact absurd size (Nat.succ_ne_self _)
  · subst back
    have greatest := (lands.free (lands.within ring)).1.mpr ⟨rfl, previous⟩
    have held : result.2.1.contains (.int Int64.maxValue) = true := by
      rw [contains, lands.assigned.get?, if_pos (congrArg Key.int greatest.symm)]
      rfl
    have unread := (overflows_of_contains lands.valid (lands.last ring previous greatest) held).1
    rw [added.readable _ held] at unread
    cases unread

/-- A value is added at one end exactly if there is room. Else it takes the place of the entry under
the outermost integer, or a ring comes to hold one that can not be read. -/
theorem push_spec (valid : s.storage.Valid) (clean : pools.Clean) (unbounded : s.storage.Unbounded)
    (front : Bool) (v : Value) (safe : s.overflows [edgeUse front] = false)
    (fits : s.overflows [.write (s.edgeKey front).1] = false) :
    (s.Roomy front →
      (s.push pools front v).1 = none ∧ ∃ w, s.Adds w v front (s.push pools front v).2.1) ∧
    (¬ s.Roomy front → ∀ w, ¬ s.Adds w v front (s.push pools front v).2.1) := by
  obtain ⟨w, lands⟩ := lands_push valid clean unbounded front v safe fits
  refine ⟨fun roomy => ?_, lands.not_adds⟩
  obtain ⟨new, added⟩ := lands.adds roomy
  exact ⟨new, w, added⟩

end ScriptMachine.Structure
