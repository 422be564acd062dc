import ScriptMachine.Proofs.Structure.Sound

/-!
# Moving along the keys

A structure in working order answers its least and its greatest key, and the keys next to every
probe that its layout can answer. So a walk from key to key, in either direction, visits exactly the
keys it holds and ends. A layout that holds its entries by position finds no key next to a probe
that is no integer, where a table with the same entries may find one.
-/

set_option autoImplicit false

namespace ScriptMachine

/-! ## Least and greatest keys -/

def LeastOf (fits : Key → Prop) : Option Key → Prop
  | none => ∀ k, ¬ fits k
  | some k => fits k ∧ ∀ other, fits other → other ≠ k → compare k other = .lt

def GreatestOf (fits : Key → Prop) : Option Key → Prop
  | none => ∀ k, ¬ fits k
  | some k => fits k ∧ ∀ other, fits other → other ≠ k → compare other k = .lt

theorem Key.lt_of_not_lt {a b : Key} (ne : b ≠ a) (notLess : compare b a ≠ .lt) :
    compare a b = .lt := by
  cases cmp : compare a b with
  | lt => rfl
  | eq => exact absurd (Std.LawfulEqOrd.eq_of_compare cmp).symm ne
  | gt => exact absurd (Std.OrientedCmp.lt_of_gt cmp) notLess

theorem Key.not_lt_self (k : Key) : compare k k ≠ .lt := by
  rw [Std.ReflOrd.compare_self]
  decide

variable {fits : Key → Prop} {a b : Option Key}

theorem Key.not_lt_of_lt {a b : Key} (less : compare a b = .lt) : compare b a ≠ .lt := fun greater =>
  Key.not_lt_self a (Std.TransCmp.lt_trans less greater)

theorem eq_of_outermost {ahead : Key → Key → Prop} (asymm : ∀ x y, ahead x y → ¬ ahead y x)
    {k l : Key} (one : fits k ∧ ∀ other, fits other → other ≠ k → ahead k other)
    (two : fits l ∧ ∀ other, fits other → other ≠ l → ahead l other) : k = l := by
  by_cases same : k = l
  · exact same
  · exact absurd (two.2 k one.1 same) (asymm k l (one.2 l two.1 (Ne.symm same)))

theorem LeastOf.unique (one : LeastOf fits a) (two : LeastOf fits b) : a = b := by
  have asymm : ∀ x y : Key, compare x y = .lt → ¬ compare y x = .lt := fun _ _ => Key.not_lt_of_lt
  match a, b, one, two with
  | none, none, _, _ => rfl
  | none, some l, one, two => exact absurd two.1 (one l)
  | some k, none, one, two => exact absurd one.1 (two k)
  | some k, some l, one, two => exact congrArg some (eq_of_outermost asymm one two)

theorem GreatestOf.unique (one : GreatestOf fits a) (two : GreatestOf fits b) : a = b := by
  have asymm : ∀ x y : Key, compare y x = .lt → ¬ compare x y = .lt := fun _ _ => Key.not_lt_of_lt
  match a, b, one, two with
  | none, none, _, _ => rfl
  | none, some l, one, two => exact absurd two.1 (one l)
  | some k, none, one, two => exact absurd one.1 (two k)
  | some k, some l, one, two => exact congrArg some (eq_of_outermost asymm one two)

section Lines
variable {before rest : List Key} {k : Key}

theorem leastOf_behind (line : (before ++ k :: rest).Pairwise fun a b => compare a b = .lt) :
    LeastOf (fun x => x ∈ before ++ k :: rest ∧ compare k x = .lt) rest.head? := by
  obtain ⟨_, behind, early⟩ := List.pairwise_append.mp line
  obtain ⟨above, tail⟩ := List.pairwise_cons.mp behind
  have later : ∀ x, x ∈ before ++ k :: rest → compare k x = .lt → x ∈ rest := by
    intro x mem lt
    rcases List.mem_append.mp mem with mem | mem
    · have loop := Std.TransCmp.lt_trans lt (early x mem k (List.mem_cons_self ..))
      exact absurd loop (Key.not_lt_self k)
    · rcases List.mem_cons.mp mem with rfl | mem
      · exact absurd lt (Key.not_lt_self x)
      · exact mem
  cases rest with
  | nil =>
    rintro x ⟨mem, lt⟩
    exact List.not_mem_nil (later x mem lt)
  | cons r rest =>
    refine ⟨⟨by simp, above r (List.mem_cons_self ..)⟩, ?_⟩
    rintro x ⟨mem, lt⟩ ne
    have inside := (List.mem_cons.mp (later x mem lt)).resolve_left ne
    exact (List.pairwise_cons.mp tail).1 x inside

theorem greatestOf_before (line : (before ++ k :: rest).Pairwise fun a b => compare a b = .lt) :
    GreatestOf (fun x => x ∈ before ++ k :: rest ∧ compare x k = .lt) before.getLast? := by
  obtain ⟨front, behind, early⟩ := List.pairwise_append.mp line
  have above := (List.pairwise_cons.mp behind).1
  have sooner : ∀ x, x ∈ before ++ k :: rest → compare x k = .lt → x ∈ before := by
    intro x mem lt
    rcases List.mem_append.mp mem with mem | mem
    · exact mem
    · rcases List.mem_cons.mp mem with rfl | mem
      · exact absurd lt (Key.not_lt_self x)
      · exact absurd (Std.TransCmp.lt_trans lt (above x mem)) (Key.not_lt_self x)
  rcases List.eq_nil_or_concat before with rfl | ⟨init, r, rfl⟩
  · rintro x ⟨mem, lt⟩
    exact List.not_mem_nil (sooner x mem lt)
  · rw [List.concat_eq_append] at early sooner front ⊢
    rw [List.getLast?_concat]
    refine ⟨⟨by simp, early r (by simp) k (List.mem_cons_self ..)⟩, ?_⟩
    rintro x ⟨mem, lt⟩ ne
    have inside : x ∈ init := by simpa [ne] using sooner x mem lt
    exact (List.pairwise_append.mp front).2.2 x inside r (List.mem_singleton.mpr rfl)

end Lines

namespace Structure

variable {s : Structure}

/-! ## What is held -/

theorem contains_iff (valid : s.storage.Valid) {k : Key} :
    s.contains k = true ↔ k ∈ s.entries.map Prod.fst := by
  have ascending : SortedMap.Ascending s.entries := valid.ascending
  have looked : s.get? k = SortedMap.lookup k s.entries := valid.get?_eq k
  rw [contains, looked, isSome_lookup ascending]
  simp

theorem mem_keys (valid : s.storage.Valid) {k : Key} : k ∈ s.keys.1 ↔ s.contains k = true := by
  rw [(keys_spec valid).1, contains_iff valid]

theorem pairwise_keys (valid : s.storage.Valid) :
    s.keys.1.Pairwise fun a b => compare a b = .lt := by
  rw [(keys_spec valid).1]
  exact SortedMap.ascending_iff_keys.mp valid.ascending

theorem contains_of_mem (valid : s.storage.Valid) {k : Key} {v : Value} (mem : (k, v) ∈ s.entries) :
    s.contains k = true :=
  (contains_iff valid).mpr (List.mem_map_of_mem mem)

theorem exists_entry (valid : s.storage.Valid) {k : Key} (held : s.contains k = true) :
    ∃ v, (k, v) ∈ s.entries := by
  obtain ⟨⟨k', v⟩, mem, rfl⟩ := List.mem_map.mp ((contains_iff valid).mp held)
  exact ⟨v, mem⟩

theorem leastOf_firstKey? (valid : s.storage.Valid) :
    LeastOf (fun k => s.contains k = true) s.firstKey?.1 := by
  have first := (firstKey?_spec valid).1
  cases answer : s.firstKey?.1 with
  | none =>
    rw [answer] at first
    intro k held
    obtain ⟨v, mem⟩ := exists_entry valid held
    rw [show s.entries = [] from first] at mem
    cases mem
  | some k =>
    rw [answer] at first
    obtain ⟨v, mem, least⟩ := first
    refine ⟨contains_of_mem valid mem, fun other held ne => ?_⟩
    obtain ⟨u, mem'⟩ := exists_entry valid held
    exact Key.lt_of_not_lt ne (least _ mem')

theorem greatestOf_lastKey? (valid : s.storage.Valid) :
    GreatestOf (fun k => s.contains k = true) s.lastKey?.1 := by
  have last := (lastKey?_spec valid).1
  cases answer : s.lastKey?.1 with
  | none =>
    rw [answer] at last
    intro k held
    obtain ⟨v, mem⟩ := exists_entry valid held
    rw [show s.entries = [] from last] at mem
    cases mem
  | some k =>
    rw [answer] at last
    obtain ⟨v, mem, greatest⟩ := last
    refine ⟨contains_of_mem valid mem, fun other held ne => ?_⟩
    obtain ⟨u, mem'⟩ := exists_entry valid held
    exact Key.lt_of_not_lt (Ne.symm ne) (greatest _ mem')

def Above (s : Structure) (probe k : Key) : Prop := s.contains k = true ∧ compare probe k = .lt

def Below (s : Structure) (probe k : Key) : Prop := s.contains k = true ∧ compare k probe = .lt

theorem leastOf_nextKey? (valid : s.storage.Valid) {probe : Key} (meets : s.Meets probe) :
    LeastOf (s.Above probe) (s.nextKey? probe).1 := by
  have next := nextKey?_spec valid meets
  cases answer : (s.nextKey? probe).1 with
  | none =>
    rw [answer] at next
    rintro k ⟨held, above⟩
    obtain ⟨v, mem⟩ := exists_entry valid held
    exact next _ mem above
  | some k =>
    rw [answer] at next
    obtain ⟨⟨v, mem⟩, above, least⟩ := next
    refine ⟨⟨contains_of_mem valid mem, above⟩, ?_⟩
    rintro other ⟨held, above'⟩ ne
    obtain ⟨u, mem'⟩ := exists_entry valid held
    exact Key.lt_of_not_lt ne (least _ mem' above')

theorem greatestOf_prevKey? (valid : s.storage.Valid) {probe : Key} (meets : s.Meets probe) :
    GreatestOf (s.Below probe) (s.prevKey? probe).1 := by
  have prev := prevKey?_spec valid meets
  cases answer : (s.prevKey? probe).1 with
  | none =>
    rw [answer] at prev
    rintro k ⟨held, below⟩
    obtain ⟨v, mem⟩ := exists_entry valid held
    exact prev _ mem below
  | some k =>
    rw [answer] at prev
    obtain ⟨⟨v, mem⟩, below, greatest⟩ := prev
    refine ⟨⟨contains_of_mem valid mem, below⟩, ?_⟩
    rintro other ⟨held, below'⟩ ne
    obtain ⟨u, mem'⟩ := exists_entry valid held
    exact Key.lt_of_not_lt (Ne.symm ne) (greatest _ mem' below')

theorem meets_of_contains (valid : s.storage.Valid) {k : Key} (held : s.contains k = true) :
    s.Meets k := by
  intro positional
  obtain ⟨v, mem⟩ := exists_entry valid held
  exact positional.int mem

/-! ## Walks -/

inductive Visits (move : Structure → Key → Option Key × Structure) :
    Option Key × Structure → List Key → Prop
  | stop (s : Structure) : Visits move (none, s) []
  | step (k : Key) (s : Structure) (keys : List Key) (rest : Visits move (move s k) keys) :
      Visits move (some k, s) (k :: keys)

theorem Visits.unique {move : Structure → Key → Option Key × Structure}
    {answer : Option Key × Structure} {keys keys' : List Key} (one : Visits move answer keys)
    (two : Visits move answer keys') : keys = keys' := by
  induction one generalizing keys' with
  | stop s =>
    cases two
    rfl
  | step k s keys rest ih =>
    cases two with
    | step _ _ keys' rest' => rw [ih rest']

theorem visits_iff {move : Structure → Key → Option Key × Structure}
    {answer : Option Key × Structure} {keys : List Key} (visits : Visits move answer keys)
    (walk : List Key) : Visits move answer walk ↔ walk = keys := by
  constructor
  · intro other
    exact other.unique visits
  · rintro rfl
    exact visits

/-- A walk that moves along a list one key at a time visits what is left of it. -/
theorem visits_of_steps {move : Structure → Key → Option Key × Structure}
    {Good : Structure → Prop} {keys : List Key}
    (steps : ∀ s before k rest, Good s → keys = before ++ k :: rest →
      (move s k).1 = rest.head? ∧ Good (move s k).2) (rest : List Key) :
    ∀ (before : List Key) (answer : Option Key × Structure), keys = before ++ rest →
      answer.1 = rest.head? → Good answer.2 → Visits move answer rest := by
  induction rest with
  | nil =>
    rintro before ⟨_, s⟩ _ rfl _
    exact .stop s
  | cons k rest ih =>
    rintro before ⟨_, s⟩ split rfl good
    obtain ⟨next, good'⟩ := steps s before k rest good split
    have split' : keys = (before ++ [k]) ++ rest := by simpa using split
    exact .step k s rest (ih _ _ split' next good')

/-- The structure as it is during a walk: readings may have brought its index up to date. -/
def Walked (keys : List Key) (s : Structure) : Prop := s.storage.Valid ∧ s.keys.1 = keys

theorem Walked.read {keys : List Key} {after : Structure} (walked : Walked keys s)
    (read : Read s after) : Walked keys after := by
  refine ⟨read.valid, ?_⟩
  rw [(keys_spec read.valid).1, read.entries, ← (keys_spec walked.1).1]
  exact walked.2

theorem Walked.mem {before rest : List Key} {k : Key} (walked : Walked (before ++ k :: rest) s)
    (x : Key) : s.contains x = true ↔ x ∈ before ++ k :: rest := by
  rw [← mem_keys walked.1, walked.2]

theorem Walked.meets {before rest : List Key} {k : Key} (walked : Walked (before ++ k :: rest) s) :
    s.Meets k :=
  meets_of_contains walked.1 ((walked.mem k).mpr (by simp))

theorem Walked.nextKey? {before rest : List Key} {k : Key}
    (line : (before ++ k :: rest).Pairwise fun a b => compare a b = .lt)
    (walked : Walked (before ++ k :: rest) s) : (s.nextKey? k).1 = rest.head? := by
  have above : s.Above k = fun x => x ∈ before ++ k :: rest ∧ compare k x = .lt := by
    funext x
    rw [Above, walked.mem]
  have next := leastOf_nextKey? walked.1 walked.meets
  rw [above] at next
  exact next.unique (leastOf_behind line)

theorem Walked.prevKey? {before rest : List Key} {k : Key}
    (line : (before ++ k :: rest).Pairwise fun a b => compare a b = .lt)
    (walked : Walked (before ++ k :: rest) s) : (s.prevKey? k).1 = before.getLast? := by
  have below : s.Below k = fun x => x ∈ before ++ k :: rest ∧ compare x k = .lt := by
    funext x
    rw [Below, walked.mem]
  have prev := greatestOf_prevKey? walked.1 walked.meets
  rw [below] at prev
  exact prev.unique (greatestOf_before line)

theorem head?_keys (valid : s.storage.Valid) : s.firstKey?.1 = s.keys.1.head? := by
  refine (leastOf_firstKey? valid).unique ?_
  have line := pairwise_keys valid
  cases held : s.keys.1 with
  | nil =>
    intro k present
    rw [← mem_keys valid, held] at present
    cases present
  | cons k rest =>
    rw [held] at line
    refine ⟨(mem_keys valid).mp (held ▸ List.mem_cons_self ..), fun other present ne => ?_⟩
    have listed := (mem_keys valid).mpr present
    rw [held] at listed
    exact (List.pairwise_cons.mp line).1 other ((List.mem_cons.mp listed).resolve_left ne)

theorem getLast?_keys (valid : s.storage.Valid) : s.lastKey?.1 = s.keys.1.getLast? := by
  refine (greatestOf_lastKey? valid).unique ?_
  have line := pairwise_keys valid
  rcases List.eq_nil_or_concat s.keys.1 with held | ⟨init, k, held⟩
  · rw [held]
    intro k present
    rw [← mem_keys valid, held] at present
    cases present
  · rw [List.concat_eq_append] at held
    rw [held, List.getLast?_concat]
    rw [held] at line
    refine ⟨(mem_keys valid).mp (by simp [held]), fun other present ne => ?_⟩
    have listed := (mem_keys valid).mpr present
    have inside : other ∈ init := by simpa [held, ne] using listed
    exact (List.pairwise_append.mp line).2.2 other inside k (List.mem_singleton.mpr rfl)

theorem visits_upwards (valid : s.storage.Valid) : Visits nextKey? s.firstKey? s.keys.1 := by
  have steps : ∀ t before k rest, Walked s.keys.1 t → s.keys.1 = before ++ k :: rest →
      (t.nextKey? k).1 = rest.head? ∧ Walked s.keys.1 (t.nextKey? k).2 := by
    intro t before k rest walked split
    have line := pairwise_keys valid
    rw [split] at walked line ⊢
    exact ⟨walked.nextKey? line, walked.read (nextKey?_read walked.1 k)⟩
  have start : Walked s.keys.1 s := ⟨valid, rfl⟩
  exact visits_of_steps steps s.keys.1 [] s.firstKey? rfl (head?_keys valid)
    (start.read (firstKey?_spec valid).2)

theorem visits_downwards (valid : s.storage.Valid) :
    Visits prevKey? s.lastKey? s.keys.1.reverse := by
  have steps : ∀ t before k rest, Walked s.keys.1 t → s.keys.1.reverse = before ++ k :: rest →
      (t.prevKey? k).1 = rest.head? ∧ Walked s.keys.1 (t.prevKey? k).2 := by
    intro t before k rest walked split
    have line := pairwise_keys valid
    have turned : s.keys.1 = rest.reverse ++ k :: before.reverse := by
      rw [← List.reverse_reverse s.keys.1, split]
      simp
    rw [turned] at walked line ⊢
    refine ⟨?_, walked.read (prevKey?_read walked.1 k)⟩
    rw [walked.prevKey? line, List.getLast?_reverse]
  have start : Walked s.keys.1 s := ⟨valid, rfl⟩
  refine visits_of_steps steps s.keys.1.reverse [] s.lastKey? rfl ?_
    (start.read (lastKey?_spec valid).2)
  rw [getLast?_keys valid, List.head?_reverse]

/-! ## All structures -/

structure Navigates (s : Structure) : Prop where
  first : LeastOf (fun k => s.contains k = true) s.firstKey?.1
  last : GreatestOf (fun k => s.contains k = true) s.lastKey?.1
  first_none : s.firstKey?.1 = none ↔ s.size = 0
  last_none : s.lastKey?.1 = none ↔ s.size = 0
  next : ∀ probe, s.Meets probe → LeastOf (s.Above probe) (s.nextKey? probe).1
  prev : ∀ probe, s.Meets probe → GreatestOf (s.Below probe) (s.prevKey? probe).1
  held : ∀ k, k ∈ s.keys.1 ↔ s.contains k = true
  ascending : s.keys.1.Pairwise fun a b => compare a b = .lt
  upwards : ∀ walk, Visits nextKey? s.firstKey? walk ↔ walk = s.keys.1
  downwards : ∀ walk, Visits prevKey? s.lastKey? walk ↔ walk = s.keys.1.reverse

theorem keys_eq_nil (valid : s.storage.Valid) : s.keys.1 = [] ↔ s.size = 0 := by
  have size : s.size = s.entries.length := s.storage.size_eq
  rw [(keys_spec valid).1, List.map_eq_nil_iff, size, List.length_eq_zero_iff]

theorem navigates_of_valid (valid : s.storage.Valid) : s.Navigates where
  first := leastOf_firstKey? valid
  last := greatestOf_lastKey? valid
  first_none := by rw [head?_keys valid, List.head?_eq_none_iff, keys_eq_nil valid]
  last_none := by rw [getLast?_keys valid, List.getLast?_eq_none_iff, keys_eq_nil valid]
  next := fun _ => leastOf_nextKey? valid
  prev := fun _ => greatestOf_prevKey? valid
  held := fun _ => mem_keys valid
  ascending := pairwise_keys valid
  upwards := visits_iff (visits_upwards valid)
  downwards := visits_iff (visits_downwards valid)

/-! ## Probes that are no integers -/

/-- Held by position, no key is next to a probe that is no integer. -/
theorem neighbours_of_positional (positional : s.Positional) {probe : Key}
    (foreign : ∀ w, probe ≠ .int w) :
    (s.nextKey? probe).1 = none ∧ (s.prevKey? probe).1 = none := by
  unfold nextKey? prevKey?
  rcases positional with dense | ring
  · obtain ⟨d, row⟩ := layout_eq_dense.mp dense
    rw [row]
    cases probe with
    | int w => exact absurd rfl (foreign w)
    | _ => exact ⟨rfl, rfl⟩
  · obtain ⟨r, row⟩ := layout_eq_ring.mp ring
    rw [row]
    cases probe with
    | int w => exact absurd rfl (foreign w)
    | _ => exact ⟨rfl, rfl⟩

theorem meets_of_mixed (mixed : s.layout = .mixed) (probe : Key) : s.Meets probe := by
  rintro (dense | ring)
  · rw [mixed] at dense
    cases dense
  · rw [mixed] at ring
    cases ring

theorem contains_congr {t : Structure} (valid : s.storage.Valid) (valid' : t.storage.Valid)
    (same : t.entries = s.entries) (k : Key) : t.contains k = true ↔ s.contains k = true := by
  rw [contains_iff valid, contains_iff valid', same]

end Structure

namespace Workshop

/-- Every structure that was made and used together with others answers its keys in order, for
every probe that its layout can answer. -/
theorem ordered_navigation (uses : List (Layout × Nat ⊕ Storage)) {works : List Work}
    {s : Structure}
    (made : some s ∈ (performAll works { pools := Structure.usedPools uses }).2.made) :
    s.Navigates :=
  Structure.navigates_of_valid ((sound_of_works uses works).valid s made)

/-- A row with a hole, its copy that a text and a truth value make a table, a queue that grows at
both ends, and a reading in between. -/
def shelves : List Work :=
  [.new 4, .set 0 (.int 3) (.int 30), .set 0 (.int 1) (.int 10), .set 0 (.int 2) (.int 20),
    .probe 0 (.delete (.int 2)), .copy 0 fun _ v => v, .set 1 (.str "a") .null, .probe 1 .keys,
    .set 1 (.bool true) .null, .queue 2, .append 2 .null, .prepend 2 .null, .append 2 .null]

theorem ordered_navigation_shelves :
    ∃ s, some s ∈ (performAll shelves { pools := Structure.usedPools [] }).2.made ∧
      s.layout = .mixed ∧ s.keys.1 = [.bool true, .int 1, .int 3, .str "a"] ∧ s.Navigates :=
  have mem := List.mem_of_getElem? (i := 1) rfl
  ⟨_, mem, rfl, rfl, ordered_navigation [] mem⟩

/-- Held by position, the keys next to a probe that is no integer are the right ones, and those that
a table of the same entries answers, if and only if there are none on that side of the probe. -/
theorem foreign_neighbours_iff (uses : List (Layout × Nat ⊕ Storage)) {works : List Work}
    {s : Structure}
    (made : some s ∈ (performAll works { pools := Structure.usedPools uses }).2.made)
    (positional : s.Positional) {probe : Key} (foreign : ∀ w, probe ≠ .int w) :
    (LeastOf (s.Above probe) (s.nextKey? probe).1 ↔ ∀ k, ¬ s.Above probe k) ∧
      (GreatestOf (s.Below probe) (s.prevKey? probe).1 ↔ ∀ k, ¬ s.Below probe k) ∧
      ∀ t, some t ∈ (performAll works { pools := Structure.usedPools uses }).2.made →
        t.layout = .mixed → t.entries = s.entries →
        ((s.nextKey? probe).1 = (t.nextKey? probe).1 ↔ ∀ k, ¬ s.Above probe k) ∧
          ((s.prevKey? probe).1 = (t.prevKey? probe).1 ↔ ∀ k, ¬ s.Below probe k) := by
  have sound := sound_of_works uses works
  obtain ⟨next, prev⟩ := Structure.neighbours_of_positional positional foreign
  rw [next, prev]
  refine ⟨Iff.rfl, Iff.rfl, fun t made' mixed same => ?_⟩
  have valid := sound.valid t made'
  have held := Structure.contains_congr (sound.valid s made) valid same
  have above : t.Above probe = s.Above probe := by
    funext k
    rw [Structure.Above, Structure.Above, held]
  have below : t.Below probe = s.Below probe := by
    funext k
    rw [Structure.Below, Structure.Below, held]
  have next' := Structure.leastOf_nextKey? valid (Structure.meets_of_mixed mixed probe)
  have prev' := Structure.greatestOf_prevKey? valid (Structure.meets_of_mixed mixed probe)
  rw [above] at next'
  rw [below] at prev'
  refine ⟨⟨fun answer => ?_, fun no => ?_⟩, ⟨fun answer => ?_, fun no => ?_⟩⟩
  · rw [← answer] at next'
    exact next'
  · exact LeastOf.unique (a := none) no next'
  · rw [← answer] at prev'
    exact prev'
  · exact GreatestOf.unique (a := none) no prev'

/-- A row, and its copy that became a table for a text that is gone. -/
def rowAndTable : List Work :=
  [.new 4, .set 0 (.int 0) (.int 10), .copy 0 fun _ v => v, .set 1 (.str "a") .null,
    .probe 1 (.delete (.str "a"))]

/-- No key is above a text in a row, so the table has no other answer. -/
theorem foreign_neighbours_row :
    ∃ s t,
      some s ∈ (performAll rowAndTable { pools := Structure.usedPools [] }).2.made ∧
      some t ∈ (performAll rowAndTable { pools := Structure.usedPools [] }).2.made ∧
      s.Positional ∧ t.layout = .mixed ∧ t.entries = s.entries ∧
      (∀ w, Key.str "x" ≠ .int w) ∧ (∀ k, ¬ s.Above (.str "x") k) ∧
      (s.nextKey? (.str "x")).1 = (t.nextKey? (.str "x")).1 := by
  have row := List.mem_of_getElem? (i := 0) (rfl :
    (performAll rowAndTable { pools := Structure.usedPools [] }).2.made[0]? = some (some _))
  have table := List.mem_of_getElem? (i := 1) (rfl :
    (performAll rowAndTable { pools := Structure.usedPools [] }).2.made[1]? = some (some _))
  have foreign : ∀ w, Key.str "x" ≠ .int w := nofun
  obtain ⟨-, -, alike⟩ := foreign_neighbours_iff [] row (.inl rfl) foreign
  have next := (alike _ table rfl rfl).1
  exact ⟨_, _, row, table, .inl rfl, rfl, rfl, foreign, next.mp rfl, rfl⟩

/-- The row finds nothing above a truth value and nothing below a text, where the table with the
same entry finds the key it holds. -/
theorem row_misses_neighbours : ∃ s t,
    some s ∈ (performAll rowAndTable { pools := Structure.usedPools [] }).2.made ∧
    some t ∈ (performAll rowAndTable { pools := Structure.usedPools [] }).2.made ∧
    s.layout = .dense ∧ t.layout = .mixed ∧ t.entries = s.entries ∧
    s.Above (.bool true) (.int 0) ∧ (s.nextKey? (.bool true)).1 = none ∧
    (t.nextKey? (.bool true)).1 = some (.int 0) ∧
    s.Below (.str "x") (.int 0) ∧ (s.prevKey? (.str "x")).1 = none ∧
    (t.prevKey? (.str "x")).1 = some (.int 0) :=
  ⟨_, _, List.mem_of_getElem? (i := 0) rfl, List.mem_of_getElem? (i := 1) rfl, rfl, rfl, rfl,
    ⟨rfl, rfl⟩, rfl, rfl, ⟨rfl, rfl⟩, rfl, rfl⟩

end Workshop

end ScriptMachine
