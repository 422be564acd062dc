import ScriptMachine.Proofs.Number.Rounding
import ScriptMachine.Value.Key

/-!
# The order of keys is linear

Keys are compared by kind, then by their position among the keys of that kind, then by what tells
keys of one position apart: an integer comes before the double that it is rounded to, and integers
that are rounded to one double keep their own order. So the order of keys is lexicographic in
measures that are linearly ordered themselves.

Of the rounding only its monotonicity is used: `Key.orderBy` takes it as a parameter.
-/

set_option autoImplicit false

namespace ScriptMachine.Key

/-- The order of keys, with integers taken to doubles by `round`. -/
def orderBy (round : Int64 → Double) : Key → Key → Ordering
  | .bool a, .bool b => compare a.toNat b.toNat
  | .int a, .int b => compare a.toInt b.toInt
  | .float a, .float b => a.order b
  | .int a, .float b => ((round a).order b).then .lt
  | .float a, .int b => (a.order (round b)).then .gt
  | .str a, .str b => compare a b
  | .ref a, .ref b => a.order b
  | a, b => compare a.rank b.rank

def nearest (v : Int64) : Double := Double.ofInt v.toInt

theorem compare_eq_orderBy : (compare : Key → Key → Ordering) = orderBy nearest := by
  funext a b
  cases a <;> cases b <;> rfl

/-- A larger word is never taken to a smaller double. -/
def KeepsOrder (round : Int64 → Double) : Prop :=
  ∀ i j : Int64, i ≤ j → (round i).order (round j) ≠ .gt

theorem KeepsOrder.rank_le {round : Int64 → Double} (keeps : KeepsOrder round) {i j : Int64}
    (le : i ≤ j) : (round i).rank ≤ (round j).rank :=
  Int.compare_ne_gt.mp (keeps i j le)

theorem keepsOrder_nearest : KeepsOrder nearest := fun _ _ le =>
  Int.compare_ne_gt.mpr (Double.rank_ofInt_mono (Int64.le_iff_toInt_le.mp le))

section Measures

variable (round : Int64 → Double)

/-- Position of a key among the keys of its kind. -/
def position : Key → Int
  | .bool b => b.toNat
  | .int v => (round v).rank
  | .float x => x.rank
  | .str _ => 0
  | .ref r => r.kind.rank

def side : Key → Nat
  | .float _ => 1
  | _ => 0

def word : Key → Int
  | .int v => v.toInt
  | _ => 0

def content : Key → String
  | .str s => s
  | _ => ""

def slot : Key → Nat × Nat
  | .ref r => (r.handle.index, r.handle.generation)
  | _ => (0, 0)

def measured : Key → Key → Ordering :=
  compareLex (compareOn rank) <| compareLex (compareOn (position round)) <|
    compareLex (compareOn side) <| compareLex (compareOn word) <|
      compareLex (compareOn content) <|
        compareLex (compareOn fun k => k.slot.1) (compareOn fun k => k.slot.2)

instance : Std.TransCmp (measured round) := by
  unfold measured
  infer_instance

end Measures

variable {round : Int64 → Double}

/-- Integers are ordered as the doubles they are rounded to, and where these agree by themselves. -/
theorem compare_word (keeps : KeepsOrder round) (i j : Int64) :
    compare i.toInt j.toInt
      = (compare (round i).rank (round j).rank).then (compare i.toInt j.toInt) := by
  rcases Int.lt_trichotomy i.toInt j.toInt with lt | eq | gt
  · have le := keeps.rank_le (Int64.le_iff_toInt_le.mpr (Int.le_of_lt lt))
    have cmp : compare i.toInt j.toInt = .lt := Std.compare_eq_lt.mpr lt
    rcases Int.lt_or_eq_of_le le with lt' | eq'
    · rw [cmp, Std.compare_eq_lt.mpr lt']
      rfl
    · rw [cmp, eq', Std.ReflOrd.compare_self]
      rfl
  · rw [Int64.toInt_inj.mp eq, Std.ReflOrd.compare_self, Std.ReflOrd.compare_self]
    rfl
  · have le := keeps.rank_le (Int64.le_iff_toInt_le.mpr (Int.le_of_lt gt))
    have cmp : compare i.toInt j.toInt = .gt := Std.compare_eq_gt.mpr gt
    rcases Int.lt_or_eq_of_le le with lt' | eq'
    · rw [cmp, Std.compare_eq_gt.mpr lt']
      rfl
    · rw [cmp, eq', Std.ReflOrd.compare_self]
      rfl

theorem orderBy_eq_measured (keeps : KeepsOrder round) : orderBy round = measured round := by
  have selfNat : ∀ n : Nat, compare n n = .eq := fun n => Std.ReflOrd.compare_self
  have selfText : ∀ s : String, compare s s = .eq := fun s => Std.ReflOrd.compare_self
  funext a b
  cases a with
  | bool a => cases b <;> simp [orderBy, measured, compareLex, compareOn, rank, position, side,
      word, content, slot, compare_natCast] <;> rfl
  | int a =>
    cases b with
    | int b =>
      simp only [orderBy, measured, compareLex, compareOn, rank, position, side, word, content,
        slot, selfNat, selfText, Ordering.then_eq, Ordering.eq_then]
      exact compare_word keeps a b
    | float b =>
      simp only [orderBy, measured, compareLex, compareOn, rank, position, side, selfNat,
        Ordering.eq_then, Double.order]
      rfl
    | _ => rfl
  | float a =>
    cases b with
    | int b =>
      simp only [orderBy, measured, compareLex, compareOn, rank, position, side, selfNat,
        Ordering.eq_then, Double.order]
      rfl
    | float b =>
      simp [orderBy, measured, compareLex, compareOn, rank, position, side, word, content, slot,
        Double.order]
    | _ => rfl
  | str a => cases b <;> simp [orderBy, measured, compareLex, compareOn, rank, position, side,
      word, content, slot] <;> rfl
  | ref a => cases b <;> simp [orderBy, measured, compareLex, compareOn, rank, position, side,
      word, content, slot, compare_natCast, HeapRef.order] <;> rfl

theorem eq_of_measured {a b : Key} (same : measured round a b = .eq) : a = b := by
  simp only [measured, compareLex_eq_eq, compareOn, Std.LawfulEqOrd.compare_eq_iff_eq] at same
  obtain ⟨kind, position', side', word', content', index, generation⟩ := same
  cases a <;> cases b <;> simp_all [rank, position, side, word, content, slot]
  · rename_i a b
    cases a <;> cases b <;> simp_all
  · exact Int64.toInt_inj.mp word'
  · exact Double.rank_injective position'
  · rename_i a b
    obtain ⟨kindA, indexA, generationA⟩ := a
    obtain ⟨kindB, indexB, generationB⟩ := b
    cases kindA <;> cases kindB <;> simp_all [HeapKind.rank]

theorem transCmp_orderBy (keeps : KeepsOrder round) : Std.TransCmp (orderBy round) := by
  rw [orderBy_eq_measured keeps]
  infer_instance

theorem lawfulEqCmp_orderBy (keeps : KeepsOrder round) : Std.LawfulEqCmp (orderBy round) := by
  rw [orderBy_eq_measured keeps]
  exact { compare_self := Std.ReflCmp.compare_self, eq_of_compare := eq_of_measured }

instance : Std.TransOrd Key := by
  show Std.TransCmp (compare : Key → Key → Ordering)
  rw [compare_eq_orderBy]
  exact transCmp_orderBy keepsOrder_nearest

instance : Std.LawfulEqOrd Key := by
  show Std.LawfulEqCmp (compare : Key → Key → Ordering)
  rw [compare_eq_orderBy]
  exact lawfulEqCmp_orderBy keepsOrder_nearest

/-- The laws of a linear order, for a comparison of keys. -/
def Linear (order : Key → Key → Ordering) : Prop :=
  ∀ a b c, (order a b = .eq ↔ a = b) ∧ order b a = (order a b).swap ∧
    (order a b ≠ .gt → order b c ≠ .gt → order a c ≠ .gt)

theorem linear_orderBy (keeps : KeepsOrder round) : Linear (orderBy round) := by
  have := transCmp_orderBy keeps
  have := lawfulEqCmp_orderBy keeps
  intro a b c
  refine ⟨Std.LawfulEqCmp.compare_eq_iff_eq, Std.OrientedCmp.eq_swap, fun ab bc => ?_⟩
  have isLE := Std.TransCmp.isLE_trans (Ordering.ne_gt_iff_isLE.mp ab)
    (Ordering.ne_gt_iff_isLE.mp bc)
  exact Ordering.ne_gt_iff_isLE.mpr isLE

theorem ofValue_toValue {v : Value} {k : Key} (normal : ofValue v = .ok k) :
    ofValue k.toValue = .ok k := by
  unfold ofValue at normal
  split at normal
  · cases normal
    rfl
  · cases normal
    rfl
  · rename_i x content
    split at normal
    · cases normal
      rfl
    · rename_i noWord
      split at normal
      · rename_i finite
        cases normal
        simp [ofValue, toValue, Value.float, noWord, finite]
      · cases normal
  · rename_i s content
    split at normal
    · cases normal
    · rename_i nonempty
      cases normal
      simp [ofValue, toValue, Value.str, nonempty]
  all_goals cases normal
  all_goals rfl

/-- **Keys are linearly ordered.** The order of keys agrees with their equality, for every rounding
of integers to doubles that keeps their order, in particular for rounding to the nearest double; and
a key that a value has been normalised to is the normal form of its own value. -/
theorem order_linear :
    (∀ round : Int64 → Double, KeepsOrder round → Linear (orderBy round)) ∧
      (compare : Key → Key → Ordering) = orderBy nearest ∧ Linear compare ∧
      ∀ (v : Value) (k : Key), ofValue v = .ok k → ofValue k.toValue = .ok k := by
  refine ⟨fun _ keeps => linear_orderBy keeps, compare_eq_orderBy, ?_, fun _ _ => ofValue_toValue⟩
  rw [compare_eq_orderBy]
  exact linear_orderBy keepsOrder_nearest

theorem order_linear_rounded :
    KeepsOrder nearest ∧
      orderBy nearest (.int 9007199254740993) (.float ⟨0x4340000000000000⟩) = .lt ∧
      orderBy nearest (.float ⟨0x4340000000000000⟩) (.int 9007199254740994) = .lt ∧
      orderBy nearest (.int 9007199254740993) (.int 9007199254740994) ≠ .gt ∧
      ofValue (.float ⟨0x4004000000000000⟩) = .ok (.float ⟨0x4004000000000000⟩) ∧
      ofValue (Key.float ⟨0x4004000000000000⟩).toValue = .ok (.float ⟨0x4004000000000000⟩) :=
  ⟨keepsOrder_nearest, by decide, by decide,
    (order_linear.1 nearest keepsOrder_nearest _ _ _).2.2
      (show orderBy nearest _ (.float ⟨0x4340000000000000⟩) ≠ .gt by decide) (by decide),
    rfl, order_linear.2.2.2 (.float ⟨0x4004000000000000⟩) _ rfl⟩

end ScriptMachine.Key
