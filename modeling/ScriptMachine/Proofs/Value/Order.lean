import ScriptMachine.Proofs.Number.Rounding
import ScriptMachine.Value.Compare

/-!
# How far values are ordered

Beside doubles an integer is compared as the double it is rounded to, beside integers as itself. The
first alone is a total preorder, `Value.coarse`, and `Value.order` refines it on pairs of integers.
What is lost by this is transitivity over a double that two integers are rounded to, and nothing
else.
-/

set_option autoImplicit false

namespace ScriptMachine

namespace HeapRef

instance : Std.TransCmp order :=
  inferInstanceAs <| Std.TransCmp <| compareLex (compareOn fun r : HeapRef => r.kind.rank) <|
    compareLex (compareOn fun r => r.handle.index) (compareOn fun r => r.handle.generation)

theorem order_eq_iff {r s : HeapRef} : r.order s = .eq ↔ r = s := by
  obtain ⟨kind, index, generation⟩ := r
  obtain ⟨kind', index', generation'⟩ := s
  simp only [order, Ordering.then_eq_eq, Std.LawfulEqOrd.compare_eq_iff_eq]
  cases kind <;> cases kind' <;> simp [HeapKind.rank]

end HeapRef

namespace Value

/-- Position of a value among the values of its rank; an integer stands where its double does. -/
def position (v : Value) : Int :=
  match v.content with
  | .bool b => b.toNat
  | .enum ordinal => ordinal.toInt
  | .int n => (Double.ofInt n.toInt).rank
  | .float x => x.rank
  | _ => 0

def letters (v : Value) : String := v.str?.getD ""

def referred (a b : Value) : Ordering := (a.ref?.getD default).order (b.ref?.getD default)

instance : Std.TransCmp referred where
  eq_swap := show HeapRef.order _ _ = _ from Std.OrientedCmp.eq_swap
  isLE_trans ab bc := show (HeapRef.order _ _).isLE from Std.TransCmp.isLE_trans ab bc

def coarse : Value → Value → Ordering :=
  compareLex (compareOn rank) <| compareLex (compareOn position) <|
    compareLex (compareOn letters) referred

instance : Std.TransCmp coarse := by
  unfold coarse
  infer_instance

theorem order_eq_coarse {a b : Value}
    (mixed : ¬ ∃ x y, a.content = .int x ∧ b.content = .int y) : a.order b = a.coarse b := by
  obtain ⟨content, flags⟩ := a
  obtain ⟨content', flags'⟩ := b
  have nowhere : HeapRef.order default default = .eq := rfl
  -- different ranks are compared at once; only within a rank is there anything to measure
  cases content <;> cases content' <;>
    first
    | exact absurd ⟨_, _, rfl, rfl⟩ mixed
    | rfl
    | simp [order, coarse, referred, compareLex, compareOn, rank, position, letters, str?, ref?,
        Double.order, compare_natCast, nowhere]

variable {a b c : Value}

theorem order_int {x y : Int64} (contentA : a.content = .int x) (contentB : b.content = .int y) :
    a.order b = compare x.toInt y.toInt := by
  simp only [order, contentA, contentB]

theorem coarse_ne_gt (le : a.order b ≠ .gt) : a.coarse b ≠ .gt := by
  by_cases integers : ∃ x y, a.content = .int x ∧ b.content = .int y
  · obtain ⟨x, y, contentA, contentB⟩ := integers
    rw [order_int contentA contentB, Int.compare_ne_gt] at le
    have rounded := Int.compare_ne_gt.mpr (Double.rank_ofInt_mono le)
    have measured :
        a.coarse b = compare (Double.ofInt x.toInt).rank (Double.ofInt y.toInt).rank := by
      have nowhere : HeapRef.order default default = .eq := rfl
      simp [coarse, referred, compareLex, compareOn, rank, position, letters, str?, ref?, contentA,
        contentB, nowhere]
    rwa [measured]
  · rwa [← order_eq_coarse integers]

theorem order_swap (a b : Value) : b.order a = (a.order b).swap := by
  by_cases integers : ∃ x y, a.content = .int x ∧ b.content = .int y
  · obtain ⟨x, y, contentA, contentB⟩ := integers
    rw [order_int contentA contentB, order_int contentB contentA]
    exact Std.OrientedOrd.eq_swap
  · have integers' : ¬ ∃ x y, b.content = .int x ∧ a.content = .int y :=
      fun ⟨x, y, contentB, contentA⟩ => integers ⟨y, x, contentA, contentB⟩
    rw [order_eq_coarse integers, order_eq_coarse integers']
    exact Std.OrientedCmp.eq_swap

theorem order_self (a : Value) : a.order a = .eq := by
  have swap := order_swap a a
  cases order : a.order a <;> simp_all

/-- A double between two integers that are both rounded to it, the larger one in front. -/
def Blurred (a b c : Value) : Prop :=
  ∃ x y z, a.content = .int x ∧ b.content = .float y ∧ c.content = .int z ∧ z < x ∧
    Double.ofInt x.toInt = y ∧ Double.ofInt z.toInt = y

/-- Between two integers only a number can stand. -/
theorem between_int {x z : Int64} (contentA : a.content = .int x) (contentC : c.content = .int z)
    (ab : a.order b ≠ .gt) (bc : b.order c ≠ .gt) :
    (∃ y, b.content = .int y ∧ x ≤ y ∧ y ≤ z) ∨
      ∃ y, b.content = .float y ∧ (Double.ofInt x.toInt).rank ≤ y.rank ∧
        y.rank ≤ (Double.ofInt z.toInt).rank := by
  cases contentB : b.content with
  | int y =>
    rw [order_int contentA contentB, Int.compare_ne_gt] at ab
    rw [order_int contentB contentC, Int.compare_ne_gt] at bc
    exact .inl ⟨y, rfl, Int64.le_iff_toInt_le.mpr ab, Int64.le_iff_toInt_le.mpr bc⟩
  | float y =>
    simp only [order, contentA, contentB, contentC, Double.order] at ab bc
    exact .inr ⟨y, rfl, Int.compare_ne_gt.mp ab, Int.compare_ne_gt.mp bc⟩
  | _ =>
    simp only [order, contentA, contentB, contentC, rank] at ab bc
    first
    | exact absurd rfl ab
    | exact absurd rfl bc

/-- **Values are totally preordered up to rounding.** The order is reversed when its sides are
exchanged, answers equal on a value and itself, and is transitive but over a double that two
integers are rounded to. -/
theorem order_trans_unless_blurred (a b c : Value) :
    b.order a = (a.order b).swap ∧ a.order a = .eq ∧
      (a.order b ≠ .gt → b.order c ≠ .gt → (a.order c = .gt ↔ Blurred a b c)) := by
  refine ⟨order_swap a b, order_self a, fun ab bc => ⟨fun ac => ?_, ?_⟩⟩
  · have isLE := Std.TransCmp.isLE_trans (Ordering.ne_gt_iff_isLE.mp (coarse_ne_gt ab))
      (Ordering.ne_gt_iff_isLE.mp (coarse_ne_gt bc))
    have coarseAC := Ordering.ne_gt_iff_isLE.mpr isLE
    by_cases integers : ∃ x z, a.content = .int x ∧ c.content = .int z
    · obtain ⟨x, z, contentA, contentC⟩ := integers
      rw [order_int contentA contentC, Int.compare_eq_gt] at ac
      rcases between_int contentA contentC ab bc with ⟨y, -, xy, yz⟩ | ⟨y, contentB, xy, yz⟩
      · rw [Int64.le_iff_toInt_le] at xy yz
        omega
      · have rounded := Double.rank_ofInt_mono (Int.le_of_lt ac)
        exact ⟨x, y, z, contentA, contentB, contentC, Int64.lt_iff_toInt_lt.mpr ac,
          Double.rank_injective (by omega), Double.rank_injective (by omega)⟩
    · rw [order_eq_coarse integers] at ac
      exact absurd ac coarseAC
  · rintro ⟨x, y, z, contentA, -, contentC, lt, -, -⟩
    rw [order_int contentA contentC]
    exact Int.compare_eq_gt.mpr (Int64.lt_iff_toInt_lt.mp lt)

theorem order_trans_unless_blurred_large :
    (int 9007199254740993).order (float ⟨0x4340000000000000⟩) ≠ .gt ∧
      (float ⟨0x4340000000000000⟩).order (int 9007199254740992) ≠ .gt ∧
      (int 9007199254740993).order (int 9007199254740992) = .gt ∧
      Blurred (int 9007199254740993) (float ⟨0x4340000000000000⟩) (int 9007199254740992) :=
  ⟨by decide, by decide, by decide,
    ((order_trans_unless_blurred _ _ _).2.2 (by decide) (by decide)).mp (by decide)⟩

/-- So three values can come one after the other, and the first one yet after the last. -/
theorem order_not_transitive :
    ¬ ∀ a b c : Value, a.order b ≠ .gt → b.order c ≠ .gt → a.order c ≠ .gt := by
  intro transitive
  exact transitive (int 9007199254740993) (float ⟨0x4340000000000000⟩) (int 9007199254740992)
    (by decide) (by decide) (by decide)

end Value

end ScriptMachine
