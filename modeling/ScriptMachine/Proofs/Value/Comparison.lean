import ScriptMachine.Proofs.Value.Order

/-!
# Where comparisons agree

Equality and order of values are two functions. The six comparisons fit together on two values
exactly if the two functions agree on whether the values are the same. Away from NaN and from
conversions they disagree on two disposed values, which are in one place and not equal, and on zeros
of opposite signs, which are equal and in two places.
-/

set_option autoImplicit false

namespace ScriptMachine

namespace Double

theorem order_eq_iff {x y : Double} : x.order y = .eq ↔ x = y := by
  rw [order, Std.LawfulEqOrd.compare_eq_iff_eq]
  exact ⟨rank_injective, congrArg rank⟩

theorem numericEq_iff {x y : Double} (numX : x.isNaN = false) (numY : y.isNaN = false) :
    x.numericEq y = true ↔ x = y ∨ (x.isZero = true ∧ y.isZero = true) := by
  simp [numericEq, numX, numY]

theorem numericEq_comm (x y : Double) : x.numericEq y = y.numericEq x := by
  rw [Bool.eq_iff_iff]
  simp only [numericEq, Bool.and_eq_true, Bool.or_eq_true, beq_iff_eq]
  grind

theorem eq_iff_of_isZero {x y : Double} (zeroX : x.isZero = true) (zeroY : y.isZero = true) :
    x = y ↔ x.negative = y.negative := by
  refine ⟨congrArg Double.negative, fun same => rank_injective ?_⟩
  simp only [isZero, decide_eq_true_eq] at zeroX zeroY
  rw [rank, rank, zeroX, zeroY, same]

def zeroSign? (x : Double) : Option Bool := if x.isZero then some x.negative else none

/-- Numeric equality and the total order agree but on zeros of opposite signs. -/
theorem order_agrees_iff {x y : Double} (numX : x.isNaN = false) (numY : y.isNaN = false) :
    (x.order y = .eq ↔ x.numericEq y = true) ↔
      ¬ ∃ sign, x.zeroSign? = some sign ∧ y.zeroSign? = some (!sign) := by
  rw [order_eq_iff, numericEq_iff numX numY]
  by_cases zeros : x.isZero = true ∧ y.isZero = true
  · obtain ⟨zeroX, zeroY⟩ := zeros
    rw [eq_iff_of_isZero zeroX zeroY]
    simp only [zeroSign?, zeroX, zeroY]
    cases x.negative <;> cases y.negative <;> simp
  · have never : ¬ ∃ sign, x.zeroSign? = some sign ∧ y.zeroSign? = some (!sign) := by
      rintro ⟨sign, signX, signY⟩
      simp only [zeroSign?, Option.ite_none_right_eq_some] at signX signY
      exact zeros ⟨signX.1, signY.1⟩
    simp [zeros, never]

end Double

namespace Value

def isNaN (v : Value) : Bool :=
  match v.content with
  | .float x => x.isNaN
  | _ => false

theorem convertedSame_comm (a b : Value) : a.convertedSame b = b.convertedSame a := by
  obtain ⟨x, flags⟩ := a
  obtain ⟨y, flags'⟩ := b
  unfold convertedSame
  cases x <;> cases y <;> simp only <;>
    (repeat' split) <;> simp_all [Double.numericEq_comm, Bool.beq_comm]

theorem same_comm (a b : Value) : a.same b = b.same a := by
  have converted := convertedSame_comm a b
  unfold same
  rw [converted, Bool.or_comm a.auto b.auto]
  cases a.content <;> cases b.content <;> simp only <;>
    first
    | rfl
    | exact Bool.beq_comm
    | exact Double.numericEq_comm _ _

theorem same_of_content {v w : Value} (content : w.content = v.content) (number : v.isNaN = false)
    (present : v.isDisposed = false) : v.same w = true := by
  unfold same
  rw [content]
  unfold isNaN at number
  unfold isDisposed at present
  cases kind : v.content with
  | float x =>
    rw [kind] at number
    exact (Double.numericEq_iff number number).mpr (.inl rfl)
  | disposed => rw [kind] at present; cases present
  | _ => simp

theorem content_share {v : Value} (plain : v.owns = false) : v.share.content = v.content := by
  unfold share
  unfold owns at plain
  cases kind : v.content with
  | owned ref => rw [kind] at plain; cases plain
  | _ => rfl

theorem proper_of_ref? {v : Value} {ref : HeapRef} (refers : v.ref? = some ref) :
    v.isNaN = false ∧ v.isDisposed = false := by
  unfold ref? at refers
  unfold isNaN isDisposed
  cases kind : v.content with
  | owned | pointer => exact ⟨rfl, rfl⟩
  | _ => rw [kind] at refers; cases refers

theorem ref?_of_content {v w : Value} (content : w.content = v.content) : w.ref? = v.ref? := by
  rw [ref?, ref?, content]

def zeroSign? (v : Value) : Option Bool :=
  match v.content with
  | .int n => if n = 0 then some false else none
  | .float x => x.zeroSign?
  | _ => none

/-- Two disposed values, or two zeros of opposite signs. -/
def Clash (a b : Value) : Prop :=
  (a.isDisposed = true ∧ b.isDisposed = true) ∨
    ∃ sign, a.zeroSign? = some sign ∧ b.zeroSign? = some (!sign)

instance (a b : Value) : Decidable (Clash a b) := inferInstanceAs (Decidable (_ ∨ _))

theorem zeroSign?_ofInt (n : Int64) :
    (Double.ofInt n.toInt).zeroSign? = if n = 0 then some false else none := by
  have zero : n.toInt = 0 ↔ n = 0 := by rw [← Int64.toInt_inj]; rfl
  simp only [Double.zeroSign?, Double.isZero_ofInt, Double.negative_ofInt, decide_eq_true_eq, zero]
  split
  · rename_i same
    subst same
    rfl
  · rfl

theorem order_agrees_iff {a b : Value} (plainA : a.auto = false) (plainB : b.auto = false)
    (numA : a.isNaN = false) (numB : b.isNaN = false) :
    (a.order b = .eq ↔ a.same b = true) ↔ ¬ Clash a b := by
  have plain : (a.auto || b.auto) = false := by rw [plainA, plainB]; rfl
  have toInt : ∀ m n : Int64, compare m.toInt n.toInt = .eq ↔ m = n := fun m n => by
    rw [Std.LawfulEqOrd.compare_eq_iff_eq, Int64.toInt_inj]
  have toNat : ∀ x y : Bool, x.toNat = y.toNat ↔ x = y := by decide
  obtain ⟨content, flags⟩ := a
  obtain ⟨content', flags'⟩ := b
  cases content with
  | int m =>
    cases content' with
    | int n =>
      simp [order, same, Clash, isDisposed, zeroSign?, toInt]
    | float y =>
      have agrees := Double.order_agrees_iff (Double.isNaN_ofInt m.toInt) numB
      rw [zeroSign?_ofInt] at agrees
      simpa [order, same, Clash, isDisposed, zeroSign?] using agrees
    | _ => simp [order, same, Clash, isDisposed, zeroSign?, rank, plain]
  | float x =>
    cases content' with
    | int n =>
      have agrees := Double.order_agrees_iff numA (Double.isNaN_ofInt n.toInt)
      rw [zeroSign?_ofInt, Double.numericEq_comm] at agrees
      simpa [order, same, Clash, isDisposed, zeroSign?] using agrees
    | float y =>
      simpa [order, same, Clash, isDisposed, zeroSign?] using Double.order_agrees_iff numA numB
    | _ => simp [order, same, Clash, isDisposed, zeroSign?, rank, plain]
  | _ =>
    cases content' <;>
      simp [order, same, Clash, isDisposed, zeroSign?, rank, plain, toInt, toNat,
        HeapRef.order_eq_iff]

end Value

namespace Comparison

/-- How the six comparisons fit together on two values. -/
structure Consistent (a b : Value) : Prop where
  one : [lt.holds a b, eq.holds a b, gt.holds a b].count true = 1
  le : le.holds a b = (lt.holds a b || eq.holds a b)
  ge : ge.holds a b = (gt.holds a b || eq.holds a b)

theorem orderOf_eq {a b : Value} (plainA : a.auto = false) (plainB : b.auto = false) :
    orderOf a b = a.order b := by
  simp [orderOf, plainA, plainB]

/-- The comparisons of an order fit together with an equality that holds in one place only. -/
theorem accepts_iff (order : Ordering) (same : Bool) :
    ([lt.accepts order, same, gt.accepts order].count true = 1 ∧
        le.accepts order = (lt.accepts order || same) ∧
        ge.accepts order = (gt.accepts order || same)) ↔
      (order = .eq ↔ same = true) := by
  cases order <;> cases same <;> decide

theorem consistent_iff_agree {a b : Value} (plainA : a.auto = false) (plainB : b.auto = false) :
    Consistent a b ↔ (a.order b = .eq ↔ a.same b = true) := by
  rw [← accepts_iff, ← orderOf_eq plainA plainB]
  exact ⟨fun fits => ⟨fits.one, fits.le, fits.ge⟩, fun fits => ⟨fits.1, fits.2.1, fits.2.2⟩⟩

/-- **The comparisons are consistent**, on values that are neither NaN nor marked as convertible,
exactly where equality and order do not clash; inequality is the negation of equality and the two
strict comparisons are each other's converse without exception. -/
theorem consistent_unless_clash (a b : Value) (plainA : a.auto = false) (plainB : b.auto = false)
    (numA : a.isNaN = false) (numB : b.isNaN = false) :
    (Consistent a b ↔ ¬ a.Clash b) ∧ ne.holds a b = (!eq.holds a b) ∧
      lt.holds a b = gt.holds b a := by
  refine ⟨?_, rfl, ?_⟩
  · rw [consistent_iff_agree plainA plainB]
    exact Value.order_agrees_iff plainA plainB numA numB
  · simp only [holds, orderOf_eq plainA plainB, orderOf_eq plainB plainA, Value.order_swap a b]
    cases a.order b <;> rfl

theorem consistent_unless_clash_rounded :
    (Value.int 9007199254740993).auto = false ∧ (Value.float ⟨0x4340000000000000⟩).auto = false ∧
      (Value.int 9007199254740993).isNaN = false ∧
      (Value.float ⟨0x4340000000000000⟩).isNaN = false ∧
      eq.holds (.int 9007199254740993) (.float ⟨0x4340000000000000⟩) = true ∧
      Consistent (.int 9007199254740993) (.float ⟨0x4340000000000000⟩) :=
  ⟨rfl, rfl, rfl, by decide, by decide,
    (consistent_unless_clash (.int 9007199254740993) (.float ⟨0x4340000000000000⟩)
      rfl rfl rfl (by decide)).1.mpr (by decide)⟩

/-- `-0` is less than `0` and equal to it. -/
theorem zeros_inconsistent :
    (Value.float (Double.zero true)).isNaN = false ∧
      (Value.float (Double.zero false)).isNaN = false ∧
      lt.holds (.float (Double.zero true)) (.float (Double.zero false)) = true ∧
      eq.holds (.float (Double.zero true)) (.float (Double.zero false)) = true ∧
      ¬ Consistent (.float (Double.zero true)) (.float (Double.zero false)) := by
  refine ⟨by decide, by decide, by decide, by decide, fun consistent => ?_⟩
  exact absurd consistent.one (by decide)

end Comparison

end ScriptMachine
