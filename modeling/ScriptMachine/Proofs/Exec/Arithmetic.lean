import ScriptMachine.Proofs.Exec.Folding

/-!
# Arithmetic on integers

Two words are combined to the exact integer, if that is a word. No result wraps around: an integer
that is out of range is computed again in doubles, and division by zero is refused. A slot that is
incremented in place holds afterwards what the arithmetic instruction answers.
-/

set_option autoImplicit false

namespace ScriptMachine

namespace Word

theorem fits_toInt (w : Int64) : fits w.toInt = true := by
  have low := Int64.le_toInt w
  have high := Int64.toInt_lt w
  simp only [fits, decide_eq_true_eq]
  omega

theorem ofInt?_eq_some_iff {i : Int} {w : Int64} : ofInt? i = some w ↔ w.toInt = i := by
  unfold ofInt?
  constructor
  · intro found
    split at found
    · rename_i inside
      simp only [fits, decide_eq_true_eq] at inside
      cases found
      exact Int64.toInt_ofInt_of_le inside.1 inside.2
    · cases found
  · rintro rfl
    rw [if_pos (fits_toInt w), Int64.ofInt_toInt]

theorem ofInt?_eq_none_iff {i : Int} : ofInt? i = none ↔ fits i = false := by
  simp [ofInt?]

theorem fits_of_natAbs_lt {i : Int} (small : i.natAbs < 2 ^ 63) : fits i = true := by
  simp only [fits, decide_eq_true_eq]
  omega

theorem fits_tmod (x : Int) {y : Int} (divisor : y ≠ 0) (word : fits y = true) :
    fits (x.tmod y) = true := by
  simp only [fits, decide_eq_true_eq] at word
  have less : (x.tmod y).natAbs < y.natAbs := by
    rw [Int.natAbs_tmod]
    exact Nat.mod_lt _ (Int.natAbs_pos.mpr divisor)
  exact fits_of_natAbs_lt (by omega)

end Word

/-- A value that stands for an integer: the word equal to it, or else a double in its place. -/
inductive Value.Exact (exact : Int) (rounded : Double) : Value → Prop
  | word (w : Int64) (same : w.toInt = exact) : Exact exact rounded (.int w)
  | beyond (outside : Word.fits exact = false) : Exact exact rounded (.float rounded)

namespace ArithOp

def rounded (op : ArithOp) (x y : Int) : Double := op.onDoubles (Double.ofInt x) (Double.ofInt y)

variable (a b : Int64)

theorem exact_exactOr (op : ArithOp) (exact : Int) :
    (op.exactOr a b exact).Exact exact (op.rounded a.toInt b.toInt) := by
  unfold exactOr
  cases found : Word.ofInt? exact with
  | some w => exact .word w (Word.ofInt?_eq_some_iff.mp found)
  | none => exact .beyond (Word.ofInt?_eq_none_iff.mp found)

theorem exactOr_of_word (op : ArithOp) (w : Int64) : op.exactOr a b w.toInt = .int w := by
  rw [exactOr, Word.ofInt?_eq_some_iff.mpr rfl]

inductive Quotient (a b : Int64) : Except Error Value → Prop
  | byZero (zero : b = 0) : Quotient a b (.error (.typeMismatch "division by zero"))
  | even (divisor : b ≠ 0) (q : Int64) (divides : q.toInt * b.toInt = a.toInt) :
      Quotient a b (.ok (.int q))
  | uneven (divisor : b ≠ 0) (rest : ∀ q : Int64, q.toInt * b.toInt ≠ a.toInt) :
      Quotient a b (.ok (.float (ArithOp.div.rounded a.toInt b.toInt)))

inductive Remainder (a b : Int64) : Except Error Value → Prop
  | byZero (zero : b = 0) : Remainder a b (.error (.typeMismatch "division by zero"))
  | rest (divisor : b ≠ 0) (r : Int64)
      (splits : a.toInt = b.toInt * a.toInt.tdiv b.toInt + r.toInt) : Remainder a b (.ok (.int r))

theorem toInt_eq_zero_iff {w : Int64} : w.toInt = 0 ↔ w = 0 :=
  ⟨fun zero => Int64.toInt_inj.mp (by rw [zero]; rfl), fun zero => by rw [zero]; rfl⟩

theorem quotient_onWords : Quotient a b (ArithOp.div.onWords a b) := by
  simp only [onWords]
  by_cases zero : b = 0
  · rw [if_pos (toInt_eq_zero_iff.mpr zero)]
    exact .byZero zero
  have divisor : b.toInt ≠ 0 := fun none => zero (toInt_eq_zero_iff.mp none)
  rw [if_neg divisor]
  -- a word that multiplies back is the truncated quotient, and leaves no rest
  have unique : ∀ q : Int64, q.toInt * b.toInt = a.toInt → a.toInt.tdiv b.toInt = q.toInt := by
    intro q divides
    rw [← divides, Int.mul_tdiv_cancel _ divisor]
  split
  · rename_i even
    have divides : a.toInt.tdiv b.toInt * b.toInt = a.toInt := by
      have splits := Int.mul_tdiv_add_tmod a.toInt b.toInt
      rw [even, Int.add_zero, Int.mul_comm] at splits
      exact splits
    generalize ArithOp.div.exactOr a b (a.toInt.tdiv b.toInt) = answer,
      ArithOp.div.exact_exactOr a b (a.toInt.tdiv b.toInt) = exact
    cases exact with
    | word q same => exact .even zero q (by rw [same]; exact divides)
    | beyond outside =>
      refine .uneven zero fun q multiplies => ?_
      rw [unique q multiplies, Word.fits_toInt] at outside
      cases outside
  · rename_i odd
    refine .uneven zero fun q multiplies => odd ?_
    rw [← multiplies, Int.mul_tmod_left]

theorem remainder_onWords : Remainder a b (ArithOp.mod.onWords a b) := by
  simp only [onWords]
  by_cases zero : b = 0
  · rw [if_pos (toInt_eq_zero_iff.mpr zero)]
    exact .byZero zero
  have divisor : b.toInt ≠ 0 := fun none => zero (toInt_eq_zero_iff.mp none)
  rw [if_neg divisor]
  have inside := Word.fits_tmod a.toInt divisor (Word.fits_toInt b)
  have same : (Int64.ofInt (a.toInt.tmod b.toInt)).toInt = a.toInt.tmod b.toInt :=
    Word.ofInt?_eq_some_iff.mp (by rw [Word.ofInt?, if_pos inside])
  have answer := ArithOp.mod.exactOr_of_word a b (Int64.ofInt (a.toInt.tmod b.toInt))
  rw [same] at answer
  rw [answer]
  exact .rest zero _ (by rw [same, Int.mul_tdiv_add_tmod])

end ArithOp

theorem Value.negate_int (a : Int64) (flags : Flags) :
    (∃ r : Int64, r.toInt = -a.toInt ∧ Value.negate ⟨.int a, flags⟩ = .ok (.int r)) ∨
      a = Int64.minValue ∧
        Value.negate ⟨.int a, flags⟩ = .ok (.float (Double.ofInt a.toInt).negate) := by
  have number : (⟨.int a, flags⟩ : Value).asNumber = .ok (.int a) := rfl
  cases found : Word.ofInt? (-a.toInt) with
  | some r =>
    refine .inl ⟨r, Word.ofInt?_eq_some_iff.mp found, ?_⟩
    simp only [Value.negate, number, bind, Except.bind, found]
    rfl
  | none =>
    refine .inr ⟨Int64.toInt_inj.mp ?_, by
      simp only [Value.negate, number, bind, Except.bind, found]
      rfl⟩
    have outside := Word.ofInt?_eq_none_iff.mp found
    have low := Int64.le_toInt a
    have high := Int64.toInt_lt a
    simp only [Word.fits, decide_eq_false_iff_not] at outside
    rw [Int64.toInt_minValue]
    omega

namespace Exec

variable {H : Type} (units : UnitTable)

/-- A folded increment puts the result of the arithmetic into its slot, and does nothing else. -/
theorem action_increment {slot : Nat} {delta a : Int64} {add : Bool} {span covered : List Resolved}
    (folds : (Action.incrementLocal slot delta add span).Folds covered) {c : Context H}
    {flags : Flags} (read : c.frame.readLocal slot = .ok ⟨.int a, flags⟩) :
    ∃ r, (if add then ArithOp.add else .sub).apply ⟨.int a, flags⟩ (.int delta) = .ok r ∧
      action units (.incrementLocal slot delta add span) c =
        .ok .next { c with frame := { c.frame with locals := c.frame.locals.set slot r } } := by
  cases folds with
  | incrementLocal load push arith store loads pushes computes stores same =>
    obtain ⟨r, applied⟩ : ∃ r, arith.ins.op.arithOp.onWords a push.ins.int = .ok r := by
      rcases computes with op | op <;> exact ⟨_, by rw [op]; rfl⟩
    have operation : (if arith.ins.op == .add then ArithOp.add else .sub) =
        arith.ins.op.arithOp := by
      rcases computes with op | op <;> rw [op] <;> rfl
    refine ⟨r, ?_, ?_⟩
    · rw [operation, Value.int, apply_int, applied]
    · have shared : Value.share ⟨.int a, flags⟩ = ⟨.int a, flags.shared⟩ := by simp [Value.share]
      rw [action, incrementLocal_eq_sequence units loads pushes computes stores same]
      exact sequence_increment units loads pushes computes stores same read (by simp [Value.owns])
        (by rw [shared, Value.int, apply_int, applied])

end Exec

/-- Arithmetic on integers never wraps around. Sums, differences and products are exact words or
else doubles. A quotient is a word if one multiplies back to the dividend, a remainder always is,
and both are refused for the divisor zero alone. Negation is exact except for the least word. An
increment in place stores the sum or the difference. The marks on the operands do not matter. -/
theorem arithmetic_never_wraps (a b : Int64) (flags flags' : Flags) :
    let on (op : ArithOp) := op.apply ⟨.int a, flags⟩ ⟨.int b, flags'⟩
    let rounded (op : ArithOp) := op.rounded a.toInt b.toInt
    (∃ v, on .add = .ok v ∧ v.Exact (a.toInt + b.toInt) (rounded .add)) ∧
    (∃ v, on .sub = .ok v ∧ v.Exact (a.toInt - b.toInt) (rounded .sub)) ∧
    (∃ v, on .mul = .ok v ∧ v.Exact (a.toInt * b.toInt) (rounded .mul)) ∧
    ArithOp.Quotient a b (on .div) ∧
    ArithOp.Remainder a b (on .mod) ∧
    ((∃ r : Int64, r.toInt = -a.toInt ∧ Value.negate ⟨.int a, flags⟩ = .ok (.int r)) ∨
      a = Int64.minValue ∧
        Value.negate ⟨.int a, flags⟩ = .ok (.float (Double.ofInt a.toInt).negate)) ∧
    ∀ {H : Type} (units : UnitTable) {slot : Nat} {add : Bool} {span covered : List Resolved},
      (Action.incrementLocal slot b add span).Folds covered → ∀ c : Context H,
      c.frame.readLocal slot = .ok ⟨.int a, flags⟩ →
        ∃ r, (if add then ArithOp.add else .sub).apply ⟨.int a, flags⟩ (.int b) = .ok r ∧
          Exec.action units (.incrementLocal slot b add span) c =
            .ok .next { c with frame := { c.frame with locals := c.frame.locals.set slot r } } := by
  intro on rounded
  simp only [on, Exec.apply_int]
  refine ⟨⟨_, rfl, ArithOp.exact_exactOr a b .add _⟩, ⟨_, rfl, ArithOp.exact_exactOr a b .sub _⟩,
    ⟨_, rfl, ArithOp.exact_exactOr a b .mul _⟩, ArithOp.quotient_onWords a b,
    ArithOp.remainder_onWords a b, Value.negate_int a flags, ?_⟩
  intro H units slot add span covered folds c read
  exact Exec.action_increment units folds read

namespace Increment

/-- The run that adds one to the first slot. -/
def run : List Resolved :=
  [{ ins := { op := .loadLocal } }, { ins := { op := .pushInt, int := 1 } },
    { ins := { op := .add } }, { ins := { op := .storeLocal } }]

def brimful : Context Unit :=
  { heap := {}
    globals := {}
    frame := { locals := [.int Int64.maxValue], capacity := 2 }
    channel := [] }

end Increment

theorem arithmetic_never_wraps_brimful :
    ∃ x, Exec.action ({} : UnitTable) (.incrementLocal 0 1 true Increment.run) Increment.brimful =
      .ok .next { Increment.brimful with
        frame := { Increment.brimful.frame with locals := [.float x] } } := by
  obtain ⟨⟨v, sum, exact⟩, -, -, -, -, -, inPlace⟩ :=
    arithmetic_never_wraps Int64.maxValue 1 {} {}
  obtain ⟨r, applied, ran⟩ := @inPlace Unit {} 0 true Increment.run _
    (.incrementLocal { ins := { op := .loadLocal } } { ins := { op := .pushInt, int := 1 } }
      { ins := { op := .add } } { ins := { op := .storeLocal } } rfl rfl (.inl rfl) rfl rfl)
    Increment.brimful rfl
  have same : r = v := Except.ok.inj (applied.symm.trans sum)
  cases exact with
  | word w beyond =>
    have high := Int64.toInt_lt w
    rw [beyond] at high
    exact absurd high (by decide)
  | beyond outside =>
    subst same
    exact ⟨_, ran⟩

end ScriptMachine
