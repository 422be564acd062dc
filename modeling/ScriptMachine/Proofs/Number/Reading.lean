import Mathlib.Data.List.Induction
import Mathlib.Data.Nat.Digits.Defs
import ScriptMachine.Proofs.Document.Json
import ScriptMachine.Proofs.Exec.Arithmetic
import ScriptMachine.Proofs.Number.Rounding
import ScriptMachine.Value.Convert

/-!
# Integers in free text

What `Number.read?` takes for an integer is what a grammar says: decimal digits, with a sign if
there is one, and blanks at both ends. Such a text is read as its integer if that is a word. A
larger one is read as the nearest double, and never wraps around; all other texts are read as finite
doubles or not at all. The text of a word is such a text, so a word survives being written and read.
-/

set_option autoImplicit false

namespace ScriptMachine

namespace Text

/-- Blanks on both sides of a text without blanks are cut off. -/
theorem trimBlanks_around {before core after : List Char} (solid : ∀ c ∈ core, isBlank c = false)
    (blank : ∀ c ∈ before ++ after, isBlank c) : trimBlanks (before ++ core ++ after) = core := by
  have inFront : ∀ c ∈ before, isBlank c := fun c mem => blank c (List.mem_append_left _ mem)
  have behind : ∀ c ∈ after.reverse, isBlank c := fun c mem =>
    blank c (List.mem_append_right _ (List.mem_reverse.mp mem))
  rw [trimBlanks, List.append_assoc, List.dropWhile_append_of_pos inFront]
  cases core with
  | nil =>
    rw [List.nil_append, List.dropWhile_eq_nil_iff.mpr fun c mem =>
      behind c (List.mem_reverse.mpr mem)]
    rfl
  | cons c core =>
    have first := solid c (List.mem_cons_self ..)
    rw [List.cons_append, List.dropWhile_cons_of_neg (by simp [first]), ← List.cons_append,
      List.reverse_append, List.dropWhile_append_of_pos behind]
    have last : (c :: core).reverse.dropWhile isBlank = (c :: core).reverse := by
      rw [List.dropWhile_eq_self_iff]
      intro nonempty
      have mem := List.mem_reverse.mp (List.getElem_mem nonempty)
      rw [solid _ mem]
      exact Bool.false_ne_true
    rw [last, List.reverse_reverse]

theorem trimBlanks_split (cs : List Char) :
    ∃ before after, cs = before ++ trimBlanks cs ++ after ∧ ∀ c ∈ before ++ after, isBlank c := by
  let rest := cs.dropWhile isBlank
  refine ⟨cs.takeWhile isBlank, (rest.reverse.takeWhile isBlank).reverse, ?_, ?_⟩
  · have back : rest = trimBlanks cs ++ (rest.reverse.takeWhile isBlank).reverse := by
      rw [trimBlanks, ← List.reverse_append, List.takeWhile_append_dropWhile, List.reverse_reverse]
    rw [List.append_assoc, ← back, List.takeWhile_append_dropWhile]
  · intro c mem
    rcases List.mem_append.mp mem with mem | mem
    · exact List.mem_takeWhile_imp mem
    · exact List.mem_takeWhile_imp (List.mem_reverse.mp mem)

theorem not_isBlank_of_isDigit {c : Char} (digit : c.isDigit) : isBlank c = false := by
  simp only [Char.isDigit, Bool.and_eq_true, decide_eq_true_eq, UInt32.le_iff_toNat_le] at digit
  have low : 48 ≤ c.toNat := digit.1
  have high : c.toNat ≤ 57 := digit.2
  simp only [isBlank, Bool.or_eq_false_iff, Bool.and_eq_false_iff, decide_eq_false_iff_not,
    beq_eq_false_iff_ne]
  omega

end Text

namespace Reading

/-! ## Digits and what they denote -/

inductive Denotes : List Char → Nat → Prop
  | single {d : Nat} (digit : d < 10) : Denotes [d.digitChar] d
  | more {ds : List Char} {n d : Nat} (front : Denotes ds n) (digit : d < 10) :
      Denotes (ds ++ [d.digitChar]) (10 * n + d)

inductive Signed : List Char → Int → Prop
  | plain {ds : List Char} {n : Nat} (digits : Denotes ds n) : Signed ds n
  | plus {ds : List Char} {n : Nat} (digits : Denotes ds n) : Signed ('+' :: ds) n
  | minus {ds : List Char} {n : Nat} (digits : Denotes ds n) : Signed ('-' :: ds) (-n)

variable {ds cs : List Char} {n : Nat} {i : Int}

theorem digitChar_spec : ∀ d < 10, d.digitChar.isDigit ∧ digitValue d.digitChar = d := by decide

theorem digit_of_isDigit {c : Char} (digit : c.isDigit) : ∃ d < 10, c = d.digitChar := by
  have each : ∀ d < 10, Char.ofNat (48 + d) = d.digitChar := by decide
  simp only [Char.isDigit, Bool.and_eq_true, decide_eq_true_eq, UInt32.le_iff_toNat_le] at digit
  have low : 48 ≤ c.toNat := digit.1
  have high : c.toNat ≤ 57 := digit.2
  refine ⟨c.toNat - 48, by omega, ?_⟩
  rw [← each _ (by omega), Nat.add_sub_cancel' low, Char.ofNat_toNat]

theorem natural_concat (ds : List Char) (c : Char) :
    natural (ds ++ [c]) = 10 * natural ds + digitValue c := by
  simp [natural, Nat.mul_comm]

theorem Denotes.isDigit (denotes : Denotes ds n) : ∀ c ∈ ds, c.isDigit := by
  induction denotes with
  | single digit => simpa using (digitChar_spec _ digit).1
  | more front digit ih =>
    intro c mem
    rcases List.mem_append.mp mem with mem | mem
    · exact ih c mem
    · rw [List.mem_singleton.mp mem]
      exact (digitChar_spec _ digit).1

theorem Denotes.ne_nil (denotes : Denotes ds n) : ds ≠ [] := by
  cases denotes <;> simp

theorem Denotes.natural (denotes : Denotes ds n) : natural ds = n := by
  induction denotes with
  | single digit => simpa [Reading.natural] using (digitChar_spec _ digit).2
  | more front digit ih => rw [natural_concat, ih, (digitChar_spec _ digit).2]

theorem denotes_of_isDigit (ne_nil : ds ≠ []) (digits : ∀ c ∈ ds, c.isDigit) :
    Denotes ds (natural ds) := by
  induction ds using List.reverseRecOn with
  | nil => exact absurd rfl ne_nil
  | append_singleton front c ih =>
    obtain ⟨d, small, rfl⟩ := digit_of_isDigit (digits c (by simp))
    rw [natural_concat, (digitChar_spec d small).2]
    by_cases first : front = []
    · subst first
      simpa [natural] using Denotes.single small
    · exact .more (ih first fun c mem => digits c (List.mem_append_left _ mem)) small

theorem denotes_toDigits (n : Nat) : Denotes (Nat.toDigits 10 n) n := by
  have denotes : Denotes (Nat.toDigits 10 n) (natural (Nat.toDigits 10 n)) :=
    denotes_of_isDigit Nat.toDigits_ne_nil fun _ => Json.isDigit_of_toDigits
  rwa [Json.natural_toDigits] at denotes

/-! ## Signs -/

theorem sign_of_isDigit (digits : ∀ c ∈ cs.head?, c.isDigit) : sign cs = (false, cs) := by
  unfold sign
  split
  · exact absurd (digits '-' rfl) (by decide)
  · exact absurd (digits '+' rfl) (by decide)
  · rfl

theorem integer?_eq_some_iff : integer? cs = some i ↔
    ∃ n, Denotes (sign cs).2 n ∧ i = if (sign cs).1 then -(n : Int) else n := by
  unfold integer?
  generalize sign cs = parts
  obtain ⟨negative, body⟩ := parts
  simp only
  constructor
  · intro read
    split at read
    · cases read
    · rename_i form
      simp only [Bool.or_eq_true, List.isEmpty_iff, Bool.not_eq_true', not_or,
        Bool.not_eq_false, List.all_eq_true] at form
      exact ⟨_, denotes_of_isDigit form.1 form.2, (Option.some.inj read).symm⟩
  · rintro ⟨n, denotes, rfl⟩
    rw [if_neg (by simpa using ⟨denotes.ne_nil, denotes.isDigit⟩), denotes.natural]

theorem integer?_iff_signed : integer? cs = some i ↔ Signed cs i := by
  rw [integer?_eq_some_iff]
  constructor
  · rintro ⟨n, denotes, rfl⟩
    unfold sign at denotes ⊢
    split at denotes
    · exact .minus denotes
    · exact .plus denotes
    · exact .plain denotes
  · intro signed
    cases signed with
    | @plain ds n digits =>
      refine ⟨n, ?_⟩
      rw [sign_of_isDigit fun c mem => digits.isDigit c (List.mem_of_mem_head? mem)]
      exact ⟨digits, rfl⟩
    | @plus ds n digits => exact ⟨n, digits, rfl⟩
    | @minus ds n digits => exact ⟨n, digits, rfl⟩

theorem Signed.solid (signed : Signed cs i) : ∀ c ∈ cs, Text.isBlank c = false := by
  have digitsSolid : ∀ {ds : List Char} {n : Nat}, Denotes ds n →
      ∀ c ∈ ds, Text.isBlank c = false :=
    fun digits c mem => Text.not_isBlank_of_isDigit (digits.isDigit c mem)
  cases signed with
  | plain digits => exact digitsSolid digits
  | plus digits => exact List.forall_mem_cons.mpr ⟨by decide, digitsSolid digits⟩
  | minus digits => exact List.forall_mem_cons.mpr ⟨by decide, digitsSolid digits⟩

theorem signed_toString (i : Int) : Signed (toString i).toList i := by
  rw [show toString i = i.repr from rfl, Int.repr_eq_if]
  by_cases positive : 0 ≤ i
  · have denotes := Signed.plain (denotes_toDigits i.toNat)
    rw [Int.toNat_of_nonneg positive] at denotes
    rwa [if_pos positive, Nat.toList_repr]
  · have denotes := Signed.minus (denotes_toDigits (-i).toNat)
    rw [Int.toNat_of_nonneg (by omega), Int.neg_neg] at denotes
    rw [if_neg positive]
    simpa [Nat.toList_repr] using denotes

end Reading

namespace Number

/-! ## Texts -/

/-- The text is an integer, but for blanks at its ends. -/
def Spells (s : String) (i : Int) : Prop :=
  ∃ before core after, s.toList = before ++ core ++ after ∧
    (∀ c ∈ before ++ after, Text.isBlank c) ∧ Reading.Signed core i

variable {s : String} {i : Int}

theorem spells_iff : Spells s i ↔ Reading.Signed (Text.trimBlanks s.toList) i := by
  constructor
  · rintro ⟨before, core, after, text, blank, signed⟩
    rwa [text, Text.trimBlanks_around signed.solid blank]
  · intro signed
    obtain ⟨before, after, text, blank⟩ := Text.trimBlanks_split s.toList
    exact ⟨before, _, after, text, blank, signed⟩

theorem spells_toString (i : Int) : Spells (toString i) i :=
  ⟨[], _, [], by simp, by simp, Reading.signed_toString i⟩

def word? (s : String) : Option Int64 :=
  (Reading.integer? (Text.trimBlanks s.toList)).bind Word.ofInt?

theorem word?_eq_some_iff {v : Int64} : word? s = some v ↔ Spells s v.toInt := by
  rw [word?, Option.bind_eq_some_iff, spells_iff, ← Reading.integer?_iff_signed]
  constructor
  · rintro ⟨i, spelled, fits⟩
    rwa [Word.ofInt?_eq_some_iff.mp fits]
  · exact fun spelled => ⟨_, spelled, Word.ofInt?_eq_some_iff.mpr rfl⟩

theorem read?_of_word {v : Int64} (found : word? s = some v) : read? s = some (.int v) := by
  unfold read?
  rw [word?] at found
  simp only [found]

theorem read?_of_not_word (absent : word? s = none) :
    read? s =
      ((Reading.decimal? (Text.trimBlanks s.toList)).filter Double.isFinite).map .float := by
  unfold read?
  rw [word?] at absent
  simp only [absent]
  cases Reading.decimal? (Text.trimBlanks s.toList) with
  | none => rfl
  | some x =>
    cases finite : x.isFinite <;> simp [finite, Option.filter]

theorem read?_eq_int_iff {v : Int64} : read? s = some (.int v) ↔ Spells s v.toInt := by
  rw [← word?_eq_some_iff]
  refine ⟨fun read => ?_, read?_of_word⟩
  cases found : word? s with
  | none =>
    rw [read?_of_not_word found] at read
    obtain ⟨x, -, never⟩ := Option.map_eq_some_iff.mp read
    cases never
  | some w =>
    rw [read?_of_word found] at read
    cases read
    rfl

theorem read?_cases (s : String) : (∃ v : Int64, Spells s v.toInt) ∨ read? s = none ∨
    ∃ x : Double, x.isFinite ∧ read? s = some (.float x) := by
  cases found : word? s with
  | some v => exact .inl ⟨v, word?_eq_some_iff.mp found⟩
  | none =>
    rw [read?_of_not_word found]
    cases kept : (Reading.decimal? (Text.trimBlanks s.toList)).filter Double.isFinite with
    | none => exact .inr (.inl rfl)
    | some x => exact .inr (.inr ⟨x, (Option.filter_eq_some_iff.mp kept).2, rfl⟩)

end Number

/-! ## Integers beyond words -/

theorem Double.nearestMagnitude_of_huge {n : Nat} (huge : 2 ^ 1024 ≤ n) :
    nearestMagnitude n 1 = infiniteMagnitude := by
  have positive : n ≠ 0 := by
    have := Nat.two_pow_pos 1024
    omega
  have exponent : 1024 ≤ n.log2 := (Nat.le_log2 positive).mpr huge
  have significand := (scaledQuotient_bounds positive).1
  rw [nearestMagnitude_one positive, infiniteMagnitude]
  omega

namespace Reading

theorem nearestDecimal_whole (negative : Bool) {n : Nat} (positive : n ≠ 0) :
    nearestDecimal negative n 0 = Double.ofRatio negative n 1 := by
  have low : ¬ ((Nat.toDigits 10 n).length + 0 : Int) < -400 := by omega
  rw [nearestDecimal]
  simp only [positive, low, or_self, if_false]
  split
  · rename_i long
    have huge : 10 ^ 400 ≤ n := by
      by_contra small
      have := Nat.toDigits_length 10 n 400 (by decide) (by omega)
      omega
    have beyond : 2 ^ 1024 ≤ 10 ^ 400 := by decide +kernel
    rw [Double.ofRatio, Double.nearestMagnitude_of_huge (Nat.le_trans beyond huge)]
    rfl
  · simp

/-- As a decimal an integer is the double nearest to it. Zero has two doubles. -/
theorem decimal?_of_signed {cs : List Char} {i : Int} (signed : Signed cs i) (other : i ≠ 0) :
    decimal? cs = some (Double.ofInt i) := by
  obtain ⟨n, denotes, rfl⟩ := integer?_eq_some_iff.mp (integer?_iff_signed.mpr signed)
  have positive : n ≠ 0 := by
    rintro rfl
    simp at other
  have whole : digits (sign cs).2 = ((sign cs).2, []) := by
    rw [digits, List.takeWhile_eq_self_iff.mpr denotes.isDigit,
      List.dropWhile_eq_nil_iff.mpr denotes.isDigit]
  have some : (sign cs).2.isEmpty = false := by simpa using denotes.ne_nil
  have nearest : Double.ofInt (if (sign cs).1 then -(n : Int) else n) =
      Double.ofRatio (sign cs).1 n 1 := by
    cases (sign cs).1 with
    | false =>
      have above : ¬ (n : Int) < 0 := by omega
      simp [Double.ofInt, above]
    | true =>
      have below : 0 < n := by omega
      simp [Double.ofInt, below]
  rw [nearest, ← nearestDecimal_whole _ positive]
  simp [decimal?, whole, some, exponent?, denotes.natural]

end Reading

/-- An integer beyond the words is read as the nearest double, if that is finite. -/
theorem Number.read?_of_wide {s : String} {i : Int} (spelled : Spells s i)
    (wide : Word.fits i = false) :
    read? s = if (Double.ofInt i).isFinite then some (.float (Double.ofInt i)) else none := by
  have signed := spells_iff.mp spelled
  have absent : word? s = none := by
    rw [word?, Reading.integer?_iff_signed.mpr signed, Option.bind_some]
    exact Word.ofInt?_eq_none_iff.mpr wide
  have other : i ≠ 0 := by
    rintro rfl
    cases wide
  rw [read?_of_not_word absent, Reading.decimal?_of_signed signed other]
  cases finite : (Double.ofInt i).isFinite <;> simp [finite, Option.filter]

/-! ## Words are read back -/

theorem Number.read?_text (v : Int64) : read? (Value.int v).text = some (.int v) :=
  read?_eq_int_iff.mpr (spells_toString v.toInt)

/-- A text is read as a word exactly if it spells one, and then as the word it spells. A text that
spells no word is read as a finite double or not at all; if it spells an integer, as the double
nearest to it. So a word is read back from its text, also by way of a convertible value and its
text. -/
theorem Number.integers_read_back :
    (∀ (s : String) (v : Int64), read? s = some (.int v) ↔ Spells s v.toInt) ∧
    (∀ s : String, (∃ v : Int64, Spells s v.toInt) ∨ read? s = none ∨
      ∃ x : Double, x.isFinite ∧ read? s = some (.float x)) ∧
    (∀ (s : String) (i : Int), Spells s i → Word.fits i = false →
      read? s = if (Double.ofInt i).isFinite then some (.float (Double.ofInt i)) else none) ∧
    (∀ v : Int64, read? (Value.int v).text = some (.int v)) ∧
    ∀ (v : Int64) (flags : Flags), flags.auto →
      ∃ text, Value.asString ⟨.int v, flags⟩ = .ok text ∧
        (Value.str text).withAuto.asInt = .ok v ∧
        (Value.str text).withAuto.asNumber = .ok (.int v) := by
  refine ⟨fun _ _ => read?_eq_int_iff, read?_cases, fun _ _ => read?_of_wide, read?_text, ?_⟩
  intro v flags convertible
  refine ⟨(Value.int v).text, ?_, ?_, ?_⟩
  · simp [Value.asString, Value.auto, convertible, Value.text, Value.int]
  · simp [Value.asInt, Value.auto, Value.withAuto, Value.withFlags, Flags.union, Value.str,
      read?_text]
  · simp [Value.asNumber, Value.auto, Value.withAuto, Value.withFlags, Flags.union, Value.str,
      read?_text]

example : Number.read? "\t-9223372036854775808 " = some (.int Int64.minValue) ∧
    Number.read? "9223372036854775808" = some (.float (Double.ofInt (2 ^ 63))) ∧
    Number.read? "+" = none := by
  decide +kernel

end ScriptMachine
