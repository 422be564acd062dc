import Mathlib.Data.List.TakeWhile
import ScriptMachine.Document.Json

/-!
# Written JSON reads back

`Document.render` writes documents of which `Json.parse?` can read most. This file says which, and
that what is read is the document that was written. Texts, truth values and the integers of a signed
or an unsigned word are always read back. A double is read in two steps that both round, so that it
reads back is a property of the double, `Json.Exact`.

The parts of the reader are followed one by one: each reads what the matching part of the writer
wrote and leaves what comes after it. After a value there is nothing or a mark that no number has.
-/

set_option autoImplicit false

namespace ScriptMachine

namespace Json

/-- What may come after a value that was written: nothing, or a mark that goes on with the
collection around it. -/
def Stops (rest : List Char) : Prop :=
  ∀ c ∈ rest.head?, c = ',' ∨ c = ']' ∨ c = '\x7d'

theorem stops_nil : Stops [] := by simp [Stops]

theorem stops_comma (rest : List Char) : Stops (',' :: rest) := by simp [Stops]

theorem stops_bracket (rest : List Char) : Stops (']' :: rest) := by simp [Stops]

theorem stops_brace (rest : List Char) : Stops ('\x7d' :: rest) := by simp [Stops]

theorem skipSpaces_cons {c : Char} (solid : isSpace c = false) (cs : List Char) :
    skipSpaces (c :: cs) = c :: cs := by
  simp [skipSpaces, solid]

theorem skipSpaces_skipSpaces (cs : List Char) : skipSpaces (skipSpaces cs) = skipSpaces cs := by
  induction cs with
  | nil => rfl
  | cons c cs ih =>
    cases blank : isSpace c with
    | true => simpa [skipSpaces, blank] using ih
    | false => rw [skipSpaces_cons blank, skipSpaces_cons blank]

/-! ## Texts -/

def controlDigits (n : Nat) : List Char :=
  List.replicate (4 - (Text.hexDigits n).length) '0' ++ Text.hexDigits n

theorem controlDigits_spec : ∀ n < 32,
    (controlDigits n).length = 4 ∧ Text.natural? 16 (controlDigits n) = some n := by
  decide

theorem codes?_unicode {digits : List Char} {unit : Nat} (four : digits.length = 4)
    (value : Text.natural? 16 digits = some unit) (read : List Nat) (cs : List Char) :
    codes? read ('\\' :: 'u' :: digits ++ cs) = codes? (unit :: read) cs := by
  match digits, four with
  | [a, b, c, d], _ => simp [codes?, value]

theorem codes?_interchangeChar (c : Char) (read : List Nat) (cs : List Char) :
    codes? read (Text.interchangeChar c ++ cs) = codes? (c.toNat :: read) cs := by
  unfold Text.interchangeChar
  split
  · simp [codes?, simpleEscape?]
  · simp [codes?, simpleEscape?]
  · simp [codes?, simpleEscape?]
  · simp [codes?, simpleEscape?]
  · simp [codes?, simpleEscape?]
  · rename_i quote backslash _ _ _
    split
    · rename_i code
      simp [codes?, simpleEscape?, code]
    · split
      · rename_i code
        simp [codes?, simpleEscape?, code]
      · split
        · rename_i control
          obtain ⟨four, value⟩ := controlDigits_spec c.toNat control
          exact codes?_unicode four value read cs
        · rename_i control
          rw [List.singleton_append, codes?]
          · rw [if_neg control]
          · exact quote
          · exact fun _ _ _ _ _ same _ => backslash same
          · exact fun _ _ same _ => backslash same

theorem codes?_interchange (cs : List Char) (read : List Nat) (rest : List Char) :
    codes? read (cs.flatMap Text.interchangeChar ++ '"' :: rest) =
      some (read.reverse ++ cs.map Char.toNat, rest) := by
  induction cs generalizing read with
  | nil => simp [codes?]
  | cons c cs ih =>
    rw [List.flatMap_cons, List.append_assoc, codes?_interchangeChar, ih]
    simp

/-- The code of a character is no half of a pair. -/
theorem surrogate_toNat (c : Char) :
    isHighSurrogate c.toNat = false ∧ isLowSurrogate c.toNat = false := by
  have valid : c.toNat < 0xD800 ∨ 0xDFFF < c.toNat := by
    rcases c.valid with low | ⟨high, _⟩
    · exact .inl low
    · exact .inr high
  simp only [isHighSurrogate, isLowSurrogate, decide_eq_false_iff_not]
  omega

theorem characters?_codes (cs read : List Char) :
    characters? read (cs.map Char.toNat) = some (read.reverse ++ cs) := by
  induction cs generalizing read with
  | nil => simp [characters?]
  | cons c cs ih =>
    obtain ⟨high, low⟩ := surrogate_toNat c
    cases cs with
    | nil => simp [characters?, high, low]
    | cons next cs =>
      have step : characters? read ((c :: next :: cs).map Char.toNat) =
          characters? (c :: read) ((next :: cs).map Char.toNat) := by
        simp [characters?, high, low]
      rw [step, ih]
      simp

theorem text?_interchange (s : String) (rest : List Char) :
    text? (s.toList.flatMap Text.interchangeChar ++ '"' :: rest) = some (.text s, rest) := by
  rw [text?, codes?_interchange]
  simp [characters?_codes]

/-! ## Numbers -/

theorem stops_digit {rest : List Char} (stops : Stops rest) :
    rest.takeWhile Char.isDigit = [] ∧ rest.dropWhile Char.isDigit = rest := by
  cases rest with
  | nil => simp
  | cons c rest =>
    have mark := stops c rfl
    have other : c.isDigit = false := by rcases mark with rfl | rfl | rfl <;> rfl
    simp [other]

theorem digits_append {cs rest : List Char} (stops : Stops rest) :
    Reading.digits (cs ++ rest) = ((Reading.digits cs).1, (Reading.digits cs).2 ++ rest) := by
  obtain ⟨none, all⟩ := stops_digit stops
  induction cs with
  | nil => simp [Reading.digits, none, all]
  | cons c cs ih =>
    simp only [Reading.digits, Prod.mk.injEq] at ih
    cases digit : c.isDigit with
    | true => simp [Reading.digits, digit, ih]
    | false => simp [Reading.digits, digit]

theorem sign_append {cs rest : List Char} (stops : Stops rest) :
    Reading.sign (cs ++ rest) = ((Reading.sign cs).1, (Reading.sign cs).2 ++ rest) := by
  cases cs with
  | nil =>
    cases rest with
    | nil => rfl
    | cons c rest => rcases stops c rfl with rfl | rfl | rfl <;> rfl
  | cons c cs => unfold Reading.sign; grind

def Whole (whole : List Char) : Prop := whole = ['0'] ∨ ∃ c ds, whole = c :: ds ∧ c ≠ '0'

theorem wholePart?_eq_some_iff {cs whole left : List Char} :
    wholePart? cs = some (whole, left) ↔ Reading.digits cs = (whole, left) ∧ Whole whole := by
  unfold wholePart?
  generalize Reading.digits cs = parts
  obtain ⟨ds, after⟩ := parts
  cases ds with
  | nil => grind [Whole]
  | cons c ds =>
    by_cases zero : c = '0'
    · subst zero
      cases ds with
      | nil => grind [Whole]
      | cons d ds => grind [Whole]
    · grind [Whole]

theorem wholePart?_append {cs whole left rest : List Char} (stops : Stops rest)
    (found : wholePart? cs = some (whole, left)) :
    wholePart? (cs ++ rest) = some (whole, left ++ rest) := by
  obtain ⟨taken, shape⟩ := wholePart?_eq_some_iff.mp found
  exact wholePart?_eq_some_iff.mpr ⟨by rw [digits_append stops, taken], shape⟩

theorem fractionPart?_append {cs fraction left rest : List Char} (stops : Stops rest)
    (found : fractionPart? cs = some (fraction, left)) :
    fractionPart? (cs ++ rest) = some (fraction, left ++ rest) := by
  cases cs with
  | nil =>
    cases found
    cases rest with
    | nil => rfl
    | cons c rest => rcases stops c rfl with rfl | rfl | rfl <;> rfl
  | cons c cs =>
    by_cases point : c = '.'
    · subst point
      simp only [fractionPart?, List.cons_append] at found ⊢
      rw [digits_append stops]
      generalize Reading.digits cs = parts at found ⊢
      obtain ⟨ds, after⟩ := parts
      cases ds with
      | nil => cases found
      | cons d ds => cases found; rfl
    · have absent (tail : List Char) : fractionPart? (c :: tail) = some ([], c :: tail) := by
        unfold fractionPart?
        grind
      rw [absent] at found
      cases found
      exact absent (cs ++ rest)

theorem exponentPart?_append {cs left rest : List Char} {exponent : Option Int}
    (stops : Stops rest) (found : exponentPart? cs = some (exponent, left)) :
    exponentPart? (cs ++ rest) = some (exponent, left ++ rest) := by
  cases cs with
  | nil =>
    cases found
    cases rest with
    | nil => rfl
    | cons c rest => rcases stops c rfl with rfl | rfl | rfl <;> rfl
  | cons c cs =>
    by_cases mark : c = 'e' ∨ c = 'E'
    · simp only [exponentPart?, if_pos mark, List.cons_append] at found ⊢
      rw [sign_append stops]
      simp only at found ⊢
      rw [digits_append stops]
      generalize Reading.digits (Reading.sign cs).2 = parts at found ⊢
      obtain ⟨ds, after⟩ := parts
      cases ds with
      | nil => cases found
      | cons d ds => cases found; rfl
    · simp only [exponentPart?, if_neg mark, List.cons_append] at found ⊢
      cases found
      rfl

def unsigned? (negative : Bool) (body : List Char) : Option (Document × List Char) := do
  let (whole, rest) ← wholePart? body
  let (fraction, rest) ← fractionPart? rest
  let (exponent, rest) ← exponentPart? rest
  if fraction.isEmpty && exponent.isNone then
    return (integerDocument negative whole, rest)
  else
    return (decimalDocument negative whole fraction (exponent.getD 0), rest)

theorem number?_minus (body : List Char) : number? ('-' :: body) = unsigned? true body := rfl

theorem number?_plain {cs : List Char} (plain : cs.head? ≠ some '-') :
    number? cs = unsigned? false cs := by
  match cs, plain with
  | [], _ => rfl
  | c :: tail, plain =>
    unfold number?
    split
    rename_i sign
    split at sign
    · rename_i same
      cases same
      exact absurd rfl plain
    · cases sign
      rfl

theorem unsigned?_append {negative : Bool} {body rest : List Char} {d : Document}
    (stops : Stops rest) (found : unsigned? negative body = some (d, [])) :
    unsigned? negative (body ++ rest) = some (d, rest) := by
  simp only [unsigned?, Option.bind_eq_bind, Option.bind_eq_some_iff, Prod.exists] at found
  obtain ⟨whole, afterWhole, foundWhole, fraction, afterFraction, foundFraction, exponent, left,
    foundExponent, answer⟩ := found
  simp only [unsigned?, wholePart?_append stops foundWhole,
    fractionPart?_append stops foundFraction, exponentPart?_append stops foundExponent,
    Option.bind_eq_bind, Option.bind_some]
  split at answer <;> rename_i form <;> cases answer
  · rw [if_pos form]; rfl
  · rw [if_neg form]; rfl

/-- A number that fills a text is read in front of anything that may follow a value. -/
theorem number?_append {cs rest : List Char} {d : Document} (stops : Stops rest)
    (found : number? cs = some (d, [])) : number? (cs ++ rest) = some (d, rest) := by
  by_cases sign : cs.head? = some '-'
  · obtain ⟨body, rfl⟩ := List.head?_eq_some_iff.mp sign
    exact unsigned?_append stops found
  · cases cs with
    | nil => cases found
    | cons c cs =>
      rw [number?_plain sign] at found
      rw [number?_plain (by simpa using sign)]
      exact unsigned?_append stops found

theorem number?_head {cs : List Char} {read : Document × List Char}
    (found : number? cs = some read) : ∃ c tail, cs = c :: tail ∧ (c = '-' ∨ c.isDigit) := by
  cases cs with
  | nil => cases found
  | cons c tail =>
    refine ⟨c, tail, rfl, ?_⟩
    by_cases sign : c = '-'
    · exact .inl sign
    · right
      rw [number?_plain (by simpa using sign), unsigned?] at found
      by_contra other
      have none : wholePart? (c :: tail) = none := by
        simp [wholePart?, Reading.digits, other]
      rw [none] at found
      cases found

theorem value?_number {cs : List Char} {read : Document × List Char} (fuel : Nat)
    (found : number? cs = some read) : value? (fuel + 1) cs = some read := by
  obtain ⟨c, tail, rfl, head⟩ := number?_head found
  have begins : c ≠ ' ' ∧ c ≠ '\n' ∧ c ≠ '\t' ∧ c ≠ '\r' ∧ c ≠ 'n' ∧ c ≠ 't' ∧ c ≠ 'f' ∧
      c ≠ '"' ∧ c ≠ '[' ∧ c ≠ '\x7b' := by
    refine ⟨?_, ?_, ?_, ?_, ?_, ?_, ?_, ?_, ?_, ?_⟩ <;>
      (rintro rfl; revert head; decide)
  have solid : isSpace c = false := by grind [isSpace]
  rw [value?, skipSpaces_cons solid]
  split <;> grind

theorem natural_toDigits (n : Nat) : Reading.natural (Nat.toDigits 10 n) = n := by
  have same : Reading.natural (Nat.toDigits 10 n) = Nat.ofDigitChars 10 (Nat.toDigits 10 n) 0 := by
    simp only [Reading.natural, Nat.ofDigitChars, Reading.digitValue, Nat.mul_comm]
  rw [same, Nat.ofDigitChars_toDigits (by decide) (by decide)]

theorem isDigit_of_toDigits {n : Nat} {c : Char} (mem : c ∈ Nat.toDigits 10 n) : c.isDigit :=
  Nat.isDigit_of_mem_toDigits (by decide) (by decide) mem

theorem digits_toDigits (n : Nat) :
    Reading.digits (Nat.toDigits 10 n) = (Nat.toDigits 10 n, []) := by
  have each : ∀ c ∈ Nat.toDigits 10 n, c.isDigit := fun _ => isDigit_of_toDigits
  rw [Reading.digits, List.takeWhile_eq_self_iff.mpr each, List.dropWhile_eq_nil_iff.mpr each]

theorem digitChar_ne_zero : ∀ n < 10, n ≠ 0 → n.digitChar ≠ '0' := by decide

theorem toDigits_head (n : Nat) (positive : n ≠ 0) :
    ∃ c ds, Nat.toDigits 10 n = c :: ds ∧ c ≠ '0' := by
  induction n using Nat.strongRecOn with
  | ind n ih =>
    rw [Nat.toDigits_eq_if (by decide)]
    by_cases one : n < 10
    · rw [if_pos one]
      exact ⟨_, _, rfl, digitChar_ne_zero n one positive⟩
    · obtain ⟨c, ds, digits, other⟩ := ih (n / 10) (by omega) (by omega)
      rw [if_neg one, digits]
      exact ⟨c, _, rfl, other⟩

theorem whole_toDigits (n : Nat) : Whole (Nat.toDigits 10 n) := by
  by_cases zero : n = 0
  · subst zero
    exact .inl rfl
  · exact .inr (toDigits_head n zero)

theorem unsigned?_toDigits (negative : Bool) (n : Nat) :
    unsigned? negative (Nat.toDigits 10 n) =
      some (integerDocument negative (Nat.toDigits 10 n), []) := by
  have whole := wholePart?_eq_some_iff.mpr ⟨digits_toDigits n, whole_toDigits n⟩
  simp [unsigned?, whole, fractionPart?, exponentPart?]

/-- The integers that are read back: those of a signed or an unsigned word. -/
theorem number?_toString {i : Int} (low : -(2 ^ 63) ≤ i) (high : i < 2 ^ 64) :
    number? (toString i).toList = some (.int i, []) := by
  rw [show toString i = i.repr from rfl, Int.repr_eq_if]
  by_cases positive : 0 ≤ i
  · have plain : (Nat.toDigits 10 i.toNat).head? ≠ some '-' := by
      intro sign
      exact absurd (isDigit_of_toDigits (List.mem_of_head? sign)) (by decide)
    rw [if_pos positive, Nat.toList_repr, number?_plain plain, unsigned?_toDigits]
    have fits : i.toNat ≤ significandLimit := by
      unfold significandLimit
      omega
    simp only [integerDocument, natural_toDigits, if_pos fits, Bool.false_eq_true, if_false]
    rw [Int.toNat_of_nonneg positive]
  · rw [if_neg positive]
    have text : ("-" ++ (-i).toNat.repr).toList = '-' :: Nat.toDigits 10 (-i).toNat := by
      simp [Nat.toList_repr]
    rw [text, number?_minus, unsigned?_toDigits]
    have fits : (-i).toNat ≠ 0 ∧ (-i).toNat ≤ 2 ^ 63 := by omega
    simp only [integerDocument, natural_toDigits, if_pos fits, if_true]
    congr
    omega

/-- The text of a double reads back as the double. -/
structure Exact (x : Double) : Prop where
  finite : x.isFinite = true
  readsBack : number? (Double.written.text x).toList = some (.float x, [])

end Json

/-! ## Documents -/

namespace Json

theorem value?_skipSpaces (fuel : Nat) (cs : List Char) :
    value? fuel (skipSpaces cs) = value? fuel cs := by
  cases fuel with
  | zero => rfl
  | succ fuel => rw [value?, value?, skipSpaces_skipSpaces]

theorem items?_skipSpaces (fuel : Nat) (read : List Document) (cs : List Char) :
    items? fuel read (skipSpaces cs) = items? fuel read cs := by
  cases fuel with
  | zero => rfl
  | succ fuel => rw [items?, items?, value?_skipSpaces]

theorem value?_bracket (fuel : Nat) (tail : List Char) : value? fuel (']' :: tail) = none := by
  cases fuel with
  | zero => rfl
  | succ fuel =>
    rw [value?, skipSpaces_cons (by decide)]
    rfl

theorem value?_items (fuel : Nat) {cs : List Char}
    (filled : ∀ tail, skipSpaces cs ≠ ']' :: tail) :
    value? (fuel + 1) ('[' :: cs) = items? fuel [] cs := by
  rw [value?, skipSpaces_cons (by decide), ← items?_skipSpaces]
  -- `filled` rules the closing bracket out, so what is left of the match is the items
  simp only

theorem value?_entries (fuel : Nat) (cs : List Char) :
    value? (fuel + 1) ('\x7b' :: '"' :: cs) = entries? fuel [] ('"' :: cs) := by
  rw [value?, skipSpaces_cons (by decide)]
  simp only
  rw [skipSpaces_cons (by decide)]
  rfl

end Json

namespace Document

/-- Documents that written JSON holds completely. -/
inductive Plain : Document → Prop
  | null : Plain .null
  | bool (b : Bool) : Plain (.bool b)
  | int (i : Int) (low : -(2 ^ 63) ≤ i) (high : i < 2 ^ 64) : Plain (.int i)
  | float (x : Double) (precise : Json.Exact x) : Plain (.float x)
  | text (s : String) : Plain (.text s)
  | list (items : List Document) (each : ∀ d ∈ items, Plain d) : Plain (.list items)
  | record (fields : List (String × Document)) (each : ∀ field ∈ fields, Plain field.2) :
      Plain (.record fields)

/-- A document is read from the characters that were written for it, with fuel of about twice their
number. -/
def Reads (d : Document) : Prop :=
  ∀ (fuel : Nat) (rest : List Char), 2 * d.render.toList.length ≤ fuel + 1 → Json.Stops rest →
    Json.value? fuel (d.render.toList ++ rest) = some (d, rest)

theorem Reads.length_pos {d : Document} (reads : d.Reads) : 0 < d.render.toList.length := by
  by_contra empty
  have read := reads 0 [] (by omega) Json.stops_nil
  cases read

theorem Reads.not_closing {d : Document} (reads : d.Reads) {rest : List Char}
    (stops : Json.Stops rest) (tail : List Char) :
    Json.skipSpaces (d.render.toList ++ rest) ≠ ']' :: tail := by
  intro closing
  have read := reads _ rest (Nat.le_succ _) stops
  rw [← Json.value?_skipSpaces, closing, Json.value?_bracket] at read
  cases read

theorem reads_of_number {d : Document}
    (read : Json.number? d.render.toList = some (d, [])) : d.Reads := by
  intro fuel rest enough stops
  obtain ⟨c, tail, shape, _⟩ := Json.number?_head read
  obtain ⟨fuel, rfl⟩ : ∃ n, fuel = n + 1 := by
    rw [shape, List.length_cons] at enough
    exact ⟨fuel - 1, by omega⟩
  exact Json.value?_number fuel (Json.number?_append stops read)

theorem render_text (s : String) : (Document.text s).render.toList =
    '"' :: (s.toList.flatMap Text.interchangeChar ++ ['"']) := by
  simp [render, Text.interchange]

theorem reads_text (s : String) : Reads (.text s) := by
  intro fuel rest enough stops
  rw [render_text] at enough ⊢
  match fuel, enough with
  | fuel + 1, _ =>
    rw [List.cons_append, Json.value?, Json.skipSpaces_cons (by decide)]
    simpa using Json.text?_interchange s rest

/-! ### Lists -/

def afterItem : List Document → List Char
  | [] => []
  | items => ',' :: (renderItems items).toList

theorem renderItems_cons (d : Document) (items : List Document) :
    (renderItems (d :: items)).toList = d.render.toList ++ afterItem items := by
  cases items with
  | nil => simp [renderItems, afterItem]
  | cons next items => simp [renderItems, afterItem]

theorem stops_afterItem (items : List Document) (rest : List Char) :
    Json.Stops (afterItem items ++ ']' :: rest) := by
  cases items with
  | nil => exact Json.stops_bracket rest
  | cons next items => exact Json.stops_comma _

/-- The first item is read, and what is left of the text is what comes after it. -/
theorem Reads.items? {d : Document} (reads : d.Reads) {fuel : Nat}
    (enough : 2 * d.render.toList.length ≤ fuel + 1) (items read : List Document)
    (rest : List Char) :
    Json.items? (fuel + 1) read ((renderItems (d :: items)).toList ++ ']' :: rest) =
      match Json.skipSpaces (afterItem items ++ ']' :: rest) with
      | ',' :: rest => Json.items? fuel (d :: read) rest
      | ']' :: rest => some (.list (d :: read).reverse, rest)
      | _ => none := by
  rw [renderItems_cons, List.append_assoc, Json.items?,
    reads fuel _ enough (stops_afterItem items rest)]
  rfl

theorem reads_items {d : Document} {items : List Document} (each : ∀ i ∈ d :: items, Reads i)
    (fuel : Nat) (enough : 2 * (renderItems (d :: items)).toList.length ≤ fuel)
    (read : List Document) (rest : List Char) :
    Json.items? fuel read ((renderItems (d :: items)).toList ++ ']' :: rest) =
      some (.list (read.reverse ++ d :: items), rest) := by
  induction items generalizing d fuel read with
  | nil =>
    have head := each d List.mem_cons_self
    have positive := head.length_pos
    rw [renderItems_cons, List.length_append] at enough
    obtain ⟨fuel, rfl⟩ : ∃ n, fuel = n + 1 := ⟨fuel - 1, by omega⟩
    rw [head.items? (by omega)]
    simp [afterItem, Json.skipSpaces, Json.isSpace]
  | cons next items ih =>
    have head := each d List.mem_cons_self
    have positive := head.length_pos
    simp only [renderItems_cons d, List.length_append, afterItem, List.length_cons] at enough
    obtain ⟨fuel, rfl⟩ : ∃ n, fuel = n + 1 := ⟨fuel - 1, by omega⟩
    have others := ih (fun i mem => each i (List.mem_cons_of_mem d mem)) fuel (by omega)
      (d :: read)
    rw [head.items? (by omega)]
    simp only [afterItem, List.cons_append, Json.skipSpaces_cons (c := ',') (by decide), others]
    simp

theorem render_list (items : List Document) :
    (Document.list items).render.toList = '[' :: ((renderItems items).toList ++ [']']) := by
  simp [render]

theorem reads_list (items : List Document) (each : ∀ d ∈ items, Reads d) :
    Reads (.list items) := by
  intro fuel rest enough stops
  rw [render_list] at enough ⊢
  match fuel, enough with
  | fuel + 1, enough =>
    cases items with
    | nil => rfl
    | cons d items =>
      have head := each d List.mem_cons_self
      have content := reads_items each fuel (by simp at enough ⊢; omega) [] rest
      have filled := head.not_closing (stops_afterItem items rest)
      rw [← List.append_assoc, ← renderItems_cons] at filled
      simpa using (Json.value?_items fuel filled).trans content

/-! ### Records -/

def renderFields (fields : List (String × Document)) : List Char :=
  (renderEntries (fields.map fun (name, value) => (.text name, value))).toList

def afterField : List (String × Document) → List Char
  | [] => []
  | fields => ',' :: renderFields fields

theorem renderFields_cons (name : String) (d : Document) (fields : List (String × Document)) :
    renderFields ((name, d) :: fields) =
      '"' :: (name.toList.flatMap Text.interchangeChar ++
        '"' :: ':' :: (d.render.toList ++ afterField fields)) := by
  cases fields with
  | nil => simp [renderFields, renderEntries, afterField, render_text]
  | cons next fields => simp [renderFields, renderEntries, afterField, render_text]

theorem stops_afterField (fields : List (String × Document)) (rest : List Char) :
    Json.Stops (afterField fields ++ '\x7d' :: rest) := by
  cases fields with
  | nil => exact Json.stops_brace rest
  | cons next fields => exact Json.stops_comma _

/-- The first field is read, and what is left of the text is what comes after it. -/
theorem Reads.entries? {d : Document} (reads : d.Reads) {fuel : Nat}
    (enough : 2 * d.render.toList.length ≤ fuel + 1) (name : String)
    (fields : List (String × Document)) (read : List (Document × Document)) (rest : List Char) :
    Json.entries? (fuel + 1) read (renderFields ((name, d) :: fields) ++ '\x7d' :: rest) =
      match Json.skipSpaces (afterField fields ++ '\x7d' :: rest) with
      | ',' :: rest => Json.entries? fuel ((.text name, d) :: read) rest
      | '\x7d' :: rest => some (.map ((.text name, d) :: read).reverse, rest)
      | _ => none := by
  have key := Json.text?_interchange name
    (':' :: (d.render.toList ++ (afterField fields ++ '\x7d' :: rest)))
  have value := reads fuel _ enough (stops_afterField fields rest)
  rw [renderFields_cons, Json.entries?]
  simp only [List.cons_append, List.append_assoc, Json.skipSpaces_cons (c := '"') (by decide), key,
    Option.bind_eq_bind, Option.bind_some, Json.skipSpaces_cons (c := ':') (by decide), value]
  rfl

theorem reads_fields {name : String} {d : Document} {fields : List (String × Document)}
    (each : ∀ field ∈ (name, d) :: fields, Reads field.2) (fuel : Nat)
    (enough : 2 * (renderFields ((name, d) :: fields)).length ≤ fuel)
    (read : List (Document × Document)) (rest : List Char) :
    Json.entries? fuel read (renderFields ((name, d) :: fields) ++ '\x7d' :: rest) =
      some (.map (read.reverse ++
        ((name, d) :: fields).map fun (name, value) => (.text name, value)), rest) := by
  induction fields generalizing name d fuel read with
  | nil =>
    have head : Reads d := each (name, d) List.mem_cons_self
    rw [renderFields_cons] at enough
    simp only [List.length_cons, List.length_append] at enough
    obtain ⟨fuel, rfl⟩ : ∃ n, fuel = n + 1 := ⟨fuel - 1, by omega⟩
    rw [head.entries? (by omega)]
    simp [afterField, Json.skipSpaces, Json.isSpace]
  | cons next fields ih =>
    obtain ⟨next, value⟩ := next
    have head : Reads d := each (name, d) List.mem_cons_self
    rw [renderFields_cons] at enough
    simp only [List.length_cons, List.length_append, afterField] at enough
    obtain ⟨fuel, rfl⟩ : ∃ n, fuel = n + 1 := ⟨fuel - 1, by omega⟩
    have others := ih (fun field mem => each field (List.mem_cons_of_mem _ mem)) fuel (by omega)
      ((.text name, d) :: read)
    rw [head.entries? (by omega)]
    simp only [afterField, List.cons_append, Json.skipSpaces_cons (c := ',') (by decide), others]
    simp

theorem render_record (fields : List (String × Document)) :
    (record fields).render.toList = '\x7b' :: (renderFields fields ++ ['\x7d']) := by
  simp [record, render, renderFields]

theorem reads_record (fields : List (String × Document))
    (each : ∀ field ∈ fields, Reads field.2) : Reads (record fields) := by
  intro fuel rest enough stops
  rw [render_record] at enough ⊢
  match fuel, enough with
  | fuel + 1, enough =>
    cases fields with
    | nil => rfl
    | cons field fields =>
      obtain ⟨name, d⟩ := field
      have content := reads_fields each fuel (by simp at enough ⊢; omega) [] rest
      rw [renderFields_cons, List.cons_append, ← Json.value?_entries] at content
      simpa [renderFields_cons, record] using content

theorem reads_word {d : Document} {w : List Char} {c : Char} (shape : d.render.toList = c :: w)
    (read : ∀ fuel rest, Json.value? (fuel + 1) (c :: w ++ rest) = some (d, rest)) : d.Reads := by
  intro fuel rest enough _
  rw [shape] at enough ⊢
  match fuel, enough with
  | fuel + 1, _ => exact read fuel rest

theorem Plain.reads {d : Document} (plain : Plain d) : d.Reads := by
  induction plain with
  | null => exact reads_word (c := 'n') rfl fun _ _ => rfl
  | bool b =>
    cases b with
    | false => exact reads_word (c := 'f') rfl fun _ _ => rfl
    | true => exact reads_word (c := 't') rfl fun _ _ => rfl
  | int i low high => exact reads_of_number (Json.number?_toString low high)
  | float x precise =>
    refine reads_of_number ?_
    rw [render, if_pos precise.finite]
    exact precise.readsBack
  | text s => exact reads_text s
  | list items _ each => exact reads_list items each
  | record fields _ each => exact reads_record fields each

theorem Plain.parse?_render {d : Document} (plain : Plain d) : Json.parse? d.render = some d := by
  have read := plain.reads (2 * d.render.toList.length + 2) [] (by omega) Json.stops_nil
  rw [List.append_nil] at read
  simp only [Json.parse?, read, Option.bind_eq_bind, Option.bind_some]
  rfl

end Document

end ScriptMachine
