import Mathlib.Data.List.Nodup
import ScriptMachine.Program.Decode
import ScriptMachine.Program.Encode
import ScriptMachine.Proofs.Document.Json
import ScriptMachine.Proofs.Exec.Arithmetic
import ScriptMachine.Proofs.Value.Comparison

/-!
# Instructions in program files

An instruction leaves out the operands that have their default, and a reader fills them in. That the
two agree is one fact about a field: what is left out has to be the default. It holds of every
operand but the double. `Double.isZero` is true of both zeros and the default is the positive one,
so a negative zero comes back as a positive one, and nothing else is lost.
-/

set_option autoImplicit false

namespace ScriptMachine

/-! ## Records -/

namespace Decode

/-- Under a name a record without repeated names has one entry or none. -/
theorem filter_record {fields : List (String × Document)} (distinct : (fields.map Prod.fst).Nodup)
    (name : String) :
    ((fields.map fun (key, value) => (Document.text key, value)).filter
      fun (key, _) => key.text? == some name) =
      ((fields.lookup name).map fun value => (Document.text name, value)).toList := by
  induction fields with
  | nil => rfl
  | cons field fields ih =>
    obtain ⟨key, value⟩ := field
    obtain ⟨fresh, distinct⟩ := List.nodup_cons.mp distinct
    by_cases same : key = name
    · subst same
      have absent : fields.lookup key = none := by
        rw [List.lookup_eq_none_iff]
        intro other mem
        simpa using fun same => fresh (List.mem_map.mpr ⟨other, mem, same.symm⟩)
      have others := ih distinct
      rw [absent] at others
      rw [List.map_cons, List.filter_cons_of_pos (by simp [Document.text?]), others]
      simp
    · have apart : (name == key) = false := by simpa using Ne.symm same
      simpa [List.lookup_cons, Document.text?, same, apart] using ih distinct

theorem fields?_record (dialect : Dialect) (names : List String)
    {fields : List (String × Document)} (distinct : (fields.map Prod.fst).Nodup) :
    fields? dialect names (.record fields) = some (names.map fun name => fields.lookup name) := by
  have texts : ((fields.map fun (key, value) => (Document.text key, value)).any
      fun (key, _) => key.text?.isNone) = false := by
    simp [Document.text?]
  have single : (names.any fun name => decide (1 <
      ((fields.map fun (key, value) => (Document.text key, value)).filter
        fun (key, _) => key.text? == some name).length)) = false := by
    simp only [filter_record distinct, List.any_eq_false]
    intro name _
    cases fields.lookup name <;> simp
  have first (name : String) : (((fields.map fun (key, value) => (Document.text key, value)).filter
      fun (key, _) => key.text? == some name).head?.map Prod.snd) = fields.lookup name := by
    rw [filter_record distinct]
    cases fields.lookup name <;> rfl
  simp only [fields?, Document.record, texts, single, first, Bool.false_eq_true, if_false]

/-- A field that is left out only where it has its default reads back. -/
theorem defaulted_unless {α : Type} {default a : α} {item : Document → Option α} {skip : Bool}
    {d : Document} (left : skip = true → a = default) (written : skip = false → item d = some a) :
    defaulted default item (if skip then none else some d) = some a := by
  cases skip with
  | true => exact congrArg some (left rfl).symm
  | false => exact written rfl

end Decode

theorem lookup_fieldUnless (skip : Bool) (name key : String) (value : Document) :
    (fieldUnless skip name value).lookup key =
      if key == name then (if skip then none else some value) else none := by
  cases skip <;> by_cases same : key == name <;> simp [fieldUnless, List.lookup_cons, same]

theorem names_fieldUnless (skip : Bool) (name : String) (value : Document) :
    ((fieldUnless skip name value).map Prod.fst).Sublist [name] := by
  cases skip <;> simp [fieldUnless]

namespace Opcode

theorem mem_all (op : Opcode) : op ∈ all := by
  cases op <;> decide

theorem ofName?_name_all : ∀ op ∈ all, ofName? op.name = some op := by
  decide +kernel

theorem ofName?_name (op : Opcode) : ofName? op.name = some op := ofName?_name_all op op.mem_all

end Opcode

namespace Double

theorem isZero_zero (negative : Bool) : (zero negative).isZero = true := by
  cases negative <;> decide

theorem eq_zero_of_isZero {x : Double} (small : x.isZero = true) : x = zero x.negative :=
  (eq_iff_of_isZero small (isZero_zero _)).mpr negative_ofMagnitude.symm

end Double

namespace Instruction

/-- What a program file keeps of an instruction: all of it, but a zero without its sign. -/
def kept (ins : Instruction) : Instruction :=
  if ins.float = Double.zero true then { ins with float := Double.zero false } else ins

theorem kept_eq_iff (ins : Instruction) : ins.kept = ins ↔ ins.float ≠ Double.zero true := by
  unfold kept
  by_cases negative : ins.float = Double.zero true
  · rw [if_pos negative]
    refine iff_of_false (fun same => ?_) (not_not_intro negative)
    have positive : Double.zero false = ins.float := congrArg Instruction.float same
    rw [negative] at positive
    exact absurd positive (by decide)
  · rw [if_neg negative]
    exact iff_of_true rfl negative

theorem kept_eq (ins : Instruction) :
    ins.kept = { ins with float := if ins.float.isZero then Double.zero false else ins.float } := by
  unfold kept
  by_cases zero : ins.float.isZero = true
  · rw [if_pos zero]
    have sign := Double.eq_zero_of_isZero zero
    cases negative : ins.float.negative with
    | true => rw [if_pos (by rw [sign, negative])]
    | false =>
      rw [negative] at sign
      rw [if_neg (by rw [sign]; decide), ← sign]
  · rw [if_neg zero, if_neg fun negative => zero (by rw [negative, Double.isZero_zero])]

theorem fields?_toDocument (dialect : Dialect) (ins : Instruction) :
    Decode.fields? dialect ["op", "int", "str", "float", "depth", "line"] ins.toDocument =
      some [some (.text ins.op.name),
        if ins.int == 0 then none else some (.int ins.int.toInt),
        if ins.str.isNone then none else some (.text ins.name),
        if ins.float.isZero then none else some (.float ins.float),
        some (.nat ins.depth),
        if ins.line == 0 then none else some (.nat ins.line)] := by
  rw [toDocument, Decode.fields?_record]
  · simp [List.lookup_append, List.lookup_cons, lookup_fieldUnless]
  · refine List.Nodup.sublist ?_
      (by decide : (["op"] ++ ["int"] ++ ["str"] ++ ["float"] ++ ["depth"] ++ ["line"]).Nodup)
    simp only [List.map_append]
    refine List.Sublist.append ?_ (names_fieldUnless _ _ _)
    refine List.Sublist.append ?_ (List.Sublist.refl _)
    refine List.Sublist.append ?_ (names_fieldUnless _ _ _)
    refine List.Sublist.append ?_ (names_fieldUnless _ _ _)
    exact List.Sublist.append (List.Sublist.refl _) (names_fieldUnless _ _ _)

/-- Depth and line of an instruction are words of half the size. -/
structure InRange (ins : Instruction) : Prop where
  depth : ins.depth < 2 ^ 32
  line : ins.line < 2 ^ 32

theorem small?_nat {n : Nat} (small : n < 2 ^ 32) : Decode.small? (.nat n) = some n := by
  simp [Decode.small?, Decode.nat?, Decode.natural?, Document.nat, small]

theorem instruction?_toDocument (dialect : Dialect) {ins : Instruction} (range : ins.InRange) :
    Decode.instruction? dialect ins.toDocument = some ins.kept := by
  have op : Decode.required (Decode.opcode? dialect) (some (.text ins.op.name)) = some ins.op :=
    Opcode.ofName?_name ins.op
  have int : Decode.defaulted 0 Decode.word?
      (if ins.int == 0 then none else some (.int ins.int.toInt)) = some ins.int :=
    Decode.defaulted_unless beq_iff_eq.mp fun _ => Word.ofInt?_eq_some_iff.mpr rfl
  have str : Decode.defaulted none (Decode.optional? Document.text?)
      (if ins.str.isNone then none else some (.text ins.name)) = some ins.str := by
    refine Decode.defaulted_unless (fun none => Option.isNone_iff_eq_none.mp none) fun given => ?_
    obtain ⟨s, given⟩ := Option.isSome_iff_exists.mp (by simpa using given)
    simp [Decode.optional?, Document.text?, name, given]
  have float : Decode.defaulted (Double.zero false) Decode.float?
      (if ins.float.isZero then none else some (.float ins.float)) =
        some (if ins.float.isZero then Double.zero false else ins.float) :=
    Decode.defaulted_unless (fun zero => by rw [if_pos zero]) fun other => by
      rw [other]
      rfl
  have depth : Decode.defaulted 0 Decode.small? (some (.nat ins.depth)) = some ins.depth :=
    small?_nat range.depth
  have line : Decode.defaulted 0 Decode.small?
      (if ins.line == 0 then none else some (.nat ins.line)) = some ins.line :=
    Decode.defaulted_unless beq_iff_eq.mp fun _ => small?_nat range.line
  rw [Decode.instruction?, fields?_toDocument, kept_eq]
  simp only [Option.bind_eq_bind, Option.bind_some, op, int, str, float, depth, line]
  rfl

theorem plain_fieldUnless {skip : Bool} {name : String} {value : Document}
    (plain : Document.Plain value) :
    ∀ field ∈ fieldUnless skip name value, Document.Plain field.2 := by
  intro field mem
  cases skip with
  | true => cases mem
  | false =>
    rw [List.mem_singleton.mp mem]
    exact plain

theorem plain_toDocument {ins : Instruction} (range : ins.InRange)
    (precise : Json.Exact ins.float) : Document.Plain ins.toDocument := by
  have int : Document.Plain (.int ins.int.toInt) :=
    .int _ (Int64.le_toInt _) (by have := Int64.toInt_lt ins.int; omega)
  have small {n : Nat} (small : n < 2 ^ 32) : Document.Plain (.nat n) :=
    .int _ (by omega) (by omega)
  refine .record _ ?_
  simp only [List.forall_mem_append, List.forall_mem_singleton]
  exact ⟨⟨⟨⟨⟨.text _, plain_fieldUnless int⟩, plain_fieldUnless (.text _)⟩,
    plain_fieldUnless (.float _ precise)⟩, small range.depth⟩, plain_fieldUnless (small range.line)⟩

theorem parse?_toDocument {ins : Instruction} (range : ins.InRange)
    (precise : Json.Exact ins.float) :
    (Json.parse? ins.toDocument.render).bind (Decode.instruction? Format.json.dialect) =
      some ins.kept := by
  rw [(plain_toDocument range precise).parse?_render]
  exact instruction?_toDocument _ range

/-- An instruction is read back from its document, and from the text of the document if its double
is read back from the text of the double. Nothing is lost but the minus of a zero. -/
theorem reads_back (ins : Instruction) (range : ins.InRange) :
    Decode.instruction? Format.json.dialect ins.toDocument = some ins.kept ∧
      (Json.Exact ins.float →
        (Json.parse? ins.toDocument.render).bind (Decode.instruction? Format.json.dialect) =
          some ins.kept) ∧
      (ins.kept = ins ↔ ins.float ≠ Double.zero true) :=
  ⟨instruction?_toDocument _ range, parse?_toDocument range, kept_eq_iff ins⟩

theorem reads_back_half :
    let ins : Instruction := ⟨.pushFloat, -7, some "half\n", ⟨0x3FE0000000000000⟩, 3, 12⟩
    ins.InRange ∧ Json.Exact ins.float ∧
      (Json.parse? ins.toDocument.render).bind (Decode.instruction? Format.json.dialect) =
        some ins := by
  intro ins
  have range : ins.InRange := ⟨by decide, by decide⟩
  have precise : Json.Exact ⟨0x3FE0000000000000⟩ := ⟨by decide, by rfl⟩
  obtain ⟨_, text, all⟩ := reads_back ins range
  refine ⟨range, precise, ?_⟩
  rw [text precise, all.mpr (by decide)]

/-- A negative zero is left out and comes back as a positive one, though its text reads back. -/
theorem negative_zero_lost :
    let ins : Instruction := { op := .pushFloat, float := Double.zero true }
    ins.InRange ∧ Json.Exact ins.float ∧
      ins.toDocument.render = "\x7b\"op\":\"PushFloat\",\"depth\":0\x7d" ∧
      (Json.parse? ins.toDocument.render).bind (Decode.instruction? Format.json.dialect) =
        some { op := .pushFloat } ∧
      ins ≠ { op := .pushFloat } := by
  intro ins
  have range : ins.InRange := ⟨by decide, by decide⟩
  have precise : Json.Exact (Double.zero true) := ⟨by decide, by rfl⟩
  have text := parse?_toDocument range precise
  exact ⟨range, precise, by decide, text, by decide⟩

end Instruction

end ScriptMachine
