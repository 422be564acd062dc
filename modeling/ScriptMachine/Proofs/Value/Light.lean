import ScriptMachine.Proofs.Effect
import ScriptMachine.Proofs.Value.Owners
import ScriptMachine.Value.Arith

/-!
# Computations that move no owners

The errors of conversions and of arithmetic carry no values, and their results own nothing.
-/

set_option autoImplicit false

namespace ScriptMachine

/-- A computation whose errors carry no value. -/
def Light {α : Type} (x : Except Error α) : Prop := ∀ e, x = .error e → e.carried = []

section
variable {α β : Type} {x : Except Error α}

theorem light_ok (a : α) : Light (.ok a : Except Error α) := fun _ found => by cases found

theorem light_error {e : Error} (carries : e.carried = []) : Light (.error e : Except Error α) := by
  intro e' found
  cases found
  exact carries

theorem light_bind {next : α → Except Error β} (first : Light x) (second : ∀ a, Light (next a)) :
    Light (x >>= next) := by
  intro e found
  cases x with
  | error e' =>
    cases found
    exact first _ rfl
  | ok a => exact second a e found

theorem light_throw {e : Error} (carries : e.carried = []) : Light (throw e : Except Error α) :=
  light_error carries

theorem light_ite {c : Prop} [Decidable c] {x y : Except Error α} (first : Light x)
    (second : Light y) : Light (if c then x else y) := by
  split
  · exact first
  · exact second

end

namespace Value

theorem light_asNumber (v : Value) : Light v.asNumber := by
  unfold asNumber
  split
  case h_4 =>
    split
    · exact light_ok _
    · exact light_error rfl
  case h_5 => exact light_error rfl
  all_goals exact light_ok _

theorem light_asBool (v : Value) : Light v.asBool := by
  unfold asBool
  cases v.auto with
  | false => cases v.content <;> first | exact light_ok _ | exact light_error rfl
  | true =>
    cases v.content with
    | str s => exact light_ite (light_ok _) (light_ite (light_ok _) (light_error rfl))
    | _ => first | exact light_ok _ | exact light_error rfl

theorem light_truthy (v : Value) : Light v.truthy := by
  unfold truthy
  split
  · exact light_ok _
  · exact light_ok _
  · exact v.light_asBool

theorem light_negate (v : Value) : Light v.negate := by
  refine light_bind v.light_asNumber fun n => ?_
  cases n with
  | int i =>
    simp only
    cases Word.ofInt? (-i.toInt) <;> exact light_ok _
  | float x => exact light_ok _

theorem bare_negate {v w : Value} (done : v.negate = .ok w) : Bare [w] := by
  intro x
  obtain ⟨n, -, done⟩ := ok_of_bind done
  cases n with
  | int i =>
    cases word : Word.ofInt? (-i.toInt) <;> simp only [word] at done <;> cases done <;> rfl
  | float d =>
    cases done
    rfl

end Value

namespace ArithOp

variable {op : ArithOp} {a b w : Value}

theorem light_operand (op : ArithOp) (v other : Value) : Light (op.operand v other) := by
  unfold operand
  split
  · exact light_ok _
  · exact light_error rfl

theorem light_onWords (op : ArithOp) (i j : Int64) : Light (op.onWords i j) := by
  cases op with
  | div => exact light_ite (light_error rfl) (light_ite (light_ok _) (light_ok _))
  | mod => exact light_ite (light_error rfl) (light_ok _)
  | _ => exact light_ok _

theorem light_apply (op : ArithOp) (a b : Value) : Light (op.apply a b) := by
  refine light_ite (light_ite (light_error rfl) (light_ok _)) ?_
  refine light_bind (op.light_operand a b) fun m => light_bind (op.light_operand b a) fun n => ?_
  cases m <;> cases n <;> first | exact op.light_onWords _ _ | exact light_ok _

theorem bare_onWords {i j : Int64} (done : op.onWords i j = .ok w) : Bare [w] := by
  intro x
  have exact_bare : ∀ n : Int, (op.exactOr i j n).owners x = 0 := by
    intro n
    unfold exactOr
    cases Word.ofInt? n <;> rfl
  unfold onWords at done
  cases op <;> simp only at done <;> (repeat' split at done) <;>
    simp only [Except.ok.injEq, reduceCtorEq] at done <;> subst done <;>
      first | exact exact_bare _ | rfl

/-- The result of an arithmetic instruction owns nothing. -/
theorem bare_apply (done : op.apply a b = .ok w) : Bare [w] := by
  unfold apply at done
  split at done
  · unfold join at done
    split at done <;> cases done
    intro x
    rfl
  · unfold onNumbers at done
    obtain ⟨m, -, done⟩ := ok_of_bind done
    obtain ⟨n, -, done⟩ := ok_of_bind done
    cases m <;> cases n
    · exact bare_onWords done
    all_goals
      cases done
      intro x
      rfl

end ArithOp

namespace Key

theorem light_ofValue (v : Value) : Light (ofValue v) := by
  unfold ofValue
  cases v.content with
  | float x =>
    simp only
    split
    · exact light_ok _
    · split
      · exact light_ok _
      · exact light_error rfl
  | str s =>
    simp only
    split
    · exact light_error rfl
    · exact light_ok _
  | null | disposed => exact light_error rfl
  | _ => exact light_ok _

end Key

end ScriptMachine
