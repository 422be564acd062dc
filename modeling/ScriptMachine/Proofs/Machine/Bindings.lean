import ScriptMachine.Exec.Instruction
import ScriptMachine.Machine.Basic
import ScriptMachine.Proofs.Effect
import ScriptMachine.Proofs.Globals
import ScriptMachine.Proofs.Order.SortedMap

/-!
# Stores to read-only paths

Whether a store is refused is decided by the value that the path is bound to, and by nothing else:
the mark of a read-only value goes with the value wherever it is stored. A path can thus become
read-only by a store. As long as no read-only value is stored to a path, the definitions of the path
decide.
-/

set_option autoImplicit false

namespace ScriptMachine

/-- A change that is asked of the globals. -/
inductive Rebinding where
  | define (path : String) (value : Value) (overwritable : Bool)
  | store (path : String) (value : Value)
deriving Repr

namespace Rebinding

def path : Rebinding → String
  | define path _ _ => path
  | store path _ => path

def value : Rebinding → Value
  | define _ value _ => value
  | store _ value => value

/-- What the globals make of a change: the value that is displaced, and the new bindings. -/
def apply (g : Globals) : Rebinding → Except Error (Option Value × Globals)
  | define path v overwritable => g.define path v overwritable
  | store path v => g.store path v

def op {H W : Type} : Rebinding → MachineM H W Unit
  | define path v overwritable => Machine.define path v overwritable
  | store path v => Machine.store path v

/-- Changes with their answers, the latest first. -/
abbrev Log := List (Rebinding × Except Error Unit)

def boundTo (path : String) : Rebinding × Except Error Unit → Option Value
  | (change, .ok ()) => if change.path = path then some change.value else none
  | (_, .error _) => none

def definedAs (path : String) : Rebinding × Except Error Unit → Option Value
  | (define path' v _, .ok ()) => if path' = path then some v else none
  | _ => none

namespace Log

def lastBound (path : String) (log : Log) : Option Value := log.findSome? (boundTo path)

def lastDefined (path : String) (log : Log) : Option Value := log.findSome? (definedAs path)

def StoresPlain (path : String) (log : Log) : Prop :=
  ∀ v, (store path v, .ok ()) ∈ log → v.flags.readonly = false

end Log

end Rebinding

namespace Globals

open Rebinding (Log)

def isReadonly (v : Option Value) : Bool := v.any (·.flags.readonly)

@[simp] theorem readonly_bound (v : Value) : (bound v).flags.readonly = v.flags.readonly := by
  simp [bound, Value.withFlags, Flags.union]

/-- The value at a path carries the mark. -/
def refuses (g : Globals) (path : String) : Bool := isReadonly (g.get? path)

/-- Bindings made by logged changes, from none at all. -/
inductive Recorded : Globals → Log → Prop where
  | empty : Recorded {} []
  | accepted {g g' : Globals} {log : Log} {change : Rebinding} {old : Option Value}
      (before : Recorded g log) (answer : change.apply g = .ok (old, g')) :
      Recorded g' ((change, .ok ()) :: log)
  | refused {g : Globals} {log : Log} {change : Rebinding} {e : Error}
      (before : Recorded g log) (answer : change.apply g = .error e) :
      Recorded g ((change, .error e) :: log)

/-! ## One change -/

theorem store_eq (g : Globals) (path : String) (v : Value) : ∃ overwritable, g.store path v =
    if g.refuses path then .error (.ofFault (.readonly path))
    else .ok (g.get? path, ⟨g.entries.insert path ⟨bound v, overwritable⟩⟩) := by
  unfold store refuses get? isReadonly
  cases g.entries.get? path with
  | none => exact ⟨true, by simp⟩
  | some binding => exact ⟨binding.overwritable, by simp⟩

theorem apply_ok {g g' : Globals} {change : Rebinding} {old : Option Value}
    (answer : change.apply g = .ok (old, g')) :
    ∃ overwritable, g' = ⟨g.entries.insert change.path ⟨bound change.value, overwritable⟩⟩ := by
  cases change with
  | define path v overwritable =>
    simp only [Rebinding.apply, define] at answer
    refine ⟨overwritable, ?_⟩
    split at answer
    · cases answer
      rfl
    · split at answer
      · cases answer
        rfl
      · cases answer
  | store path v =>
    obtain ⟨overwritable, eq⟩ := g.store_eq path v
    rw [Rebinding.apply, eq] at answer
    split at answer
    · cases answer
    · cases answer
      exact ⟨overwritable, rfl⟩

theorem ascending_apply {g g' : Globals} {change : Rebinding} {old : Option Value}
    (ascending : SortedMap.Ascending g.entries.entries)
    (answer : change.apply g = .ok (old, g')) : SortedMap.Ascending g'.entries.entries := by
  obtain ⟨overwritable, rfl⟩ := apply_ok answer
  exact SortedMap.ascending_put ascending _ _

theorem get?_apply {g g' : Globals} {change : Rebinding} {old : Option Value}
    (ascending : SortedMap.Ascending g.entries.entries)
    (answer : change.apply g = .ok (old, g')) (path : String) :
    g'.get? path = if change.path = path then some (bound change.value) else g.get? path := by
  obtain ⟨overwritable, rfl⟩ := apply_ok answer
  simp only [get?, SortedMap.get?, SortedMap.insert, SortedMap.lookup_put ascending,
    eq_comm (a := change.path)]
  split <;> rfl

theorem refuses_apply {g g' : Globals} {change : Rebinding} {old : Option Value}
    (ascending : SortedMap.Ascending g.entries.entries)
    (answer : change.apply g = .ok (old, g')) (path : String) :
    g'.refuses path =
      if change.path = path then change.value.flags.readonly else g.refuses path := by
  rw [refuses, get?_apply ascending answer]
  split
  · simp [isReadonly]
  · rfl

/-! ## A log of changes -/

theorem Recorded.ascending {g : Globals} {log : Log} (recorded : g.Recorded log) :
    SortedMap.Ascending g.entries.entries := by
  induction recorded with
  | empty => exact SortedMap.ascending_nil
  | accepted _ answer ih => exact ascending_apply ih answer
  | refused _ _ ih => exact ih

theorem Recorded.get?_eq {g : Globals} {log : Log} (recorded : g.Recorded log) (path : String) :
    g.get? path = (log.lastBound path).map bound := by
  induction recorded with
  | empty => rfl
  | @accepted g g' log change old before answer ih =>
    rw [get?_apply before.ascending answer, ih]
    simp only [Log.lastBound, List.findSome?_cons, Rebinding.boundTo]
    by_cases same : change.path = path <;> simp [same]
  | refused _ _ ih => exact ih

theorem Recorded.refuses_eq {g : Globals} {log : Log} (recorded : g.Recorded log)
    (path : String) : g.refuses path = isReadonly (log.lastBound path) := by
  rw [refuses, recorded.get?_eq, isReadonly, isReadonly, Option.any_map]
  simp

/-- Where nothing read-only is stored, the mark of a path is that of its last definition: while that
one is read-only no store is accepted, and while it is not none brings the mark. -/
theorem Recorded.isReadonly_lastBound {g : Globals} {log : Log} (recorded : g.Recorded log)
    {path : String} (plain : log.StoresPlain path) :
    isReadonly (log.lastBound path) = isReadonly (log.lastDefined path) := by
  induction recorded with
  | empty => rfl
  | @accepted g g' log change old before answer ih =>
    have ih := ih fun v mem => plain v (List.mem_cons_of_mem _ mem)
    simp only [Log.lastBound, Log.lastDefined, List.findSome?_cons] at ih ⊢
    cases change with
    | define path' v overwritable =>
      by_cases same : path' = path
      · simp [Rebinding.boundTo, Rebinding.definedAs, Rebinding.path, Rebinding.value, same]
      · simpa [Rebinding.boundTo, Rebinding.definedAs, Rebinding.path, same] using ih
    | store path' v =>
      by_cases same : path' = path
      · subst same
        have unmarked : isReadonly (log.lastBound path') = false := by
          obtain ⟨_, eq⟩ := g.store_eq path' v
          rw [Rebinding.apply, eq, before.refuses_eq] at answer
          cases marked : isReadonly (log.lastBound path') with
          | false => rfl
          | true => simp [marked] at answer
        have stored : v.flags.readonly = false := plain v (List.mem_cons_self ..)
        rw [Log.lastBound, ih] at unmarked
        have bound : Rebinding.boundTo path' (.store path' v, .ok ()) = some v := if_pos rfl
        have undefined : Rebinding.definedAs path' (.store path' v, .ok ()) = none := rfl
        rw [bound, undefined, unmarked]
        simp [isReadonly, stored]
      · have unbound : Rebinding.boundTo path (.store path' v, .ok ()) = none := if_neg same
        have undefined : Rebinding.definedAs path (.store path' v, .ok ()) = none := rfl
        rw [unbound, undefined]
        exact ih
  | @refused g log change e before answer ih =>
    have ih := ih fun v mem => plain v (List.mem_cons_of_mem _ mem)
    cases change <;> exact ih

end Globals

namespace Machine

open Rebinding (Log)

variable {H W : Type}

/-- A machine makes the change that its globals answer. What is refused is disposed, and nothing
else happens then. -/
theorem ensures_op (m : Machine H W) (change : Rebinding) : change.op.Ensures m
    (fun _ m' => ∃ old, change.apply m.globals = .ok (old, m'.globals))
    (fun e m' => change.apply m.globals = .error e ∧ m' = m.dispose [change.value]) := by
  cases change with
  | define path v overwritable =>
    simp only [Rebinding.op, define, Rebinding.apply, Effect.ensures_bind, Effect.ensures_get]
    cases answer : m.globals.define path v overwritable with
    | ok result => exact ⟨result.1, rfl⟩
    | error e => exact ⟨rfl, rfl⟩
  | store path v =>
    simp only [Rebinding.op, store, Rebinding.apply, Effect.ensures_bind, Effect.ensures_get]
    cases answer : m.globals.store path v with
    | ok result => exact ⟨result.1, rfl⟩
    | error e => exact ⟨rfl, rfl⟩

/-- An instruction that stores a global makes the same change with the value that it pops. -/
theorem ensures_storeGlobal {c : Context H} {v : Value} {frame : Frame}
    (popped : c.frame.pop = .ok (v, frame)) (path : String) : (Exec.storeGlobal path).Ensures c
      (fun _ c' => ∃ old, (Rebinding.store path v).apply c.globals = .ok (old, c'.globals))
      (fun e c' => (Rebinding.store path v).apply c.globals = .error e ∧
        c' = Exec.letGo [v] { c with frame }) := by
  simp only [Exec.storeGlobal, Exec.pop, Exec.onFrame, Rebinding.apply, Effect.ensures_bind,
    Effect.ensures_get, Effect.ensures_liftM, popped, Effect.ensures_set, Effect.ensures_pure]
  cases answer : c.globals.store path v with
  | ok result => exact ⟨result.1, rfl⟩
  | error e => exact ⟨rfl, rfl⟩

theorem ensures_store (m : Machine H W) (path : String) (v : Value) :
    (store path v : MachineM H W Unit).Ensures m
      (fun _ _ => m.globals.refuses path = false)
      (fun e _ => m.globals.refuses path = true ∧ e = .ofFault (.readonly path)) := by
  obtain ⟨_, eq⟩ := m.globals.store_eq path v
  refine (m.ensures_op (.store path v)).mono (fun _ m' => ?_) fun e m' => ?_
  · rintro ⟨old, answer⟩
    rw [Rebinding.apply, eq] at answer
    split at answer
    · cases answer
    · rename_i accepts
      simpa using accepts
  · rintro ⟨answer, -⟩
    rw [Rebinding.apply, eq] at answer
    split at answer
    · rename_i refuses
      cases answer
      exact ⟨refuses, rfl⟩
    · cases answer

/-- A store is refused exactly if what was last bound to its path is read-only, which its last
definition decides as long as nothing read-only is stored there. What is accepted gives its path the
mark of its value and leaves other paths as they are; what is refused leaves all bindings as they
are, and only its value is disposed. -/
theorem readonly_follows_values {m : Machine H W} {log : Log} (recorded : m.globals.Recorded log) :
    (∀ path v, (store path v : MachineM H W Unit).Ensures m
      (fun _ _ => Globals.isReadonly (log.lastBound path) = false)
      (fun e _ => Globals.isReadonly (log.lastBound path) = true ∧ e = .ofFault (.readonly path))) ∧
    (∀ path v, log.StoresPlain path → (store path v : MachineM H W Unit).Ensures m
      (fun _ _ => Globals.isReadonly (log.lastDefined path) = false)
      (fun e _ => Globals.isReadonly (log.lastDefined path) = true ∧
        e = .ofFault (.readonly path))) ∧
    ∀ change : Rebinding, change.op.Ensures m
      (fun _ m' => ∀ path, m'.globals.refuses path =
        if change.path = path then change.value.flags.readonly else m.globals.refuses path)
      (fun _ m' => m' = m.dispose [change.value] ∧ m'.globals = m.globals) := by
  refine ⟨fun path v => ?_, fun path v plain => ?_, fun change => ?_⟩
  · rw [← recorded.refuses_eq]
    exact m.ensures_store path v
  · rw [← recorded.isReadonly_lastBound plain, ← recorded.refuses_eq]
    exact m.ensures_store path v
  · refine (m.ensures_op change).mono (fun _ m' => ?_) fun e m' => ?_
    · rintro ⟨old, answer⟩ path
      exact Globals.refuses_apply recorded.ascending answer path
    · rintro ⟨-, rfl⟩
      exact ⟨rfl, rfl⟩

/-! ## A shade that is stored -/

def shade : Value := { content := .enum 0, flags := { readonly := true } }

/-- The shade is defined at one path, and a share of it stored at another. -/
def shades : Log :=
  [(.store "state" shade.share, .ok ()), (.define "color.red" shade false, .ok ())]

def shaded : Machine Unit Unit where
  globals := ⟨⟨[("color.red", ⟨Globals.bound shade, false⟩),
    ("state", ⟨Globals.bound shade.share, true⟩)]⟩⟩
  world := ()

theorem recorded_shades : shaded.globals.Recorded shades :=
  .accepted (.accepted .empty rfl) rfl

theorem readonly_follows_values_shades :
    shaded.globals.Recorded shades ∧ shades.StoresPlain "color.red" ∧
      ((store "color.red" .null).outcome shaded).1 = .error (.ofFault (.readonly "color.red")) := by
  have plain : shades.StoresPlain "color.red" := by
    intro v mem
    simp [shades] at mem
  have stores := (readonly_follows_values recorded_shades).2.1 "color.red" .null plain
  refine ⟨recorded_shades, plain, ?_⟩
  unfold Effect.outcome
  cases run : (store "color.red" .null : MachineM Unit Unit Unit) shaded with
  | ok a m => exact absurd ((Effect.ensures_of_eq_ok run).mp stores) (by decide)
  | error e m => rw [((Effect.ensures_of_eq_error run).mp stores).2]

/-- The path where the share is was never defined, and yet stores to it are refused. -/
theorem shade_sticks :
    shaded.globals.Recorded shades ∧ shades.lastDefined "state" = none ∧
      ((store "state" .null).outcome shaded).1 = .error (.ofFault (.readonly "state")) :=
  ⟨recorded_shades, by decide, rfl⟩

end Machine

end ScriptMachine
