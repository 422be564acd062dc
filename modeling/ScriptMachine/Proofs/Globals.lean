import ScriptMachine.Globals
import ScriptMachine.Proofs.Structure.Owners
import ScriptMachine.Proofs.Value.Light

/-!
# Owners in globals

A value that is bound to a path is held there; what it displaces comes out.
-/

set_option autoImplicit false

namespace ScriptMachine

namespace Globals

theorem tally_insert {g : Globals} (ascending : SortedMap.Ascending g.entries.entries)
    (path : String) (binding : Global) (x : Handle) :
    tally x (⟨g.entries.insert path binding⟩ : Globals).values +
        tally x (g.get? path).toList = tally x g.values + binding.value.owners x := by
  have put := tally_put Global.value ascending path binding x
  simpa [values, SortedMap.values, SortedMap.insert, get?, SortedMap.get?, List.map_map,
    Function.comp_def] using put

/-- A value is bound, and what it displaces comes out. -/
def Rebound (g : Globals) (v : Value) (old : Option Value) (g' : Globals) : Prop :=
  SortedMap.Ascending g'.entries.entries ∧ SameOwners (g.values ++ [v]) (g'.values ++ old.toList)

theorem rebound_insert {g : Globals} (ascending : SortedMap.Ascending g.entries.entries)
    (path : String) (v : Value) (overwritable : Bool) :
    g.Rebound v (g.get? path) ⟨g.entries.insert path ⟨bound v, overwritable⟩⟩ := by
  refine ⟨SortedMap.ascending_put ascending _ _, fun x => ?_⟩
  have inserted := tally_insert ascending path ⟨bound v, overwritable⟩ x
  have same : (bound v).owners x = v.owners x := rfl
  simp only [same, tally_append, tally_cons, tally_nil] at inserted ⊢
  omega

theorem rebound_store {g g' : Globals} (ascending : SortedMap.Ascending g.entries.entries)
    {path : String} {v : Value} {old : Option Value} (stored : g.store path v = .ok (old, g')) :
    g.Rebound v old g' := by
  unfold store at stored
  cases found : g.entries.get? path with
  | none =>
    simp only [found, Except.ok.injEq, Prod.mk.injEq] at stored
    obtain ⟨rfl, rfl⟩ := stored
    simpa [get?, found] using rebound_insert ascending path v true
  | some binding =>
    simp only [found] at stored
    split at stored
    · cases stored
    · simp only [Except.ok.injEq, Prod.mk.injEq] at stored
      obtain ⟨rfl, rfl⟩ := stored
      simpa [get?, found] using rebound_insert ascending path v binding.overwritable

theorem light_store (g : Globals) (path : String) (v : Value) : Light (g.store path v) := by
  unfold store
  split
  · exact light_ok _
  · exact light_ite (light_error rfl) (light_ok _)

theorem rebound_define {g g' : Globals} (ascending : SortedMap.Ascending g.entries.entries)
    {path : String} {v : Value} {overwritable : Bool} {old : Option Value}
    (defined : g.define path v overwritable = .ok (old, g')) : g.Rebound v old g' := by
  unfold define at defined
  cases found : g.entries.get? path with
  | none =>
    simp only [found, Except.ok.injEq, Prod.mk.injEq] at defined
    obtain ⟨rfl, rfl⟩ := defined
    simpa [get?, found] using rebound_insert ascending path v overwritable
  | some binding =>
    simp only [found] at defined
    split at defined
    · simp only [Except.ok.injEq, Prod.mk.injEq] at defined
      obtain ⟨rfl, rfl⟩ := defined
      simpa [get?, found] using rebound_insert ascending path v overwritable
    · cases defined

theorem light_define (g : Globals) (path : String) (v : Value) (overwritable : Bool) :
    Light (g.define path v overwritable) := by
  unfold define
  split
  · exact light_ok _
  · exact light_ite (light_ok _) (light_error rfl)

theorem owners_load (g : Globals) (path : String) (x : Handle) : (g.load path).owners x = 0 := by
  unfold load
  cases g.get? path <;> simp

end Globals

end ScriptMachine
