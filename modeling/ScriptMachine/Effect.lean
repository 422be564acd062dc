import ScriptMachine.Value.Error

/-!
# Operations that change a state and may fail

An operation that fails keeps the state it had reached: nothing that was done before the failure is
undone. `Effect.andAlways` adds a change of the state that is made in both cases, which is how
operands are let go after an instruction. `Fueled` operations may also run out of fuel, which is no
failure: nothing is known then but that more fuel is needed.
-/

set_option autoImplicit false

namespace ScriptMachine

abbrev Effect (σ : Type) := EStateM Error σ

namespace Effect

variable {σ τ α : Type}

def ofExcept : Except Error α → Effect σ α
  | .ok a => pure a
  | .error e => throw e

instance : MonadLift (Except Error) (Effect σ) := ⟨ofExcept⟩

/-- Runs an operation, then changes the state whether it failed or not. -/
def andAlways (op : Effect σ α) (change : σ → σ) : Effect σ α := fun s =>
  match op s with
  | .ok a s => .ok a (change s)
  | .error e s => .error e (change s)

/-- Runs an operation; a failure changes the state once more. -/
def onFailure (op : Effect σ α) (change : σ → σ) : Effect σ α := fun s =>
  match op s with
  | .ok a s => .ok a s
  | .error e s => .error e (change s)

def onPart (read : σ → τ) (write : τ → σ → σ) (op : Effect τ α) : Effect σ α := fun s =>
  match op (read s) with
  | .ok a t => .ok a (write t s)
  | .error e t => .error e (write t s)

/-- The result of an operation and the state it reached, failed or not. -/
def outcome (op : Effect σ α) (s : σ) : Except Error α × σ :=
  match op s with
  | .ok a s => (.ok a, s)
  | .error e s => (.error e, s)

/-- A failure of an operation seen from one level further out. -/
def within (context : String) (op : Effect σ α) : Effect σ α := fun s =>
  match op s with
  | .ok a s => .ok a s
  | .error e s => .error (e.within context) s

end Effect

abbrev Fueled (σ : Type) := ExceptT Error (StateT σ Option)

namespace Fueled

variable {σ τ α : Type}

instance : MonadLift (Effect σ) (Fueled σ) := ⟨fun op s => some (op.outcome s)⟩

def starved : Fueled σ α := fun _ => none

def within (context : String) (op : Fueled σ α) : Fueled σ α := fun s =>
  (op s).map fun (result, s) => (result.mapError (·.within context), s)

def onLarger (enter : σ → τ) (exit : τ → σ) (op : Fueled τ α) : Fueled σ α := fun s =>
  (op (enter s)).map fun (result, t) => (result, exit t)

end Fueled

end ScriptMachine
