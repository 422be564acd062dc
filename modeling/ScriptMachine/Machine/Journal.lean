import ScriptMachine.Heap.Basic

/-!
# Journal

The machine notes what it does, by topic and severity. Only the fact that something of a topic and a
severity was noted is kept.
-/

set_option autoImplicit false

namespace ScriptMachine

inductive Severity where
  | error | warn | info | debug | trace
deriving DecidableEq, Repr, Inhabited

/-- How much a severity lets through: a higher one includes the lower ones. -/
def Severity.verbosity : Severity → Nat
  | .error => 1
  | .warn => 2
  | .info => 3
  | .debug => 4
  | .trace => 5

def Severity.name : Severity → String
  | .error => "ERROR"
  | .warn => "WARN"
  | .info => "INFO"
  | .debug => "DEBUG"
  | .trace => "TRACE"

/-- The part of the machine that a note is about. -/
inductive Topic where
  | pools | structures | fusion | globals | engine | runner
deriving DecidableEq, Repr, Inhabited

/-- The notes that were made, each once. -/
structure Journal where
  notes : List (Topic × Severity) := []
deriving DecidableEq, Repr, Inhabited

namespace Journal

def note (j : Journal) (topic : Topic) (severity : Severity) : Journal :=
  if j.notes.contains (topic, severity) then j else ⟨(topic, severity) :: j.notes⟩

def noteIf (j : Journal) (condition : Bool) (topic : Topic) (severity : Severity) : Journal :=
  if condition then j.note topic severity else j

end Journal

def PoolStats.used (s : PoolStats) : Bool := s != {}

def Heap.recycles {H : Type} (h : Heap H) : Bool :=
  let p := h.pools
  [p.structures.dense.stats, p.structures.keyed.stats, p.structures.mixed.stats,
    p.structures.ring.stats, p.values.stats, p.frames.stats].any PoolStats.used
  || h.slots.any (fun slot => decide (0 < slot.generation))

def Journal.withHeap {H : Type} (j : Journal) (h : Heap H) : Journal :=
  (j.noteIf h.recycles .pools .trace).noteIf (decide (0 < h.pools.structures.reshapings))
    .structures .debug

end ScriptMachine
