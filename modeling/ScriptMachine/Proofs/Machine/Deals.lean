import ScriptMachine.Proofs.Heap.DeepCopy
import ScriptMachine.Proofs.Machine.Transfers

/-!
# Callers who treat values linearly

A caller of heap operations who treats values linearly takes what an operation uses up out of what
it has in hand, and has in hand afterwards what the operation answers. `Heap.Deals` is a run of such
operations. All of them keep the law of ownership, and so do host functions that are such callers.
-/

set_option autoImplicit false

namespace ScriptMachine

variable {H W : Type}

namespace HeapOp

/-- An object that is put on the heap is in working order. -/
def Valid : HeapOp H → Prop
  | alloc o => o.Valid
  | _ => True

def takes : HeapOp H → List Value
  | alloc o => o.held
  | setChild _ _ value | setChildKey _ _ value | append _ value _ => [value]
  | dispose v | release v | openIterator v => [v]
  | _ => []

end HeapOp

namespace Heap

open Effect (Conserves)

theorem alloc_conserves {takes : List Value} {alloc : Heap H → Value × Heap H}
    (owned : ∀ h out, h.Owned [] (takes ++ out) → (alloc h).2.Owned [] ((alloc h).1 :: out)) :
    Conserves (ledger H) takes (some <$> modifyGet alloc : HeapM H (Option Value)) Option.toList :=
  .map fun h out settled => owned h out settled

/-- Every operation gives back as many owners as it uses up. -/
theorem perform_conserves (op : HeapOp H) (valid : op.Valid) :
    Conserves (ledger H) op.takes op.perform Option.toList := by
  cases op with
  | alloc o => exact alloc_conserves fun h out owned => owned.alloc valid
  | allocStructure capacity => exact alloc_conserves (owned_allocStructure capacity)
  | allocQueue limit => exact alloc_conserves (owned_allocQueue limit)
  | allocExternal e =>
    exact alloc_conserves fun h out owned => Owned.alloc (o := .external e) owned trivial
  | setChild target key value => exact .map (setChild_conserves target key value)
  | setChildKey target key value => exact .map (setChildKey_conserves target key value)
  | deleteChild target key => exact .map (deleteChild_conserves target key)
  | append target value front => exact .map (append_conserves target value front)
  | popEnd target front => exact .map (popEnd_conserves target front)
  | endKey target first => exact .map (endKey_conserves target first)
  | dispose v => exact .map (discard_steady v).conserves
  | release v => exact .map (release_conserves v)
  | deepCopy v => exact .map (deepCopy_conserves v)
  | shallowCopy v => exact .map (shallowCopy_conserves v)
  | openIterator v => exact .map (openIterator_conserves v)
  | advanceIterator v => exact .map (advanceIterator_conserves v)

/-- What a caller who treats values linearly makes of a heap and of the values in hand. Values that
own nothing come and go. -/
inductive Deals (Q : CodeUnit → Prop) : Heap H → List Value → Heap H → List Value → Prop
  | done {h : Heap H} {vs ws : List Value} (same : SameOwners vs ws) : Deals Q h vs h ws
  | op {h k : Heap H} {vs ws : List Value} (op : HeapOp H) (rest : List Value) (plain : op.Plain Q)
      (valid : op.Valid) (hand : SameOwners vs (op.takes ++ rest))
      (next : Deals Q (op.perform.outcome h).2
        (Effect.handed Option.toList (op.perform.outcome h).1 ++ rest) k ws) : Deals Q h vs k ws

variable {Q : CodeUnit → Prop} {h k : Heap H} {vs ws out : List Value}

theorem Deals.owned (deals : Deals Q h vs k ws) (owned : h.Owned [] (vs ++ out)) :
    k.Owned [] (ws ++ out) := by
  induction deals with
  | done same => exact owned.recount (same.append (.refl out))
  | @op h k vs ws op rest plain valid hand next ih =>
    refine ih ?_
    rw [List.append_assoc]
    refine Effect.ConservesAt.outcome (perform_conserves op valid h) (fun _ never => never) ?_
    exact owned.recount ((hand.append (.refl out)).trans fun x => by rw [List.append_assoc])

theorem Deals.copies (deals : Deals Q {} [] k ws) : k.Orderly [] ∧ k.Known := by
  have owned : k.Owned [] (ws ++ []) := deals.owned owned_empty
  exact ⟨owned.orderly, owned.known⟩

theorem Deals.after (deals : Deals Q h vs k ws) :
    ∃ ops : List (HeapOp H), (∀ op ∈ ops, op.Plain Q) ∧ k = h.after ops := by
  induction deals with
  | done => exact ⟨[], fun _ mem => (List.not_mem_nil mem).elim, rfl⟩
  | op op rest plain valid hand next ih =>
    obtain ⟨ops, plains, after⟩ := ih
    exact ⟨op :: ops, List.forall_mem_cons.mpr ⟨plain, plains⟩, after⟩

end Heap

/-! ## Host functions -/

/-- A task whose result owns nothing. -/
def HostTask.Bare (t : HostTask) : Prop :=
  SameOwners (Effect.handed (fun values => values) t.result) []

def HostReply.carried : HostReply → List Value
  | .failed e => e.carried
  | _ => []

/-- The values that an invocation holds. -/
def HostCall.held (c : HostCall H) : List Value := c.args ++ [c.this] ++ c.returned

/-- Host functions treat values linearly; `keeps` are the values that stay with the outer world. No
task that they leave owns anything. -/
structure Host.Linear (Q : CodeUnit → Prop) (keeps : W → List Value) (host : Host H W) : Prop where
  call : ∀ function call w, Heap.Deals Q call.heap (call.held ++ keeps w)
    (host.call function call w).2.1.heap
    ((host.call function call w).2.1.held ++ (host.call function call w).1.carried ++
      keeps (host.call function call w).2.2)
  task : ∀ function call w t, (host.call function call w).1 = .task t → t.Bare
  report : ∀ e w, SameOwners (keeps w) (keeps (host.report e w))

theorem Host.Linear.plain {Q : CodeUnit → Prop} {keeps : W → List Value} {host : Host H W}
    (linear : host.Linear Q keeps) : host.Plain Q :=
  fun function call w => (linear.call function call w).after

end ScriptMachine
