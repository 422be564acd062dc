import ScriptMachine.Exec.Action
import ScriptMachine.Proofs.Effect

/-!
# How control goes on behind an instruction

`Flow.Asked` lists for each flow the instructions that ask for it and what they put into it. What
a proof has to know of the flow of an instruction, it reads off there.
-/

set_option autoImplicit false

namespace ScriptMachine

def Opcode.sends : Opcode → Bool
  | .call | .callDirect | .callName | .callMethod | .ret | .yield | .deferEnd => true
  | _ => false

theorem Opcode.transfersControl_of_sends {op : Opcode} (sends : op.sends = true) :
    op.transfersControl = true := by
  cases op <;> first | rfl | cases sends

theorem Instruction.scan?_of_sends {ins : Instruction} (sends : ins.op.sends = true) :
    ins.scan? = none := by
  unfold scan?
  cases op : ins.op <;> rw [op] at sends <;> first | rfl | cases sends

def Flow.sends : Flow → Bool
  | .call _ _ | .ret | .yield => true
  | _ => false

namespace Exec

variable {H : Type} {r : Resolved} {flow : Flow}

/-- A flow is one that an instruction may ask for. An instruction that hands control away does not
go on to the next one, unless there is nothing to hand it to. -/
def Flow.Asked (r : Resolved) : Flow → Prop
  | .next => r.ins.op.transfersControl = true → r.ins.op = .iterNext ∨ r.ins.op = .deferEnd
  | .jump target => r.ins.scan?.isSome ∧ target = r.jump
  | .call (.value _) this => (r.ins.op = .call ∧ this = .null) ∨ r.ins.op = .callMethod
  | .call (.unit name) this => r.ins.op = .callDirect ∧ name = r.ins.name ∧ this = .null
  | .call (.path path) this => r.ins.op = .callName ∧ path = r.ins.name ∧ this = .null
  | .ret => r.ins.op = .ret ∨ r.ins.op = .deferEnd
  | .returnLocals mask =>
    (r.ins.op = .returnLocals ∧ mask = r.ins.int.toUInt64) ∨ r.ins.op = .deferEnd
  | .yield => r.ins.op = .yield
  | .finalize => r.ins.op = .finalize
  | .advance _ exhausted => r.ins.op = .iterNext ∧ exhausted = r.jump

theorem single_asks (units : UnitTable) (r : Resolved) :
    (single (H := H) units r).Answers (Flow.Asked r) := by
  have next : r.ins.op.transfersControl = false → ∀ op : Exec H Unit,
      (thenNext op).Answers (Flow.Asked r) := fun stays op =>
    .bind fun _ => .pure fun transfers => absurd (stays.symm.trans transfers) (by decide)
  unfold single
  cases op : r.ins.op <;> simp only [op] <;> try exact next (by rw [op]; rfl) _
  case nop => exact .pure fun transfers => by simp [op, Opcode.transfersControl] at transfers
  case jump | jumpBack => exact .pure ⟨by simp [Instruction.scan?, op, Opcode.scan?], rfl⟩
  case jumpIfFalse | jumpIfTrue =>
    refine .bind fun _ => .bind fun _ => .pure ?_
    split
    · exact ⟨by simp [Instruction.scan?, op, Opcode.scan?], rfl⟩
    · exact fun transfers => by simp [op, Opcode.transfersControl] at transfers
  case call => exact .bind fun _ => .bind fun _ => .bind fun _ => .pure (.inl ⟨op, rfl⟩)
  case callDirect | callName => exact .bind fun _ => .bind fun _ => .pure ⟨op, rfl, rfl⟩
  case callMethod =>
    refine .bind fun _ => .bind fun _ => .bind fun c => ?_
    split
    · exact .bind fun _ => .throw _
    · split
      · exact .bind fun _ => .throw _
      · exact .bind fun _ => .pure (.inr op)
  case ret => exact .bind fun _ => .bind fun _ => .pure (.inl op)
  case yield => exact .bind fun _ => .bind fun _ => .pure op
  case returnLocals => exact .pure (.inl ⟨op, rfl⟩)
  case finalize => exact .pure op
  case throw => exact .bind fun _ => .throw _
  case fatal => exact .throw _
  case deferCheck =>
    refine .bind fun c => .bind fun _ => .pure ?_
    split
    · exact fun transfers => by simp [op, Opcode.transfersControl] at transfers
    · exact ⟨by simp [Instruction.scan?, op], rfl⟩
  case deferEnd =>
    refine .bind fun c => ?_
    split
    · exact .bind fun _ => .throw _
    · exact .bind fun _ => .bind fun _ => .pure (.inr op)
    · exact .bind fun _ => .pure (.inr op)
    · exact .pure fun _ => .inr op
  case iterNext =>
    refine .bind fun _ => .bind fun advanced => ?_
    cases advanced with
    | entry => exact .pure fun _ => .inl op
    | ended => exact .pure ⟨by simp [Instruction.scan?, op, Opcode.scan?], rfl⟩
    | generator handle => exact .pure ⟨op, rfl⟩

def Flow.Fits (r : Resolved) : Flow → Prop
  | .next => True
  | .jump target => r.ins.scan?.isSome ∧ target = r.jump
  | .advance _ exhausted =>
    r.ins.op.transfersControl = true ∧ r.ins.scan?.isSome ∧ exhausted = r.jump
  | _ => r.ins.op.transfersControl = true

theorem Flow.Asked.fits (asked : Flow.Asked r flow) : Flow.Fits r flow := by
  cases flow with
  | next => trivial
  | jump => exact asked
  | call target =>
    cases target with
    | value => rcases asked with ⟨op, -⟩ | op <;> simp [Fits, op, Opcode.transfersControl]
    | unit | path => simp [Fits, asked.1, Opcode.transfersControl]
  | ret => rcases asked with op | op <;> simp [Fits, op, Opcode.transfersControl]
  | returnLocals => rcases asked with ⟨op, -⟩ | op <;> simp [Fits, op, Opcode.transfersControl]
  | yield | finalize =>
    have op : r.ins.op = _ := asked
    simp [Fits, op, Opcode.transfersControl]
  | advance =>
    obtain ⟨op, target⟩ := asked
    exact ⟨by rw [op]; rfl, by simp [Instruction.scan?, op, Opcode.scan?], target⟩

theorem single_fits (units : UnitTable) (r : Resolved) :
    (single (H := H) units r).Answers (Flow.Fits r) := fun c =>
  (single_asks units r c).mono (fun _ _ asked => asked.fits) fun _ _ _ => trivial

/-- An instruction that sends something, and is not the end of the deferred blocks, has control go
on with it. -/
theorem Flow.Asked.sends (asked : Flow.Asked r flow) (sends : r.ins.op.sends = true)
    (apart : r.ins.op ≠ .deferEnd) : flow.sends = true := by
  cases flow with
  | call | ret | yield => rfl
  | next =>
    rcases asked (Opcode.transfersControl_of_sends sends) with op | op
    · simp [op, Opcode.sends] at sends
    · exact absurd op apart
  | jump => simp [Asked, Instruction.scan?_of_sends sends] at asked
  | returnLocals =>
    rcases asked with ⟨op, -⟩ | op
    · simp [op, Opcode.sends] at sends
    · exact absurd op apart
  | finalize =>
    have op : r.ins.op = _ := asked
    simp [op, Opcode.sends] at sends
  | advance => simp [asked.1, Opcode.sends] at sends

end Exec

end ScriptMachine
