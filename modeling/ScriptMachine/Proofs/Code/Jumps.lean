import ScriptMachine.Code.Assembly
import ScriptMachine.Proofs.Code.Steps

/-!
# Where the jumps of a script land

A combinator of the builder writes its own jumps and boundaries at the depth where it is called, and
its bodies one level deeper. Whatever a body writes stays at that level or below it, so no
instruction of a body is a boundary for a jump of the combinator: each jump stops at the boundary
that its own combinator wrote for it.

`Assembly.leapsAll` lists the jumps of the combinators in a script with their boundaries, by
counting instructions only. `Leap.Lands` says that a scan meets the boundary first.
-/

set_option autoImplicit false

namespace ScriptMachine

structure Leap where
  source : Nat
  op : Opcode
  boundary : Nat
  mark : Opcode
  /-- What the jump goes on with, where the combinator itself writes that. -/
  next : Option Opcode := none
deriving DecidableEq, Repr

namespace Assembly

mutual

/-- Number of instructions that a call writes. -/
def size : Assembly → Nat
  | .line _ => 0
  | .nest body => sizeAll body
  | .whileLoop cond body => sizeAll cond + sizeAll body + 4
  | .ifElse yes no => sizeAll yes + sizeAll no + 3
  | .trap body handler => sizeAll body + sizeAll handler + 4
  | .deferred _ body => sizeAll body + 2
  | .forEach _ body => sizeAll body + 7
  | _ => 1

def sizeAll : List Assembly → Nat
  | [] => 0
  | call :: rest => call.size + sizeAll rest

end

mutual

/-- Levels that a call goes down to below the depth it starts at. -/
def levels : Assembly → Nat
  | .nest body | .deferred _ body | .forEach _ body => levelsAll body + 1
  | .whileLoop first second | .ifElse first second | .trap first second =>
    max (levelsAll first) (levelsAll second) + 1
  | _ => 0

def levelsAll : List Assembly → Nat
  | [] => 0
  | call :: rest => max call.levels (levelsAll rest)

end

mutual

def leaps (start : Nat) : Assembly → List Leap
  | .nest body => leapsAll start body
  | .whileLoop cond body =>
    let test := start + 1 + sizeAll cond
    let back := test + 1 + sizeAll body
    ⟨test, .jumpIfFalse, back + 1, .nop, none⟩ :: ⟨back, .jumpBack, start, .nop, none⟩ ::
      (leapsAll (start + 1) cond ++ leapsAll (test + 1) body)
  | .ifElse yes no =>
    let skip := start + 1 + sizeAll yes
    ⟨start, .jumpIfFalse, skip, .jump, none⟩ ::
      ⟨skip, .jump, skip + 1 + sizeAll no, .nop, none⟩ ::
      (leapsAll (start + 1) yes ++ leapsAll (skip + 1) no)
  | .trap body handler =>
    let skip := start + 1 + sizeAll body + 1
    ⟨start, .trapSet, skip, .jump, none⟩ ::
      ⟨skip, .jump, skip + 1 + sizeAll handler, .nop, none⟩ ::
      (leapsAll (start + 1) body ++ leapsAll (skip + 1) handler)
  | .deferred _ body =>
    ⟨start, .deferCheck, start + 1 + sizeAll body, .nop, none⟩ :: leapsAll (start + 1) body
  | .forEach _ body =>
    let advance := start + 4
    let back := advance + 1 + sizeAll body
    ⟨advance, .iterNext, back + 1, .nop, none⟩ ::
      ⟨back, .jumpBack, start + 2, .nop, some .loadLocal⟩ :: leapsAll (advance + 1) body
  | _ => []

def leapsAll (start : Nat) : List Assembly → List Leap
  | [] => []
  | call :: rest => call.leaps start ++ leapsAll (start + call.size) rest

end

end Assembly

/-! ## What a call writes -/

def Lengthens (level size : Nat) (code code' : List Instruction) : Prop :=
  ∃ written, code' = code ++ written ∧ written.length = size ∧ ∀ ins ∈ written, level ≤ ins.depth

namespace Builder

/-- The builder as it is handed to a nested block. -/
def inner (b : Builder) : Builder := { b with depth := b.depth + 1 }

def placed (b : Builder) (ins : Instruction) : Instruction :=
  { ins with depth := b.depth, line := b.line }

structure Extended (b : Builder) (size : Nat) (b' : Builder) : Prop where
  depth : b'.depth = b.depth
  grows : Lengthens b.depth size b.code b'.code

namespace Extended

variable {b b' b'' : Builder} {m n : Nat}

theorem refl (b : Builder) : b.Extended 0 b :=
  ⟨rfl, [], by simp, rfl, by simp⟩

theorem trans (one : b.Extended m b') (two : b'.Extended n b'') : b.Extended (m + n) b'' := by
  obtain ⟨written, code, length, deep⟩ := one.grows
  obtain ⟨written', code', length', deep'⟩ := two.grows
  refine ⟨two.depth.trans one.depth, written ++ written', ?_, by simp [length, length'], ?_⟩
  · rw [code', code, List.append_assoc]
  · intro ins mem
    rcases List.mem_append.mp mem with mem | mem
    · exact deep ins mem
    · exact one.depth ▸ deep' ins mem

theorem push (b : Builder) (ins : Instruction) : b.Extended 1 (b.push ins) := by
  refine ⟨rfl, [b.placed ins], rfl, rfl, ?_⟩
  intro written mem
  cases List.mem_singleton.mp mem
  exact Nat.le_refl b.depth

theorem nest {body : Builder → Builder} (inside : b.inner.Extended n (body b.inner)) :
    b.Extended n (b.nest body) := by
  obtain ⟨written, code, length, deep⟩ := inside.grows
  refine ⟨?_, written, code, length, fun ins mem => Nat.le_of_succ_le (deep ins mem)⟩
  show (body b.inner).depth - 1 = b.depth
  rw [inside.depth]
  rfl

theorem resize (extended : b.Extended m b') (same : m = n) : b.Extended n b' := same ▸ extended

theorem length (extended : b.Extended n b') : b'.code.length = b.code.length + n := by
  obtain ⟨written, code, length, -⟩ := extended.grows
  rw [code, List.length_append, length]

theorem prefix_code (extended : b.Extended n b') : b.code <+: b'.code := by
  obtain ⟨written, code, -⟩ := extended.grows
  exact ⟨written, code.symm⟩

theorem below {d : Nat} (extended : b.Extended n b') (depth : b.depth = d + 1) :
    Lengthens (d + 1) n b.code b'.code := depth ▸ extended.grows

end Extended

variable {first second : Builder → Builder} {m n : Nat}

def branch (b : Builder) (op : Opcode) (first second : Builder → Builder) : Builder :=
  ((((b.int op b.level).nest first).int .jump b.level).nest second).op .nop

/-- A loop between two boundaries, with a jump out and a jump back: the shape of `whileLoop`, and
of `forEach` once the iterator is stored. -/
def loop (b : Builder) (out : Opcode) (first second : Builder → Builder) : Builder :=
  ((b.op .nop).nest fun b' => (second ((first b').int out b.level)).int .jumpBack b.level).op .nop

def guarded (body : Builder → Builder) (b : Builder) : Builder := (body b).op .trapClear

theorem guarded_extended (body : ∀ b : Builder, b.Extended m (first b)) (b : Builder) :
    b.Extended (m + 1) (guarded first b) :=
  (body b).trans (.push _ _)

theorem branch_extended (b : Builder) (op : Opcode) (yes : ∀ b : Builder, b.Extended m (first b))
    (no : ∀ b : Builder, b.Extended n (second b)) :
    b.Extended (m + n + 3) (b.branch op first second) :=
  (((((Extended.push b _).trans (.nest (yes _))).trans (.push _ _)).trans (.nest (no _))).trans
    (.push _ _)).resize (by omega)

theorem loop_extended (b : Builder) (out : Opcode) (cond : ∀ b : Builder, b.Extended m (first b))
    (body : ∀ b : Builder, b.Extended n (second b)) :
    b.Extended (m + n + 4) (b.loop out first second) :=
  (((Extended.push b _).trans <| .nest <|
    (((cond _).trans (.push _ _)).trans (body _)).trans (.push _ _)).trans (.push _ _)).resize
      (by omega)

theorem deferred_extended (b : Builder) (k : Int64) (body : ∀ b : Builder, b.Extended m (first b)) :
    b.Extended (m + 2) (b.deferred k first) :=
  (((Extended.push b _).trans (.nest (body _))).trans (.push _ _)).resize (by omega)

theorem forEach_extended (b : Builder) (slot : Int64)
    (body : ∀ b : Builder, b.Extended m (first b)) :
    b.Extended (m + 7) (b.forEach slot first) :=
  ((Extended.push b _).trans (.push _ _)).trans
    (loop_extended _ .iterNext (fun b => .push b _) body) |>.resize (by omega)

end Builder

namespace Assembly

mutual

theorem run_extended : ∀ (call : Assembly) (b : Builder), b.Extended call.size (call.run b)
  | .line _, _ => ⟨rfl, [], by simp [run, Builder.atLine], rfl, by simp⟩
  | .op _, b | .int _ _, b | .float _ _, b | .str _ _, b | .strInt _ _ _, b | .pushInt _, b
  | .pushStr _, b | .load _, b | .store _, b => .push b _
  | .nest body, _ => .nest (runAll_extended body _)
  | .whileLoop cond body, b => b.loop_extended _ (runAll_extended cond) (runAll_extended body)
  | .ifElse yes no, b => b.branch_extended _ (runAll_extended yes) (runAll_extended no)
  | .trap body handler, b =>
    (b.branch_extended _ (Builder.guarded_extended (runAll_extended body))
      (runAll_extended handler)).resize (by simp only [size]; omega)
  | .deferred k body, b => b.deferred_extended k (runAll_extended body)
  | .forEach slot body, b => b.forEach_extended slot (runAll_extended body)

theorem runAll_extended : ∀ (script : List Assembly) (b : Builder),
    b.Extended (sizeAll script) (runAll script b)
  | [], b => .refl b
  | call :: rest, b => (run_extended call b).trans (runAll_extended rest _)

end

end Assembly

/-! ## Boundaries in sight -/

inductive Leap.Lands (code : List Instruction) (leap : Leap) : Prop
  | forward (before between after : List Instruction) (jump mark : Instruction) (p : Int)
      (layout : code = before ++ jump :: (between ++ mark :: after))
      (source : leap.source = before.length)
      (boundary : leap.boundary = before.length + 1 + between.length)
      (op : jump.op = leap.op) (marked : mark.op = leap.mark) (next : leap.next = none)
      (scans : jump.scan? = some (.forward, p)) (bounds : mark.depth ≤ p)
      (clear : ∀ ins ∈ between, p < ins.depth)
  | backward (before between after : List Instruction) (mark jump : Instruction) (p : Int)
      (layout : code = before ++ mark :: (between ++ jump :: after))
      (source : leap.source = before.length + 1 + between.length)
      (boundary : leap.boundary = before.length)
      (op : jump.op = leap.op) (marked : mark.op = leap.mark)
      (next : ∀ op, leap.next = some op → between.head?.map (·.op) = some op)
      (scans : jump.scan? = some (.backward, p)) (bounds : mark.depth ≤ p)
      (clear : ∀ ins ∈ between, p < ins.depth)

namespace Target

theorem bounds_iff {p : Int} {ins : Instruction} : ins.bounds p = true ↔ (ins.depth : Int) ≤ p := by
  simp [Instruction.bounds]

theorem findIdx?_bounds {between after : List Instruction} {mark : Instruction} {p : Int}
    (bounds : mark.depth ≤ p) (clear : ∀ ins ∈ between, p < ins.depth) :
    (between ++ mark :: after).findIdx? (Instruction.bounds p) = some between.length := by
  have none : between.findIdx? (Instruction.bounds p) = none := by
    rw [List.findIdx?_eq_none_iff]
    intro ins mem
    have := clear ins mem
    simp only [Instruction.bounds, decide_eq_false_iff_not]
    omega
  simp [List.findIdx?_append, none, List.findIdx?_cons, bounds_iff.mpr bounds]

/-- A forward scan stops at the first instruction at the depth of the jump or above it. -/
theorem forward_eq {before between after : List Instruction} {jump mark : Instruction} {p : Int}
    (bounds : mark.depth ≤ p) (clear : ∀ ins ∈ between, p < ins.depth) :
    forward (before ++ jump :: (between ++ mark :: after)) before.length p
      = before.length + 1 + between.length + 1 := by
  have ahead : (before ++ jump :: (between ++ mark :: after)).drop (before.length + 1)
      = between ++ mark :: after := by
    simp [← List.drop_drop]
  simp only [forward, ahead, findIdx?_bounds bounds clear]

/-- A backward scan stops at the last instruction at the depth of the jump or above it. -/
theorem backward?_eq {before between after : List Instruction} {mark jump : Instruction} {p : Int}
    (bounds : mark.depth ≤ p) (clear : ∀ ins ∈ between, p < ins.depth) :
    backward? (before ++ mark :: (between ++ jump :: after)) (before.length + 1 + between.length) p
      = some (before.length + 1) := by
  have behind : ((before ++ mark :: (between ++ jump :: after)).take
      (before.length + 1 + between.length)).reverse
      = between.reverse ++ mark :: before.reverse := by
    have : before ++ mark :: (between ++ jump :: after)
        = (before ++ mark :: between) ++ jump :: after := by simp
    rw [this, List.take_left' (by simp; omega)]
    simp
  have clear' : ∀ ins ∈ between.reverse, p < ins.depth := by simpa using clear
  simp only [backward?, behind, findIdx?_bounds bounds clear', List.length_reverse, Option.map_some]
  congr 1
  omega

theorem exists_of_mapM {α β ε : Type} {f : α → Except ε β} {error : ε} :
    ∀ {xs : List α}, xs.mapM f = .error error → ∃ x ∈ xs, f x = .error error := by
  intro xs
  induction xs with
  | nil => intro failed; cases failed
  | cons x xs ih =>
    intro failed
    rw [List.mapM_cons] at failed
    obtain head | ⟨y, -, failed⟩ := error_of_bind failed
    · exact ⟨x, List.mem_cons_self, head⟩
    · obtain tail | ⟨ys, -, ended⟩ := error_of_bind failed
      · obtain ⟨x', mem, fails⟩ := ih tail
        exact ⟨x', List.mem_cons_of_mem x mem, fails⟩
      · cases ended

theorem exists_of_resolveAll {name : String} {code : List Instruction} {error : Error}
    (refused : resolveAll name code = .error error) :
    ∃ position ins, code[position]? = some ins ∧ resolve name code position ins = .error error := by
  obtain ⟨⟨ins, position⟩, mem, fails⟩ := exists_of_mapM refused
  exact ⟨position, ins, List.mk_mem_zipIdx_iff_getElem?.mp mem, fails⟩

end Target

namespace Leap

/-- The jump stands where it is said to, and is resolved to the position just past its boundary. -/
structure Reaches (name : String) (code : List Instruction) (leap : Leap) : Prop where
  resolves : ∃ ins, code[leap.source]? = some ins ∧ ins.op = leap.op ∧
    Target.resolve name code leap.source ins = .ok (some (leap.boundary + 1))
  bounded : ∃ ins, code[leap.boundary]? = some ins ∧ ins.op = leap.mark
  goesOn : ∀ op, leap.next = some op → ∃ ins, code[leap.boundary + 1]? = some ins ∧ ins.op = op

theorem Lands.reaches {code : List Instruction} {leap : Leap} (lands : leap.Lands code)
    (name : String) : leap.Reaches name code := by
  cases lands with
  | forward before between after jump mark p layout source boundary op marked next scans bounds
      clear =>
    subst layout
    refine ⟨⟨jump, by simp [source], op, ?_⟩, ⟨mark, ?_, marked⟩, by simp [next]⟩
    · simp only [Target.resolve, scans, source, boundary, Target.forward_eq bounds clear]
    · rw [boundary, Nat.add_assoc, Nat.add_comm 1, List.getElem?_append_right (by omega)]
      simp
  | backward before between after mark jump p layout source boundary op marked next scans bounds
      clear =>
    subst layout
    refine ⟨⟨jump, ?_, op, ?_⟩, ⟨mark, by simp [boundary], marked⟩, fun op goesOn => ?_⟩
    · rw [source, Nat.add_assoc, Nat.add_comm 1, List.getElem?_append_right (by omega)]
      simp
    · simp only [Target.resolve, scans, source, boundary, Target.backward?_eq bounds clear]
    · obtain ⟨ins, first, same⟩ := Option.map_eq_some_iff.mp (next op goesOn)
      obtain ⟨others, rfl⟩ := List.head?_eq_some_iff.mp first
      exact ⟨ins, by simp [boundary], same⟩

theorem Lands.extend {code code' : List Instruction} {leap : Leap} (lands : leap.Lands code)
    (grown : code <+: code') : leap.Lands code' := by
  obtain ⟨more, rfl⟩ := grown
  cases lands with
  | forward before between after jump mark p layout source boundary op marked next scans bounds
      clear =>
    exact .forward before between (after ++ more) jump mark p (by simp [layout]) source boundary op
      marked next scans bounds clear
  | backward before between after mark jump p layout source boundary op marked next scans bounds
      clear =>
    exact .backward before between (after ++ more) mark jump p (by simp [layout]) source boundary op
      marked next scans bounds clear

end Leap

theorem Leap.lands_ahead {code code' : List Instruction} {jump mark : Instruction} {leap : Leap}
    {d n : Nat} (between : Lengthens (d + 1) n (code ++ [jump]) code')
    (scans : jump.scan? = some (.forward, (d : Int))) (depth : mark.depth = d)
    (source : leap.source = code.length) (boundary : leap.boundary = code.length + 1 + n)
    (op : jump.op = leap.op) (marked : mark.op = leap.mark) (next : leap.next = none) :
    leap.Lands (code' ++ [mark]) := by
  obtain ⟨written, rfl, length, deep⟩ := between
  refine .forward code written [] jump mark d (by simp) source (by rw [boundary, length]) op marked
    next scans (by omega) fun ins mem => ?_
  have := deep ins mem
  omega

theorem Leap.lands_behind {code code' : List Instruction} {jump mark : Instruction} {leap : Leap}
    {d n : Nat} (between : Lengthens (d + 1) n (code ++ [mark]) code')
    (scans : jump.scan? = some (.backward, (d : Int))) (depth : mark.depth = d)
    (source : leap.source = code.length + 1 + n) (boundary : leap.boundary = code.length)
    (op : jump.op = leap.op) (marked : mark.op = leap.mark)
    (next : ∀ op, leap.next = some op → (code'[code.length + 1]?).map (·.op) = some op) :
    leap.Lands (code' ++ [jump]) := by
  obtain ⟨written, rfl, length, deep⟩ := between
  refine .backward code written [] mark jump d (by simp) (by rw [source, length]) boundary op marked
    (fun op goesOn => ?_) scans (by omega) fun ins mem => ?_
  · rw [List.append_assoc, List.getElem?_append_right (Nat.le_succ _)] at next
    simpa [List.head?_eq_getElem?] using next op goesOn
  · have := deep ins mem
    omega

/-! ## The jumps of one combinator -/

namespace Builder

theorem toInt_level {b : Builder} (room : b.depth < 2 ^ 32) : b.level.toInt = b.depth :=
  Int64.toInt_ofNat_of_lt (by omega)

theorem scan_placed {b b' : Builder} (room : b.depth < 2 ^ 32) {op : Opcode} {scan : Scan}
    (scans : op.scan? = some scan) :
    (b'.placed { op, int := b.level }).scan? = some (scan, (b.depth : Int)) := by
  simp only [placed, Instruction.scan?]
  split
  · cases scans
  · rw [scans, Option.map_some, toInt_level room]

variable {first second : Builder → Builder} {m n : Nat}

theorem block_lands {b : Builder} {jump mark : Instruction}
    (scans : (b.placed jump).scan? = some (.forward, (b.depth : Int)))
    (body : ∀ b : Builder, b.Extended n (first b)) :
    Leap.Lands (((b.push jump).nest first).push mark).code
      ⟨b.code.length, jump.op, b.code.length + 1 + n, mark.op, none⟩ :=
  Leap.lands_ahead ((body (b.push jump).inner).below rfl) scans
    (Extended.nest (body (b.push jump).inner)).depth rfl rfl rfl rfl rfl

theorem branch_lands {b : Builder} (room : b.depth < 2 ^ 32) {op : Opcode}
    (scans : op.scan? = some .forward) (yes : ∀ b : Builder, b.Extended m (first b))
    (no : ∀ b : Builder, b.Extended n (second b)) :
    let skip := b.code.length + 1 + m
    Leap.Lands (b.branch op first second).code ⟨b.code.length, op, skip, .jump, none⟩ ∧
      Leap.Lands (b.branch op first second).code ⟨skip, .jump, skip + 1 + n, .nop, none⟩ := by
  intro skip
  let skipped := (b.int op b.level).nest first
  have taken : b.Extended (1 + m) skipped := (Extended.push b _).trans (.nest (yes _))
  have skipAt : skipped.code.length = skip := by
    rw [taken.length, ← Nat.add_assoc]
  constructor
  · have others : (skipped.int .jump b.level).Extended (n + 1) (b.branch op first second) :=
      (Extended.nest (no _)).trans (.push _ _)
    exact (block_lands (scan_placed room scans) yes).extend others.prefix_code
  · have scans' : (skipped.placed { op := .jump, int := b.level }).scan?
        = some (.forward, (skipped.depth : Int)) := by
      rw [taken.depth]
      exact scan_placed room rfl
    rw [← skipAt]
    exact block_lands scans' no

theorem loop_lands {b : Builder} (room : b.depth < 2 ^ 32) {out : Opcode}
    (scans : out.scan? = some .forward) (cond : ∀ b : Builder, b.Extended m (first b))
    (body : ∀ b : Builder, b.Extended n (second b)) {next : Option Opcode}
    (opens : ∀ op, next = some op →
      ((first (b.op .nop).inner).code[b.code.length + 1]?).map (·.op) = some op) :
    let test := b.code.length + 1 + m
    let back := test + 1 + n
    Leap.Lands (b.loop out first second).code ⟨test, out, back + 1, .nop, none⟩ ∧
      Leap.Lands (b.loop out first second).code ⟨back, .jumpBack, b.code.length, .nop, next⟩ := by
  intro test back
  let opened := (b.op .nop).inner
  let tested := (first opened).int out b.level
  have tests : opened.Extended (m + 1) tested := (cond opened).trans (.push _ _)
  have loops : tested.Extended (n + 1) ((second tested).int .jumpBack b.level) :=
    (body tested).trans (.push _ _)
  have testAt : (first opened).code.length = test := by
    rw [(cond opened).length]
    simp [opened, test, Builder.op, push, inner]
  constructor
  · let round (b' : Builder) := (second ((first b').int out b.level)).int .jumpBack b.level
    have closing : ((b.op .nop).nest round).depth = b.depth :=
      (Extended.nest (tests.trans loops)).depth
    exact Leap.lands_ahead (loops.below tests.depth) (scan_placed room scans) closing testAt.symm
      (by simp only [testAt, back]; omega) rfl rfl rfl
  · have whole : opened.Extended (m + 1 + n) (second tested) := tests.trans (body tested)
    have opens' : ∀ op, next = some op →
        ((second tested).code[b.code.length + 1]?).map (·.op) = some op := by
      intro op goesOn
      obtain ⟨ins, at_, same⟩ := Option.map_eq_some_iff.mp (opens op goesOn)
      obtain ⟨more, grown⟩ := ((Extended.push _ _).trans (body tested)).prefix_code
      rw [← grown, List.getElem?_append_left (List.getElem?_eq_some_iff.mp at_).1]
      exact opens op goesOn
    have closes : Leap.Lands ((second tested).int .jumpBack b.level).code
        ⟨back, .jumpBack, b.code.length, .nop, next⟩ :=
      Leap.lands_behind (whole.below rfl) (scan_placed room rfl) rfl
        (by simp only [back, test]; omega) rfl rfl rfl opens'
    exact closes.extend ⟨[_], rfl⟩

end Builder

/-! ## The jumps of a script -/

namespace Builder

def LandsAt (depth : Nat) (leaps : Nat → List Leap) (body : Builder → Builder) : Prop :=
  ∀ b : Builder, b.depth = depth → ∀ leap ∈ leaps b.code.length, leap.Lands (body b).code

variable {first second : Builder → Builder} {inFirst inSecond : Nat → List Leap} {d m n : Nat}

theorem landsAt_branch (room : d < 2 ^ 32) {op : Opcode} (scans : op.scan? = some .forward)
    (yes : ∀ b : Builder, b.Extended m (first b)) (no : ∀ b : Builder, b.Extended n (second b))
    (yesLands : LandsAt (d + 1) inFirst first) (noLands : LandsAt (d + 1) inSecond second) :
    LandsAt d
      (fun start =>
        let skip := start + 1 + m
        ⟨start, op, skip, .jump, none⟩ :: ⟨skip, .jump, skip + 1 + n, .nop, none⟩ ::
          (inFirst (start + 1) ++ inSecond (skip + 1)))
      (fun b => b.branch op first second) := by
  intro b depth leap mem
  subst depth
  have lands := branch_lands room scans yes no
  have taken := yes (b.int op b.level).inner
  let skipped := ((b.int op b.level).nest first).int .jump b.level
  have skipping : b.Extended (1 + m + 1) skipped :=
    ((Extended.push b _).trans (.nest taken)).trans (.push _ _)
  simp only [List.mem_cons, List.mem_append] at mem
  rcases mem with rfl | rfl | mem | mem
  · exact lands.1
  · exact lands.2
  · have at_ : (b.int op b.level).inner.code.length = b.code.length + 1 :=
      (Extended.push b _).length
    rw [← at_] at mem
    have rest : ((b.int op b.level).nest first).Extended (1 + n + 1) (b.branch op first second) :=
      ((Extended.push _ _).trans (.nest (no _))).trans (.push _ _)
    exact (yesLands _ rfl leap mem).extend rest.prefix_code
  · have at_ : skipped.inner.code.length = b.code.length + 1 + m + 1 := by
      show skipped.code.length = _
      rw [skipping.length]
      omega
    rw [← at_] at mem
    have depth : skipped.inner.depth = b.depth + 1 := congrArg (· + 1) skipping.depth
    exact (noLands _ depth leap mem).extend ⟨[_], rfl⟩

theorem landsAt_loop (room : d < 2 ^ 32) {out : Opcode} (scans : out.scan? = some .forward)
    (cond : ∀ b : Builder, b.Extended m (first b)) (body : ∀ b : Builder, b.Extended n (second b))
    {next : Option Opcode}
    (opens : ∀ (b : Builder) (op : Opcode), next = some op →
      ((first b).code[b.code.length]?).map (·.op) = some op)
    (condLands : LandsAt (d + 1) inFirst first) (bodyLands : LandsAt (d + 1) inSecond second) :
    LandsAt d
      (fun start =>
        let test := start + 1 + m
        let back := test + 1 + n
        ⟨test, out, back + 1, .nop, none⟩ :: ⟨back, .jumpBack, start, .nop, next⟩ ::
          (inFirst (start + 1) ++ inSecond (test + 1)))
      (fun b => b.loop out first second) := by
  intro b depth leap mem
  subst depth
  let opened := (b.op .nop).inner
  let tested := (first opened).int out b.level
  have openedAt : opened.code.length = b.code.length + 1 := (Extended.push b _).length
  have opens' : ∀ op, next = some op →
      ((first opened).code[b.code.length + 1]?).map (·.op) = some op := openedAt ▸ opens opened
  have lands := loop_lands room scans cond body opens'
  have tests : opened.Extended (m + 1) tested := (cond opened).trans (.push _ _)
  have testedAt : tested.code.length = b.code.length + 1 + m + 1 := by
    rw [tests.length, openedAt]
    omega
  have closed : (second tested).code <+: (b.loop out first second).code := by
    have closing :
        ((second tested).int .jumpBack b.level).code <+: (b.loop out first second).code :=
      ⟨[_], rfl⟩
    exact (Extended.push (second tested) _).prefix_code.trans closing
  simp only [List.mem_cons, List.mem_append] at mem
  rcases mem with rfl | rfl | mem | mem
  · exact lands.1
  · exact lands.2
  · rw [← openedAt] at mem
    have looped := ((Extended.push (first opened) _).trans (body tested)).prefix_code
    exact (condLands opened rfl leap mem).extend (looped.trans closed)
  · rw [← testedAt] at mem
    exact (bodyLands tested tests.depth leap mem).extend closed

/-- A deferred block is left at its own depth, whatever its operand is. -/
theorem landsAt_deferred {k : Int64} (body : ∀ b : Builder, b.Extended m (first b))
    (bodyLands : LandsAt (d + 1) inFirst first) :
    LandsAt d
      (fun start =>
        ⟨start, .deferCheck, start + 1 + m, .nop, none⟩ :: inFirst (start + 1))
      (fun b => b.deferred k first) := by
  intro b depth leap mem
  subst depth
  rcases List.mem_cons.mp mem with rfl | mem
  · exact block_lands rfl body
  · have at_ : (b.int .deferCheck k).inner.code.length = b.code.length + 1 :=
      (Extended.push b _).length
    rw [← at_] at mem
    exact (bodyLands _ rfl leap mem).extend ⟨[_], rfl⟩

end Builder

namespace Assembly

/-- One call, if the scripts in its arguments are known to land. -/
theorem landsAt_run (call : Assembly) (d : Nat) (room : d + call.levels < 2 ^ 32)
    (scripts : ∀ script : List Assembly, sizeOf script < sizeOf call → ∀ d,
      d + levelsAll script < 2 ^ 32 →
        Builder.LandsAt d (fun start => leapsAll start script) (runAll script)) :
    Builder.LandsAt d (fun start => call.leaps start) call.run := by
  cases call with
  | nest body =>
    intro b depth
    have size := nest.sizeOf_spec body
    simp only [levels] at room
    exact scripts body (by omega) (d + 1) (by omega) b.inner (congrArg (· + 1) depth)
  | whileLoop cond body =>
    have size := whileLoop.sizeOf_spec cond body
    simp only [levels] at room
    exact Builder.landsAt_loop (by omega) rfl (runAll_extended cond) (runAll_extended body)
      (by simp) (scripts cond (by omega) (d + 1) (by omega))
      (scripts body (by omega) (d + 1) (by omega))
  | ifElse yes no =>
    have size := ifElse.sizeOf_spec yes no
    simp only [levels] at room
    exact Builder.landsAt_branch (by omega) rfl (runAll_extended yes) (runAll_extended no)
      (scripts yes (by omega) (d + 1) (by omega)) (scripts no (by omega) (d + 1) (by omega))
  | trap body handler =>
    have size := trap.sizeOf_spec body handler
    simp only [levels] at room
    have guards : Builder.LandsAt (d + 1) (fun start => leapsAll start body)
        (Builder.guarded (runAll body)) := fun b depth leap mem =>
      (scripts body (by omega) (d + 1) (by omega) b depth leap mem).extend ⟨[_], rfl⟩
    exact Builder.landsAt_branch (by omega) rfl
      (Builder.guarded_extended (runAll_extended body)) (runAll_extended handler)
      guards (scripts handler (by omega) (d + 1) (by omega))
  | deferred k body =>
    have size := deferred.sizeOf_spec k body
    simp only [levels] at room
    exact Builder.landsAt_deferred (runAll_extended body)
      (scripts body (by omega) (d + 1) (by omega))
  | forEach slot body =>
    intro b depth leap mem
    have size := forEach.sizeOf_spec slot body
    simp only [levels] at room
    have opened : ((b.op .iterNew).store slot).code.length = b.code.length + 2 := by
      simp [Builder.op, Builder.store, Builder.int, Builder.push]
    have loads : Builder.LandsAt (d + 1) (fun _ => []) (fun b => b.load slot) := by
      simp [Builder.LandsAt]
    have opens : ∀ (b : Builder) (op : Opcode), some Opcode.loadLocal = some op →
        ((b.load slot).code[b.code.length]?).map (·.op) = some op := by
      intro b op same
      simpa [Builder.load, Builder.int, Builder.push] using same
    have scans : Opcode.iterNext.scan? = some .forward := rfl
    have loops := Builder.landsAt_loop (by omega) scans (fun b => .push b _) (runAll_extended body)
      opens loads (scripts body (by omega) (d + 1) (by omega))
    exact loops ((b.op .iterNew).store slot) depth leap (by rw [opened]; exact mem)
  | _ => simp [Builder.LandsAt, leaps]

theorem landsAt_runAll (script : List Assembly) (d : Nat) (room : d + levelsAll script < 2 ^ 32) :
    Builder.LandsAt d (fun start => leapsAll start script) (runAll script) := by
  match script, room with
  | [], _ => simp [Builder.LandsAt, leapsAll]
  | call :: rest, room =>
    intro b depth leap mem
    simp only [levelsAll] at room
    have written := run_extended call b
    rcases List.mem_append.mp mem with mem | mem
    · have lands := landsAt_run call d (by omega)
        fun script _ d room => landsAt_runAll script d room
      exact (lands b depth leap mem).extend (runAll_extended rest (call.run b)).prefix_code
    · rw [← written.length] at mem
      exact landsAt_runAll rest d (by omega) (call.run b) (written.depth.trans depth) leap mem
termination_by sizeOf script
decreasing_by
  · rw [List.cons.sizeOf_spec]
    omega
  · rw [List.cons.sizeOf_spec]
    omega

/-- **Structured jumps.** In the code of a script every jump of a combinator is resolved to the
position just past the boundary that its own combinator wrote for it, whatever stands in the bodies.
So it has that target whenever the code is resolved at all, and if the code is refused then not for
such a jump. -/
theorem jumps_land (depth : Nat) (script : List Assembly)
    (room : depth + levelsAll script < 2 ^ 32) (name : String) :
    let code := (runAll script (Builder.atDepth depth)).build.1
    (∀ leap ∈ leapsAll 0 script, leap.Reaches name code) ∧
      (∀ targets, Target.resolveAll name code = .ok targets →
        ∀ leap ∈ leapsAll 0 script, targets[leap.source]? = some (some (leap.boundary + 1))) ∧
      ∀ error, Target.resolveAll name code = .error error →
        ∃ position ins, code[position]? = some ins ∧
          Target.resolve name code position ins = .error error ∧
          ∀ leap ∈ leapsAll 0 script, leap.source ≠ position := by
  intro code
  have reaches : ∀ leap ∈ leapsAll 0 script, leap.Reaches name code := fun leap mem =>
    (landsAt_runAll script depth room (Builder.atDepth depth) rfl leap mem).reaches name
  refine ⟨reaches, fun targets resolved leap mem => ?_, fun error refused => ?_⟩
  · obtain ⟨ins, at_, -, lands⟩ := (reaches leap mem).resolves
    obtain ⟨target, found, resolves⟩ := (CodeUnit.targets_spec resolved).2 leap.source ins at_
    rw [Nat.zero_add, lands] at resolves
    cases resolves
    exact found
  · obtain ⟨position, ins, at_, fails⟩ := Target.exists_of_resolveAll refused
    refine ⟨position, ins, at_, fails, fun leap mem same => ?_⟩
    obtain ⟨ins', at', -, lands⟩ := (reaches leap mem).resolves
    rw [same] at at' lands
    cases at_.symm.trans at'
    cases fails.symm.trans lands

def braided : List Assembly :=
  [.whileLoop [.load 0]
    [.load 1,
      .ifElse [.trap [.load 2, .forEach 3 [.op .iterValue, .op .pop]] [.op .pop]]
        [.deferred 0 [.int .jump 0]]]]

theorem jumps_land_braided :
    7 + levelsAll braided < 2 ^ 32 ∧
      leapsAll 0 braided =
        [⟨2, .jumpIfFalse, 26, .nop, none⟩, ⟨25, .jumpBack, 0, .nop, none⟩,
          ⟨4, .jumpIfFalse, 20, .jump, none⟩, ⟨20, .jump, 24, .nop, none⟩,
          ⟨5, .trapSet, 17, .jump, none⟩, ⟨17, .jump, 19, .nop, none⟩,
          ⟨11, .iterNext, 15, .nop, none⟩, ⟨14, .jumpBack, 9, .nop, some .loadLocal⟩,
          ⟨21, .deferCheck, 23, .nop, none⟩] ∧
      ∃ targets,
        Target.resolveAll "main" (runAll braided (Builder.atDepth 7)).build.1 = .ok targets ∧
          ∀ leap ∈ leapsAll 0 braided, targets[leap.source]? = some (some (leap.boundary + 1)) :=
  ⟨by decide, by decide, _, rfl, (jumps_land 7 braided (by decide) "main").2.1 _ rfl⟩

end Assembly

end ScriptMachine
