import ScriptMachine.Code.Pattern

/-!
# Which match is selected

`Pattern.Matches` says, without the search, when a pattern matches a run of instructions: its
elements take the run one after the other, nothing can jump into the middle of it, only its last
instruction may hand control away, and the guard holds. `Pattern.Best` singles out one match among
those of a list of patterns. Selection finds it, or finds that there is none.
-/

set_option autoImplicit false

namespace ScriptMachine

/-! ## Elements -/

inductive Matcher.Takes : Matcher → List Instruction → List Instruction → Prop
  | one {m : Matcher} {ins : Instruction} {rest : List Instruction}
      (single : ∀ inner min, m ≠ .repeated inner min) (accepted : m.accepts ins = true) :
      Takes m [ins] rest
  /-- Everything that is accepted, up to the first instruction that is not. -/
  | run {inner : Matcher} {min : Nat} {span rest : List Instruction}
      (accepted : ∀ ins ∈ span, inner.accepts ins = true) (enough : min ≤ span.length)
      (stops : ∀ ins ∈ rest.head?, inner.accepts ins = false) :
      Takes (.repeated inner min) span rest

theorem Matcher.consume_single {m : Matcher} (single : ∀ inner min, m ≠ .repeated inner min)
    (code : List Instruction) :
    m.consume code =
      match code with
      | ins :: _ => if m.accepts ins then some 1 else none
      | [] => none := by
  cases m with
  | repeated inner min => exact absurd rfl (single inner min)
  | _ => rfl

theorem Matcher.Takes.consume {m : Matcher} {span rest : List Instruction}
    (takes : m.Takes span rest) : m.consume (span ++ rest) = some span.length := by
  cases takes with
  | one single accepted => simp [consume_single single, accepted]
  | @run inner min _ _ accepted enough stops =>
    have stop : rest.takeWhile inner.accepts = [] := by
      cases rest with
      | nil => rfl
      | cons ins rest => simp [stops ins rfl]
    have taken : (span ++ rest).takeWhile inner.accepts = span := by
      rw [List.takeWhile_append_of_pos accepted, stop, List.append_nil]
    simp [Matcher.consume, taken, enough]

theorem Matcher.takes_of_consume {m : Matcher} {code : List Instruction} {n : Nat}
    (consumed : m.consume code = some n) :
    ∃ span rest, code = span ++ rest ∧ span.length = n ∧ m.Takes span rest := by
  by_cases repeats : ∃ inner min, m = .repeated inner min
  · obtain ⟨inner, min, rfl⟩ := repeats
    obtain ⟨enough, length⟩ := Option.ite_none_right_eq_some.mp consumed
    refine ⟨code.takeWhile inner.accepts, code.dropWhile inner.accepts,
      List.takeWhile_append_dropWhile.symm, Option.some.inj length, .run ?_ enough ?_⟩
    · exact List.all_eq_true.mp List.all_takeWhile
    · intro ins next
      have stops := List.head?_dropWhile_not inner.accepts code
      rw [Option.mem_def.mp next] at stops
      exact stops
  · have single : ∀ inner min, m ≠ .repeated inner min :=
      fun inner min same => repeats ⟨inner, min, same⟩
    rw [consume_single single] at consumed
    cases code with
    | nil => cases consumed
    | cons ins rest =>
      obtain ⟨accepted, one⟩ := Option.ite_none_right_eq_some.mp consumed
      exact ⟨[ins], rest, rfl, Option.some.inj one, .one single accepted⟩

namespace Pattern

variable {β : Type}

inductive Takes : List Matcher → List Instruction → List Instruction → Prop
  | nil (rest : List Instruction) : Takes [] [] rest
  | cons {m : Matcher} {parts : List Matcher} {span more rest : List Instruction}
      (first : m.Takes span (more ++ rest)) (others : Takes parts more rest) :
      Takes (m :: parts) (span ++ more) rest

theorem Takes.consumeAll {parts : List Matcher} {span rest : List Instruction}
    (takes : Takes parts span rest) : consumeAll parts (span ++ rest) = some span.length := by
  induction takes with
  | nil rest => rfl
  | cons first others ih => simp [Pattern.consumeAll, first.consume, ih]

theorem takes_of_consumeAll {parts : List Matcher} :
    ∀ {code : List Instruction} {n : Nat}, consumeAll parts code = some n →
      ∃ span rest, code = span ++ rest ∧ span.length = n ∧ Takes parts span rest := by
  induction parts with
  | nil =>
    intro code n consumed
    exact ⟨[], code, rfl, Option.some.inj consumed, .nil code⟩
  | cons m parts ih =>
    intro code n consumed
    simp only [consumeAll, Option.bind_eq_bind, Option.pure_def, Option.bind_eq_some_iff,
      Option.some.injEq] at consumed
    obtain ⟨k, first, j, others, rfl⟩ := consumed
    obtain ⟨span, after, rfl, rfl, takesFirst⟩ := Matcher.takes_of_consume first
    rw [List.drop_left] at others
    obtain ⟨more, rest, rfl, rfl, takesOthers⟩ := ih others
    exact ⟨span ++ more, rest, by rw [List.append_assoc], List.length_append,
      .cons takesFirst takesOthers⟩

/-! ## Matches -/

variable {p : Pattern β} {code : List Instruction} {position length : Nat} {landings : List Nat}

def covered (code : List Instruction) (position length : Nat) : List Instruction :=
  (code.drop position).take length

theorem length_covered (inside : position + length ≤ code.length) :
    (covered code position length).length = length := by
  rw [covered, List.length_take, List.length_drop]
  omega

theorem covered_append_drop (code : List Instruction) (position length : Nat) :
    covered code position length ++ code.drop (position + length) = code.drop position := by
  rw [covered, ← List.drop_drop, List.take_append_drop]

/-- A pattern matches a run of `length` instructions at a position of the code. -/
structure Matches (p : Pattern β) (code : List Instruction) (position : Nat) (landings : List Nat)
    (length : Nat) : Prop where
  inside : position + length ≤ code.length
  takes : Takes p.parts (covered code position length) (code.drop (position + length))
  two_le : 2 ≤ length
  /-- Control lands nowhere in the run but on its first instruction. -/
  unentered : ∀ q ∈ landings, position < q → position + length ≤ q
  unbroken : ∀ ins ∈ (covered code position length).dropLast, ins.op.transfersControl = false
  guarded : ∀ guard, p.guard = some guard → guard (covered code position length) = true

theorem Matches.consumeAll (found : p.Matches code position landings length) :
    consumeAll p.parts (code.drop position) = some length := by
  have consumed := found.takes.consumeAll
  rwa [covered_append_drop, length_covered found.inside] at consumed

theorem legal_iff (inside : position + length ≤ code.length) :
    legal code position length landings = true ↔
      2 ≤ length ∧ (∀ q ∈ landings, position < q → position + length ≤ q) ∧
        ∀ ins ∈ (covered code position length).dropLast, ins.op.transfersControl = false := by
  have front : (covered code position length).dropLast = (code.drop position).take (length - 1) := by
    rw [List.dropLast_eq_take, length_covered inside, covered, List.take_take,
      Nat.min_eq_left (Nat.sub_le length 1)]
  have entered : (List.range' (position + 1) (length - 1)).any landings.contains = false ↔
      ∀ q ∈ landings, position < q → position + length ≤ q := by
    simp only [List.any_eq_false, List.mem_range'_1, List.contains_iff_mem]
    constructor
    · intro none q landing after
      rcases Nat.lt_or_ge q (position + length) with within | beyond
      · exact absurd landing (none q ⟨by omega, by omega⟩)
      · exact beyond
    · intro all q within landing
      have beyond := all q landing (by omega)
      omega
  simp only [legal, Bool.and_eq_true, decide_eq_true_eq, Bool.not_eq_true', entered, front,
    List.any_eq_false, Bool.not_eq_true, and_assoc]

/-- The search takes the elements first, then asks whether the run is legal, then the guard. -/
theorem matchAt_eq_some :
    p.matchAt code position landings = some length ↔
      consumeAll p.parts (code.drop position) = some length ∧
        legal code position length landings = true ∧
        ∀ guard, p.guard = some guard → guard (covered code position length) = true := by
  constructor
  · intro found
    obtain ⟨n, consumed, found⟩ := Option.bind_eq_some_iff.mp found
    obtain ⟨lawful, found⟩ := Option.ite_none_right_eq_some.mp found
    split at found
    · rename_i unguarded
      cases found
      refine ⟨consumed, lawful, fun guard given => ?_⟩
      rw [unguarded] at given
      cases given
    · rename_i guard guarded
      obtain ⟨passed, same⟩ := Option.ite_none_right_eq_some.mp found
      cases same
      refine ⟨consumed, lawful, fun other given => ?_⟩
      rw [guarded] at given
      cases given
      exact passed
  · rintro ⟨consumed, lawful, guarded⟩
    simp only [matchAt, consumed, Option.bind_eq_bind, Option.bind_some, lawful, if_true]
    split
    · rfl
    · rename_i guard given
      exact if_pos (guarded guard given)

theorem matchAt_eq_some_iff :
    p.matchAt code position landings = some length ↔ p.Matches code position landings length := by
  rw [matchAt_eq_some]
  constructor
  · rintro ⟨consumed, lawful, guarded⟩
    obtain ⟨span, rest, split, rfl, takes⟩ := takes_of_consumeAll consumed
    have two : 2 ≤ span.length := by
      simp only [legal, Bool.and_eq_true, decide_eq_true_eq] at lawful
      exact lawful.1.1
    have inside : position + span.length ≤ code.length := by
      have total := congrArg List.length split
      rw [List.length_drop, List.length_append] at total
      omega
    obtain ⟨-, unentered, unbroken⟩ := (legal_iff inside).mp lawful
    refine ⟨inside, ?_, two, unentered, unbroken, guarded⟩
    rw [covered, ← List.drop_drop, split, List.take_left, List.drop_left]
    exact takes
  · intro found
    have lawful := (legal_iff found.inside).mpr ⟨found.two_le, found.unentered, found.unbroken⟩
    exact ⟨found.consumeAll, lawful, found.guarded⟩

theorem Matches.unique {other : Nat} (found : p.Matches code position landings length)
    (found' : p.Matches code position landings other) : length = other :=
  Option.some.inj (found.consumeAll.symm.trans found'.consumeAll)

theorem matchAt_eq_none_iff :
    p.matchAt code position landings = none ↔
      ∀ length, ¬ p.Matches code position landings length := by
  simp only [← matchAt_eq_some_iff]
  exact Option.eq_none_iff_forall_not_mem

/-! ## The best match -/

structure Candidate (β : Type) where
  index : Nat
  pattern : Pattern β
  length : Nat

/-- A match comes before another one if it is longer, or as long and more specific, or as long and
as specific and registered earlier. -/
def Candidate.Precedes (a b : Candidate β) : Prop :=
  b.length < a.length ∨
    a.length = b.length ∧
      (b.pattern.specificity < a.pattern.specificity ∨
        a.pattern.specificity = b.pattern.specificity ∧ a.index < b.index)

variable {patterns : List (Pattern β)} {a b : Candidate β}

structure Enters (patterns : List (Pattern β)) (code : List Instruction) (position : Nat)
    (landings : List Nat) (a : Candidate β) : Prop where
  registered : patterns[a.index]? = some a.pattern
  found : a.pattern.Matches code position landings a.length

/-- A match by a pattern of the list that no other one comes before. -/
structure Best (patterns : List (Pattern β)) (code : List Instruction) (position : Nat)
    (landings : List Nat) (a : Candidate β) : Prop where
  enters : Enters patterns code position landings a
  unbeaten : ∀ b, Enters patterns code position landings b → ¬ b.Precedes a

theorem Best.unique (best : Best patterns code position landings a)
    (other : Best patterns code position landings b) : a = b := by
  have notBehind := best.unbeaten b other.enters
  have notAhead := other.unbeaten a best.enters
  simp only [Candidate.Precedes] at notBehind notAhead
  have index : a.index = b.index := by omega
  have length : a.length = b.length := by omega
  have pattern : a.pattern = b.pattern := by
    apply Option.some.inj
    rw [← best.enters.registered, ← other.enters.registered, index]
  cases a
  cases b
  cases index
  cases length
  cases pattern
  rfl

theorem enters_concat_iff :
    Enters (patterns ++ [p]) code position landings a ↔
      Enters patterns code position landings a ∨
        a.index = patterns.length ∧ a.pattern = p ∧ p.Matches code position landings a.length := by
  constructor
  · rintro ⟨registered, found⟩
    rcases Nat.lt_or_ge a.index patterns.length with before | behind
    · rw [List.getElem?_append_left before] at registered
      exact .inl ⟨registered, found⟩
    · obtain ⟨inside, -⟩ := List.getElem?_eq_some_iff.mp registered
      rw [List.length_append, List.length_singleton] at inside
      have last : a.index = patterns.length := by omega
      have same : a.pattern = p := by
        rw [last, List.getElem?_concat_length] at registered
        exact (Option.some.inj registered).symm
      exact .inr ⟨last, same, same ▸ found⟩
  · rintro (⟨registered, found⟩ | ⟨last, same, found⟩)
    · obtain ⟨inside, -⟩ := List.getElem?_eq_some_iff.mp registered
      exact ⟨by rw [List.getElem?_append_left inside, registered], found⟩
    · exact ⟨by rw [last, List.getElem?_concat_length, same], same ▸ found⟩

theorem Enters.index_lt (enters : Enters patterns code position landings a) :
    a.index < patterns.length :=
  (List.getElem?_eq_some_iff.mp enters.registered).1

theorem Best.keep (best : Best patterns code position landings a)
    (yields : ∀ length, p.Matches code position landings length →
      p.better length (some (a.pattern, a.length)) = false) :
    Best (patterns ++ [p]) code position landings a where
  enters := enters_concat_iff.mpr (.inl best.enters)
  unbeaten := by
    intro b enters precedes
    rcases enters_concat_iff.mp enters with known | ⟨last, rfl, found⟩
    · exact best.unbeaten b known precedes
    · have worse := yields b.length found
      have before := best.enters.index_lt
      simp only [better, decide_eq_false_iff_not, Candidate.Precedes] at worse precedes
      omega

theorem best_concat (found : p.Matches code position landings length)
    (wins : ∀ b, Enters patterns code position landings b →
      ¬ b.Precedes ⟨patterns.length, p, length⟩) :
    Best (patterns ++ [p]) code position landings ⟨patterns.length, p, length⟩ where
  enters := enters_concat_iff.mpr (.inr ⟨rfl, rfl, found⟩)
  unbeaten := by
    intro b enters
    rcases enters_concat_iff.mp enters with known | ⟨last, same, found'⟩
    · exact wins b known
    · have size : b.length = length := found'.unique found
      simp only [Candidate.Precedes, last, same, size]
      omega

/-! ## The search -/

def Holds (seen : List (Pattern β)) (code : List Instruction) (position : Nat)
    (landings : List Nat) : Option (Pattern β × Nat) → Prop
  | none => ∀ a, ¬ Enters seen code position landings a
  | some (p, length) => ∃ index, Best seen code position landings ⟨index, p, length⟩

theorem Holds.contend {best : Option (Pattern β × Nat)} (p : Pattern β)
    (holds : Holds patterns code position landings best) :
    Holds (patterns ++ [p]) code position landings (contend code position landings best p) := by
  unfold Pattern.contend
  cases matched : p.matchAt code position landings with
  | none =>
    have unmatched := matchAt_eq_none_iff.mp matched
    cases best with
    | none =>
      intro a enters
      rcases enters_concat_iff.mp enters with known | ⟨-, -, found⟩
      · exact holds a known
      · exact unmatched a.length found
    | some best =>
      obtain ⟨index, best⟩ := holds
      exact ⟨index, best.keep fun length found => absurd found (unmatched length)⟩
  | some length =>
    have found := matchAt_eq_some_iff.mp matched
    cases best with
    | none => exact ⟨_, best_concat found fun b enters => absurd enters (holds b)⟩
    | some old =>
      obtain ⟨index, best⟩ := holds
      by_cases wins : p.better length (some old) = true
      · simp only [wins, if_true]
        refine ⟨_, best_concat found fun b enters precedes => best.unbeaten b enters ?_⟩
        have before := enters.index_lt
        simp only [better, decide_eq_true_eq] at wins
        simp only [Candidate.Precedes] at precedes ⊢
        omega
      · simp only [wins]
        refine ⟨index, best.keep fun other found' => ?_⟩
        have size : other = length := found'.unique found
        rw [size]
        exact Bool.eq_false_iff.mpr wins

theorem Holds.foldl (rest : List (Pattern β)) :
    ∀ {seen : List (Pattern β)} {best : Option (Pattern β × Nat)},
      Holds seen code position landings best →
      Holds (seen ++ rest) code position landings
        (rest.foldl (Pattern.contend code position landings) best) := by
  induction rest with
  | nil =>
    intro seen best holds
    rwa [List.append_nil]
  | cons p rest ih =>
    intro seen best holds
    rw [List.append_cons]
    exact ih (holds.contend p)

theorem holds_select (patterns : List (Pattern β)) (code : List Instruction) (position : Nat)
    (landings : List Nat) :
    Holds patterns code position landings (select patterns code position landings) := by
  have start : Holds ([] : List (Pattern β)) code position landings none := by
    intro a enters
    exact absurd enters.index_lt (Nat.not_lt_zero _)
  exact start.foldl patterns

theorem enters_iff_mem :
    (∃ a, Enters patterns code position landings a) ↔
      ∃ p ∈ patterns, ∃ length, p.Matches code position landings length := by
  constructor
  · rintro ⟨a, registered, found⟩
    exact ⟨a.pattern, List.mem_of_getElem? registered, a.length, found⟩
  · rintro ⟨p, mem, length, found⟩
    obtain ⟨index, registered⟩ := List.mem_iff_getElem?.mp mem
    exact ⟨⟨index, p, length⟩, registered, found⟩

theorem select_eq_some_iff :
    select patterns code position landings = some (p, length) ↔
      ∃ index, Best patterns code position landings ⟨index, p, length⟩ := by
  have holds := holds_select patterns code position landings
  constructor
  · intro selected
    rwa [selected] at holds
  · rintro ⟨index, best⟩
    cases selected : select patterns code position landings with
    | none =>
      rw [selected] at holds
      exact absurd best.enters (holds _)
    | some other =>
      rw [selected] at holds
      obtain ⟨index', best'⟩ := holds
      cases best.unique best'
      rfl

theorem matches_of_select (selected : select patterns code position landings = some (p, length)) :
    p ∈ patterns ∧ p.Matches code position landings length := by
  obtain ⟨index, best⟩ := select_eq_some_iff.mp selected
  exact ⟨List.mem_of_getElem? best.enters.registered, best.enters.found⟩

/-- Nothing is selected exactly if no pattern matches. What is selected is a legal match of one of
the patterns, and no match of another one is longer, or as long and more specific, or as long and as
specific and registered earlier. -/
theorem select_optimal (patterns : List (Pattern β)) (code : List Instruction) (position : Nat)
    (landings : List Nat) :
    (select patterns code position landings = none ↔
      ∀ p ∈ patterns, ∀ length, ¬ p.Matches code position landings length) ∧
    ∀ p length, select patterns code position landings = some (p, length) ↔
      ∃ index, Best patterns code position landings ⟨index, p, length⟩ := by
  refine ⟨?_, fun p length => select_eq_some_iff⟩
  have holds := holds_select patterns code position landings
  constructor
  · intro selected p mem length found
    rw [selected] at holds
    obtain ⟨a, enters⟩ := enters_iff_mem.mpr ⟨p, mem, length, found⟩
    exact holds a enters
  · intro unmatched
    cases selected : select patterns code position landings with
    | none => rfl
    | some best =>
      rw [selected] at holds
      obtain ⟨index, best⟩ := holds
      obtain ⟨p, mem, length, found⟩ := enters_iff_mem.mp ⟨_, best.enters⟩
      exact absurd found (unmatched p mem length)

/-- The longest match wins whatever its rank; a landing inside it leaves the field to the others. -/
example :
    let pair : Pattern Unit :=
      { name := "pair", parts := [.single .pushInt, .wildcard], specificity := 9, build := () }
    let triple : Pattern Unit :=
      { name := "triple", parts := [.repeated (.single .pushInt) 1, .wildcard], specificity := 0
        build := () }
    let code : List Instruction := [{ op := .pushInt }, { op := .pushInt }, { op := .pop }]
    let selected landings :=
      (select [pair, triple] code 0 landings).map fun (p, length) => (p.name, length)
    selected [] = some ("triple", 3) ∧ selected [2] = some ("pair", 2) ∧ selected [1] = none := by
  decide

end Pattern

end ScriptMachine
