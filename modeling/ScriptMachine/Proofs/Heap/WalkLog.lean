import ScriptMachine.Heap.Object
import ScriptMachine.Proofs.Order.SortedMap
import ScriptMachine.Proofs.Value.KeyOrder

/-!
# Logs of walks

A walk remembers the last key that it put up and asks for the least one after it. So its keys
ascend, and a key that is there at every turn is put up once before the walk ends, whatever comes
and goes otherwise.

`WalkTurn.Moves` says what one turn does with the position of a walk, and `Follows` what the log of
the turns looks like from a position on. What a walk promises is read off its log.
-/

set_option autoImplicit false

namespace ScriptMachine

theorem Key.toValue_injective : Function.Injective Key.toValue := by
  intro k k' same
  cases k <;> cases k' <;>
    simp_all [Key.toValue, Value.bool, Value.int, Value.float, Value.str, Value.pointer]

theorem Key.toValue_owns (k : Key) : k.toValue.owns = false := by
  cases k <;> rfl

def WalkPosition.Ahead : WalkPosition → Key → Prop
  | .start, _ => True
  | .after k, k' => compare k k' = .lt
  | .done, _ => False

theorem WalkPosition.Ahead.of_after {p : WalkPosition} {k k' : Key} (ahead : p.Ahead k)
    (further : (WalkPosition.after k).Ahead k') : p.Ahead k' := by
  cases p with
  | start => trivial
  | after k₀ => exact Std.TransCmp.lt_trans ahead further
  | done => exact ahead

structure WalkTurn where
  entries : List (Key × Value)
  answer : Except Error Bool
  key : Value
  values : List Value

namespace WalkTurn

structure Shows (t : WalkTurn) (k : Key) (u : Value) : Prop where
  answer : t.answer = .ok true
  entry : (k, u) ∈ t.entries
  key : t.key = k.toValue
  values : t.values = [u.share]

/-- How a turn moves the position of its walk: a turn that fails leaves it, one that puts an entry
up takes the least key ahead, and one that ends the walk finds none. -/
inductive Moves (t : WalkTurn) : WalkPosition → WalkPosition → Prop
  | failed {p : WalkPosition} {e : Error} (answer : t.answer = .error e) : t.Moves p p
  | shown {p : WalkPosition} {k : Key} {u : Value} (shows : t.Shows k u) (ahead : p.Ahead k)
      (least : ∀ e ∈ t.entries, p.Ahead e.1 → compare e.1 k ≠ .lt) : t.Moves p (.after k)
  | ended {p : WalkPosition} (answer : t.answer = .ok false)
      (passed : ∀ e ∈ t.entries, ¬ p.Ahead e.1) : t.Moves p .done

theorem Shows.unique {t : WalkTurn} {k k' : Key} {u u' : Value} (shows : t.Shows k u)
    (shows' : t.Shows k' u') : k = k' :=
  Key.toValue_injective (shows.key.symm.trans shows'.key)

end WalkTurn

inductive Follows : WalkPosition → List WalkTurn → Prop
  | nil (p : WalkPosition) : Follows p []
  | cons {p p' : WalkPosition} {t : WalkTurn} {log : List WalkTurn} (first : t.Moves p p')
      (rest : Follows p' log) : Follows p (t :: log)

/-- What a walk promises. Every turn that goes on puts an entry up, the keys ascend, an ended walk
puts nothing up any more, and a key that is there at every turn up to the end was put up once. -/
structure Walked (log : List WalkTurn) : Prop where
  shows : ∀ t ∈ log, t.answer = .ok true → ∃ k u, t.Shows k u
  ascending : log.Pairwise fun t t' =>
    ∀ k u k' u', t.Shows k u → t'.Shows k' u' → compare k k' = .lt
  silent : ∀ before last after, log = before ++ last :: after → last.answer = .ok false →
    ∀ t ∈ after, t.answer ≠ .ok true
  complete : ∀ before last after, log = before ++ last :: after → last.answer = .ok false →
    ∀ k, (∀ t ∈ before ++ [last], ∃ u, (k, u) ∈ t.entries) →
      ∃ earlier t later, before = earlier ++ t :: later ∧ (∃ u, t.Shows k u) ∧
        ∀ t' ∈ earlier ++ later, ∀ u, ¬ t'.Shows k u

namespace Follows

variable {p : WalkPosition} {t last : WalkTurn} {log before after : List WalkTurn} {k : Key}
  {u : Value}

theorem shows (follows : Follows p log) : ∀ t ∈ log, t.answer = .ok true → ∃ k u, t.Shows k u := by
  induction follows with
  | nil => exact fun _ mem => (List.not_mem_nil mem).elim
  | cons first _ ih =>
    refine List.forall_mem_cons.mpr ⟨fun goes => ?_, ih⟩
    cases first with
    | failed answer => rw [answer] at goes; cases goes
    | shown shows => exact ⟨_, _, shows⟩
    | ended answer => rw [answer] at goes; cases goes

theorem ahead (follows : Follows p log) (mem : t ∈ log) (shows : t.Shows k u) : p.Ahead k := by
  induction follows with
  | nil => exact (List.not_mem_nil mem).elim
  | @cons p p' t' log first _ ih =>
    rcases List.mem_cons.mp mem with rfl | mem
    · cases first with
      | failed answer => cases answer.symm.trans shows.answer
      | shown shows' ahead => exact shows.unique shows' ▸ ahead
      | ended answer => cases answer.symm.trans shows.answer
    · have further := ih mem
      cases first with
      | failed answer => exact further
      | shown shows' ahead => exact ahead.of_after further
      | ended answer => exact further.elim

theorem ascending (follows : Follows p log) : log.Pairwise fun t t' =>
    ∀ k u k' u', t.Shows k u → t'.Shows k' u' → compare k k' = .lt := by
  induction follows with
  | nil => exact .nil
  | cons first rest ih =>
    refine List.pairwise_cons.mpr ⟨fun t' mem k u k' u' shows shows' => ?_, ih⟩
    have further := rest.ahead mem shows'
    cases first with
    | failed answer => cases answer.symm.trans shows.answer
    | shown shows'' => exact shows.unique shows'' ▸ further
    | ended answer => cases answer.symm.trans shows.answer

theorem silent (follows : Follows p (before ++ last :: after)) (ended : last.answer = .ok false) :
    ∀ t ∈ after, t.answer ≠ .ok true := by
  induction before generalizing p with
  | nil =>
    obtain ⟨-⟩ | ⟨first, rest⟩ := follows
    intro t mem goes
    obtain ⟨k, u, shows⟩ := rest.shows t mem goes
    have further := rest.ahead mem shows
    cases first with
    | failed answer => cases answer.symm.trans ended
    | shown shows' => cases shows'.answer.symm.trans ended
    | ended => exact further
  | cons t before ih =>
    obtain ⟨-⟩ | ⟨-, rest⟩ := follows
    exact ih rest

/-- A key that is ahead is come to before the end, if it stays there. -/
theorem reaches (follows : Follows p (before ++ last :: after)) (ended : last.answer = .ok false)
    (ahead : p.Ahead k) (there : ∀ t ∈ before ++ [last], ∃ u, (k, u) ∈ t.entries) :
    ∃ t ∈ before, ∃ u, t.Shows k u := by
  induction before generalizing p with
  | nil =>
    obtain ⟨-⟩ | ⟨first, -⟩ := follows
    obtain ⟨u, mem⟩ := there last (List.mem_singleton_self last)
    cases first with
    | failed answer => cases answer.symm.trans ended
    | shown shows => cases shows.answer.symm.trans ended
    | ended _ passed => exact absurd ahead (passed _ mem)
  | cons t before ih =>
    obtain ⟨-⟩ | ⟨first, rest⟩ := follows
    obtain ⟨⟨u, mem⟩, there⟩ := List.forall_mem_cons.mp there
    have later : ∀ {p'}, Follows p' (before ++ last :: after) → p'.Ahead k →
        ∃ t' ∈ t :: before, ∃ u, t'.Shows k u := fun rest ahead => by
      obtain ⟨t', mem', shows⟩ := ih rest ahead there
      exact ⟨t', List.mem_cons_of_mem t mem', shows⟩
    cases first with
    | failed _ => exact later rest ahead
    | ended _ passed => exact absurd ahead (passed _ mem)
    | @shown k' u' shows _ least =>
      cases order : compare k k' with
      | lt => exact absurd order (least _ mem ahead)
      | eq =>
        rw [Std.LawfulEqCmp.eq_of_compare order]
        exact ⟨t, List.mem_cons_self .., _, shows⟩
      | gt => exact later rest (Std.OrientedCmp.lt_of_gt order)

theorem walked (follows : Follows .start log) : Walked log := by
  refine ⟨follows.shows, follows.ascending, ?_, ?_⟩
  · rintro before last after rfl ended
    exact follows.silent ended
  · rintro before last after rfl ended k there
    obtain ⟨t, mem, u, shows⟩ := follows.reaches ended trivial there
    obtain ⟨earlier, later, rfl⟩ := List.append_of_mem mem
    refine ⟨earlier, t, later, rfl, ⟨u, shows⟩, fun t' mem' u' shows' => ?_⟩
    have order := (List.pairwise_append.mp follows.ascending).1
    have irrefl : compare k k ≠ .lt := by simp
    rcases List.mem_append.mp mem' with mem' | mem'
    · have pair := (List.pairwise_append.mp order).2.2 t' mem' t (List.mem_cons_self ..)
      exact irrefl (pair _ _ _ _ shows' shows)
    · have pair := List.rel_of_pairwise_cons (List.pairwise_append.mp order).2.1 mem'
      exact irrefl (pair _ _ _ _ shows shows')

end Follows

end ScriptMachine
