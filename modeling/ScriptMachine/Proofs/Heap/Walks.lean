import ScriptMachine.Proofs.Exec.Folding
import ScriptMachine.Proofs.Heap.Edits
import ScriptMachine.Proofs.Heap.WalkLog
import ScriptMachine.Proofs.Structure.Neighbours

/-!
# Walks over structures that change

Between the turns of a walk its structure may be edited in any way: it may grow, lose entries and
move to another layout. `Walking` says that the iterator has come to a position which the structure
can go on from: where entries are held by position, the last key is an integer. Edits keep that, and
a turn moves the position to the least key ahead of it.
-/

set_option autoImplicit false

namespace ScriptMachine

/-! ## Turns on the heap -/

/-- What a program does with a walk at hand. -/
inductive WalkMove (H : Type) where
  | turn
  | edit (op : HeapOp H)

/-- Between its turns nothing is done but edits. -/
def WalkMove.edits {H : Type} : WalkMove H → Bool
  | turn => true
  | edit op => op.edits

/-- An iterator that walks over the structure of a handle and has come to a position. What it puts
up are shares. -/
structure Iterator.Walks (it : Iterator) (y : Handle) (p : WalkPosition) : Prop where
  source : ∃ target, it.source = .walk target p ∧ target.ref? = some ⟨.struct, y⟩
  ended : it.state = .exhausted ↔ p = .done
  plain : ∀ v ∈ it.current ++ [it.key], v.owns = false

namespace Iterator

variable {it : Iterator} {y : Handle} {p : WalkPosition}

def putUp (it : Iterator) (target : Value) (key : Key) (u : Value) : List Value × Iterator :=
  { it with source := .walk target (.after key) }.publish key.toValue [u.share]

theorem walks_putUp (it : Iterator) {target : Value} (refers : target.ref? = some ⟨.struct, y⟩)
    (key : Key) (u : Value) : (it.putUp target key u).2.Walks y (.after key) := by
  refine ⟨⟨target, rfl, refers⟩, ?_, ?_⟩
  · simp [putUp, publish]
  · exact List.forall_mem_cons.mpr ⟨u.share_owns, List.forall_mem_singleton.mpr key.toValue_owns⟩

theorem Walks.finish (walks : it.Walks y p) : it.finish.2.Walks y .done := by
  obtain ⟨target, source, refers⟩ := walks.source
  refine ⟨⟨target, ?_, refers⟩, ?_, List.forall_mem_singleton.mpr rfl⟩
  · simp [Iterator.finish, source]
  · simp [Iterator.finish]

theorem walks_overStructure {target : Value} (refers : target.ref? = some ⟨.struct, y⟩) :
    (overStructure target).Walks y .start := by
  refine ⟨⟨target, rfl, refers⟩, ?_, List.forall_mem_singleton.mpr rfl⟩
  simp [overStructure]

end Iterator

namespace Heap

variable {H : Type} {h k : Heap H} {x y : Handle} {p : WalkPosition} {v w : Value}

def entriesAt (h : Heap H) (y : Handle) : List (Key × Value) :=
  match h.object? y with
  | some (.struct s) => s.entries
  | _ => []

def currentAt (h : Heap H) (x : Handle) : Value × List Value :=
  match h.object? x with
  | some (.iterator it) => (it.key, it.current)
  | _ => (.null, [])

def turn (x y : Handle) (h : Heap H) : WalkTurn × Heap H :=
  let (answer, k) := (advanceWalk x).outcome h
  let (key, values) := k.currentAt x
  (⟨h.entriesAt y, answer, key, values⟩, k)

/-- The log of the turns among moves. -/
def turns (x y : Handle) : List (WalkMove H) → Heap H → List WalkTurn
  | [], _ => []
  | .turn :: moves, h => (h.turn x y).1 :: turns x y moves (h.turn x y).2
  | .edit op :: moves, h => turns x y moves (op.perform.outcome h).2

structure Walking (x y : Handle) (p : WalkPosition) (h : Heap H) : Prop where
  orderly : h.Orderly []
  walk : h.Issued x
  walked : h.Issued y
  walks : ∀ o, h.object? x = some o → ∃ it, o = .iterator it ∧ it.Walks y p
  meets : ∀ k s, p = .after k → h.object? y = some (.struct s) → s.Meets k

theorem Walking.edit (walking : Walking x y p h) (edits : Edits h k) : Walking x y p k := by
  refine ⟨edits.orderly, edits.issued x walking.walk, edits.issued y walking.walked,
    fun o' found => ?_, fun key s' after found positional => ?_⟩
  · obtain ⟨o, found', kept⟩ := edits.kept x o' walking.walk found
    obtain ⟨it, rfl, walks⟩ := walking.walks o found'
    cases kept
    exact ⟨it, rfl, walks⟩
  · obtain ⟨o, found', kept⟩ := edits.kept y _ walking.walked found
    cases kept with
    | same => exact walking.meets key s' after found' positional
    | @widened s _ widens =>
      refine walking.meets key s after found' ?_
      rwa [Structure.Positional, widens.layout positional]

theorem openIterator_walking (orderly : h.Orderly []) (target : v.ref? = some ⟨.struct, y⟩) :
    (openIterator v).Ensures h
      (fun w k => ∀ x, w.ref? = some ⟨.iterator, x⟩ → Walking x y .start k) fun _ _ => True := by
  unfold openIterator
  simp only [target, Effect.ensures_bind, Effect.ensures_get]
  cases found : h.structureOf v with
  | error e => exact trivial
  | ok s =>
    simp only [Effect.ensures_bind, Effect.ensures_get, Effect.ensures_set, Effect.ensures_pure]
    obtain ⟨z, handle, object⟩ := structureOf_eq_ok found
    have same := (handleOf_eq_ok handle).symm.trans target
    cases same
    obtain ⟨x', answer, live, grown⟩ := Grown.alloc orderly (.iterator (.overStructure v))
    intro x walk
    rw [answer] at walk
    cases walk
    have orderly' := orderly.alloc (o := .iterator (.overStructure v)) trivial
    refine ⟨orderly', orderly'.issued live, grown.evolves.issued _ (orderly.issued object),
      fun o found => ?_, fun _ _ after => by cases after⟩
    rw [live] at found
    cases found
    exact ⟨_, rfl, Iterator.walks_overStructure target⟩

/-! ## One turn -/

def Turned (h : Heap H) (x y : Handle) (p : WalkPosition) (answer : Except Error Bool)
    (k : Heap H) : Prop :=
  ∃ p', WalkTurn.Moves ⟨h.entriesAt y, answer, (k.currentAt x).1, (k.currentAt x).2⟩ p p' ∧
    Walking x y p' k

theorem Walking.failed (walking : Walking x y p h) (e : Error) : Turned h x y p (.error e) h :=
  ⟨p, .failed rfl, walking⟩

theorem Walking.setIterator {it it' : Iterator} {p' : WalkPosition} (walking : Walking x y p h)
    (found : h.object? x = some (.iterator it)) (walks : it'.Walks y p')
    (meets : ∀ k s, p' = .after k → h.object? y = some (.struct s) → s.Meets k) :
    Walking x y p' (h.setObject x (.iterator it')) := by
  refine ⟨walking.orderly.setObject found trivial, (issued_setObject found x).mpr walking.walk,
    (issued_setObject found y).mpr walking.walked, fun o found' => ?_, fun k s after found' => ?_⟩
  · rw [object?_setObject found, if_pos rfl] at found'
    cases found'
    exact ⟨it', rfl, walks⟩
  · rw [object?_setObject found] at found'
    split at found'
    · cases found'
    · exact meets k s after found'

def probed : Option Key → WalkPosition
  | none => .start
  | some k => .after k

def reading (s : Structure) (probe : Option Key) : Option Key × Structure :=
  match probe with
  | none => s.firstKey?
  | some k => s.nextKey? k

def LeastAhead (entries : List (Key × Value)) (p : WalkPosition) : Option Key → Prop
  | none => ∀ e ∈ entries, ¬ p.Ahead e.1
  | some k => (∃ u, (k, u) ∈ entries) ∧ p.Ahead k ∧
      ∀ e ∈ entries, p.Ahead e.1 → compare e.1 k ≠ .lt

/-- The answer is the least key ahead; the entries and the layout stay. -/
theorem reading_spec {s : Structure} (valid : s.storage.Valid) (probe : Option Key)
    (meets : ∀ k, probe = some k → s.Meets k) :
    s.Read (reading s probe).2 ∧ (reading s probe).2.layout = s.layout ∧
      LeastAhead s.entries (probed probe) (reading s probe).1 := by
  cases probe with
  | none =>
    obtain ⟨first, read⟩ := Structure.firstKey?_spec valid
    refine ⟨read, Structure.layout_firstKey? s, ?_⟩
    show LeastAhead s.entries .start s.firstKey?.1
    cases answer : s.firstKey?.1 with
    | none =>
      rw [answer] at first
      intro e mem
      rw [show s.entries = [] from first] at mem
      exact (List.not_mem_nil mem).elim
    | some k =>
      rw [answer] at first
      obtain ⟨u, mem, least⟩ := first
      exact ⟨⟨u, mem⟩, trivial, fun e mem _ => least e mem⟩
  | some k₀ =>
    have next := Structure.nextKey?_spec valid (meets k₀ rfl)
    refine ⟨Structure.nextKey?_read valid k₀, Structure.layout_nextKey? s k₀, ?_⟩
    show LeastAhead s.entries (.after k₀) (s.nextKey? k₀).1
    cases answer : (s.nextKey? k₀).1 <;> rw [answer] at next <;> exact next

/-- A walk asks its structure for the least key ahead, with a share of its value. The structure may
be read in another order of work afterwards, but it is at the same place and the walk as well. -/
theorem ensures_entryAfter {probe : Option Key} (walking : Walking x y (probed probe) h)
    {target : Value} (refers : target.ref? = some ⟨.struct, y⟩) :
    (entryAfter target probe).Ensures h
      (fun next k => Walking x y (probed probe) k ∧
        (∀ it, h.object? x = some (.iterator it) → k.object? x = some (.iterator it)) ∧
        LeastAhead (h.entriesAt y) (probed probe) (next.map Prod.fst) ∧
        ∀ key w, next = some (key, w) → (∃ u, (key, u) ∈ h.entriesAt y ∧ w = u.share) ∧
          ∀ s, k.object? y = some (.struct s) → s.Meets key)
      fun _ k => k = h := by
  unfold entryAfter readStructure
  refine ensures_changeStructure (fun e _ => rfl) fun y' s refers' _ object => ?_
  cases refers'.symm.trans refers
  have valid : s.storage.Valid := walking.orderly.valid.object? object
  obtain ⟨read, layout, least⟩ := reading_spec valid probe fun k same =>
    walking.meets k s (congrArg probed same) object
  have here : h.entriesAt y = s.entries := by
    unfold entriesAt
    rw [object]
  have edits := (Edits.refl walking.orderly).setStructure object read.valid (.inl layout)
  have edits := edits.withPools h.pools walking.orderly.clean
  refine ⟨walking.edit edits, fun it found => ?_, ?_, fun key w shown => ?_⟩
  · refine (object?_setObject object x).trans ?_
    rw [if_neg, found]
    rintro rfl
    cases found.symm.trans object
  · rw [here, Option.map_map]
    show LeastAhead s.entries _ (Option.map id (reading s probe).1)
    rwa [Option.map_id]
  · obtain ⟨key', answer, same⟩ := Option.map_eq_some_iff.mp shown
    cases same
    rw [show (reading s probe).1 = some key from answer] at least
    obtain ⟨⟨u, mem⟩, -, -⟩ := least
    have value : (reading s probe).2.get? key = some u := by
      rw [Structure.get?, read.valid.get?_eq]
      refine (SortedMap.lookup_eq_some_iff read.valid.ascending).mpr ?_
      rwa [← Structure.entries, read.entries]
    refine ⟨⟨u, here ▸ mem, ?_⟩, fun s' found positional => ?_⟩
    · show (((reading s probe).2.get? key).map Value.share).getD .null = _
      rw [value]
      rfl
    · have after : (h.setObject y (.struct (reading s probe).2)).object? y =
          some (.struct (reading s probe).2) := (object?_setObject object y).trans (if_pos rfl)
      cases after.symm.trans found
      refine Structure.Positional.int ?_ mem
      rwa [Structure.Positional, ← layout]

theorem publishNext_turned (probe : Option Key) (walking : Walking x y (probed probe) h)
    {it : Iterator} {target : Value} (found : h.object? x = some (.iterator it))
    (walks : it.Walks y (probed probe)) (refers : target.ref? = some ⟨.struct, y⟩) :
    (publishNext x target probe).Ensures h (fun b k => Turned h x y (probed probe) (.ok b) k)
      fun e k => Turned h x y (probed probe) (.error e) k := by
  unfold publishNext
  simp only [Effect.ensures_bind]
  refine (ensures_entryAfter walking refers).mono ?_ ?_
  · rintro next k ⟨walking', still, least, shown⟩
    have found' := still it found
    unfold changeIterator discardAll
    simp only [Effect.ensures_bind, Effect.ensures_get, Effect.ensures_liftM,
      iteratorAt_of_object? found', Effect.ensures_set, Effect.ensures_pure, Effect.ensures_modify]
    cases next with
    | none =>
      have plain : ∀ v ∈ it.finish.1, v.owns = false := walks.plain
      refine ⟨.done, .ended rfl least, ?_⟩
      show Walking x y .done ((k.setObject x (.iterator it.finish.2)).disposeAll it.finish.1)
      rw [disposeAll_of_not_owns plain]
      exact walking'.setIterator found' walks.finish fun _ _ after => by cases after
    | some entry =>
      obtain ⟨key, w⟩ := entry
      obtain ⟨⟨u, mem, rfl⟩, meets⟩ := shown key w rfl
      obtain ⟨-, ahead, lowest⟩ := least
      have plain : ∀ v ∈ (it.putUp target key u).1, v.owns = false := walks.plain
      show Turned h x y (probed probe) (.ok true)
        ((k.setObject x (.iterator (it.putUp target key u).2)).disposeAll (it.putUp target key u).1)
      rw [disposeAll_of_not_owns plain]
      have moved := walking'.setIterator found' (it.walks_putUp refers key u) (by
        rintro _ s ⟨⟩
        exact meets s)
      have current : (k.setObject x (.iterator (it.putUp target key u).2)).currentAt x =
          (key.toValue, [u.share]) := by
        unfold currentAt
        rw [object?_setObject found', if_pos rfl]
        rfl
      exact ⟨.after key, .shown ⟨rfl, mem, congrArg Prod.fst current, congrArg Prod.snd current⟩
        ahead lowest, moved⟩
  · rintro e k rfl
    exact walking.failed e

theorem advanceWalk_turned (walking : Walking x y p h) :
    (advanceWalk x).Ensures h (fun b k => Turned h x y p (.ok b) k)
      fun e k => Turned h x y p (.error e) k := by
  unfold advanceWalk
  simp only [Effect.ensures_bind, Effect.ensures_get, Effect.ensures_liftM]
  cases found : h.iteratorAt x with
  | error e => exact walking.failed e
  | ok it =>
    have object := iteratorAt_eq_ok found
    obtain ⟨it', same, walks⟩ := walking.walks _ object
    cases same
    obtain ⟨target, source, refers⟩ := walks.source
    by_cases ended : it.state = .exhausted
    · simp only [ended, if_true, Effect.ensures_pure]
      have done := walks.ended.mp ended
      exact ⟨.done, .ended rfl fun e _ ahead => by rwa [done] at ahead, done ▸ walking⟩
    · simp only [ended, if_false, source]
      cases p with
      | start => exact publishNext_turned none walking object walks refers
      | after k => exact publishNext_turned (some k) walking object walks refers
      | done => exact absurd (walks.ended.mpr rfl) ended

theorem Walking.turn (walking : Walking x y p h) :
    ∃ p', (h.turn x y).1.Moves p p' ∧ Walking x y p' (h.turn x y).2 := by
  have turned := advanceWalk_turned walking
  unfold Heap.turn Effect.outcome
  cases run : advanceWalk x h with
  | ok b k => exact (Effect.ensures_of_eq_ok run).mp turned
  | error e k => exact (Effect.ensures_of_eq_error run).mp turned

theorem Walking.follows (moves : List (WalkMove H)) :
    ∀ {p : WalkPosition} {h : Heap H}, (∀ move ∈ moves, move.edits = true) →
      Walking x y p h → Follows p (turns x y moves h) := by
  induction moves with
  | nil => exact fun _ _ => .nil _
  | cons move moves ih =>
    intro p h edits walking
    obtain ⟨edit, rest⟩ := List.forall_mem_cons.mp edits
    cases move with
    | turn =>
      obtain ⟨p', first, walking'⟩ := walking.turn
      exact .cons first (ih rest walking')
    | edit op =>
      have step := (perform_edits edit h (.refl walking.orderly)).outcome
      exact ih rest (walking.edit step)

/-- A walk over a structure keeps its promises whatever is done to the structure between its
turns. -/
theorem walk_in_key_order (orderly : h.Orderly []) (opened : openIterator v h = .ok w k)
    (target : v.ref? = some ⟨.struct, y⟩) (walk : w.ref? = some ⟨.iterator, x⟩)
    (moves : List (WalkMove H)) (edits : ∀ move ∈ moves, move.edits = true) :
    Walked (turns x y moves k) := by
  have start := (Effect.ensures_of_eq_ok opened).mp (openIterator_walking orderly target)
  exact (Walking.follows moves edits (start x walk)).walked

def walkedHeap : Heap Unit :=
  ((openIterator (.pointer ⟨.struct, 0, 0⟩)).outcome (({} : Heap Unit).allocStructure 0).2).2

def walkMoves : List (WalkMove Unit) :=
  let target := .pointer ⟨.struct, 0, 0⟩
  [.edit (.setChildKey target (.int 0) (.int 10)), .edit (.append target (.int 11) false), .turn,
    .edit (.deleteChild target (.int 1)), .edit (.setChildKey target (.bool true) (.int 12)),
    .edit (.setChildKey target (.str "a") (.int 13)), .turn, .turn, .turn]

theorem walk_in_key_order_migrating :
    (turns ⟨1, 0⟩ ⟨0, 0⟩ walkMoves walkedHeap).map WalkTurn.key = [.int 0, .str "a", .null, .null] ∧
      Walked (turns ⟨1, 0⟩ ⟨0, 0⟩ walkMoves walkedHeap) := by
  have orderly : (({} : Heap Unit).allocStructure 0).2.Orderly [] :=
    ((Edits.refl owned_empty.orderly).allocStructure 0).orderly
  exact ⟨by decide +kernel, walk_in_key_order orderly (v := .pointer ⟨.struct, 0, 0⟩)
    (w := .owned ⟨.iterator, 1, 0⟩) rfl rfl rfl walkMoves (by decide)⟩

end Heap

end ScriptMachine
