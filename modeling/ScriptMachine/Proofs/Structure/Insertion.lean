import ScriptMachine.Proofs.Structure.Neighbours
import ScriptMachine.Proofs.Structure.Refinement

/-!
# Order of insertion

A structure into which entries under different keys are set has the layout that these keys call for,
however it got there, and holds the same entries in whatever order they came.
-/

set_option autoImplicit false

namespace ScriptMachine

def Key.InRow (k : Key) : Prop := ∃ w : Int64, k = .int w ∧ 0 ≤ w.toInt ∧ w.toInt < 65536

def Key.IsText (k : Key) : Prop := ∃ text, k = .str text

theorem Key.InRow.not_isText {k : Key} (row : k.InRow) : ¬ k.IsText := by
  rintro ⟨text, rfl⟩
  obtain ⟨w, same, -⟩ := row
  cases same

theorem Dense.index?_eq_none_iff {k : Key} : Dense.index? k = none ↔ ¬ k.InRow := by
  cases k with
  | int w =>
    have inside : (Key.int w).InRow ↔ 0 ≤ w.toInt ∧ w.toInt < Dense.limit := by
      constructor
      · rintro ⟨_, same, low, high⟩
        cases same
        exact ⟨low, high⟩
      · rintro ⟨low, high⟩
        exact ⟨w, rfl, low, high⟩
    rw [Dense.index?, inside]
    split <;> simp_all
  | _ =>
    refine ⟨fun _ => ?_, fun _ => rfl⟩
    rintro ⟨_, same, -⟩
    cases same

/-! ## The layout that keys call for -/

inductive Layout.Fits (held : Key → Prop) : Layout → Prop
  | row (all : ∀ k, held k → k.InRow) : Fits held .dense
  | texts (some : ∃ k, held k) (all : ∀ k, held k → k.IsText) : Fits held .keyed
  | any (stray : ∃ k, held k ∧ ¬ k.InRow) (other : ∃ k, held k ∧ ¬ k.IsText) : Fits held .mixed

namespace Layout.Fits

variable {held : Key → Prop} {layout : Layout}

theorem dense_iff (fits : layout.Fits held) (some : ∃ k, held k) :
    layout = .dense ↔ ∀ k, held k → k.InRow := by
  cases fits with
  | row all => exact ⟨fun _ => all, fun _ => rfl⟩
  | texts _ all =>
    obtain ⟨k, here⟩ := some
    exact ⟨nofun, fun rows => absurd (all k here) (rows k here).not_isText⟩
  | any stray _ =>
    obtain ⟨k, here, out⟩ := stray
    exact ⟨nofun, fun rows => absurd (rows k here) out⟩

theorem keyed_iff (fits : layout.Fits held) (some : ∃ k, held k) :
    layout = .keyed ↔ ∀ k, held k → k.IsText := by
  cases fits with
  | row all =>
    obtain ⟨k, here⟩ := some
    exact ⟨nofun, fun texts => absurd (texts k here) (all k here).not_isText⟩
  | texts _ all => exact ⟨fun _ => all, fun _ => rfl⟩
  | any _ other =>
    obtain ⟨k, here, out⟩ := other
    exact ⟨nofun, fun texts => absurd (texts k here) out⟩

theorem mixed_of_not (fits : layout.Fits held) (dense : layout ≠ .dense) (keyed : layout ≠ .keyed) :
    layout = .mixed := by
  cases fits with
  | row _ => exact absurd rfl dense
  | texts _ _ => exact absurd rfl keyed
  | any _ _ => rfl

theorem unique {other : Layout} (one : layout.Fits held) (two : other.Fits held)
    (some : ∃ k, held k) : layout = other := by
  cases two with
  | row all => exact (one.dense_iff some).mpr all
  | texts _ all => exact (one.keyed_iff some).mpr all
  | any stray text =>
    obtain ⟨k, here, out⟩ := stray
    obtain ⟨k', here', out'⟩ := text
    refine one.mixed_of_not (fun dense => ?_) fun keyed => ?_
    · exact out ((one.dense_iff some).mp dense k here)
    · exact out' ((one.keyed_iff some).mp keyed k' here')

end Layout.Fits

namespace Structure

variable {s : Structure} {pools : StructurePools} {k : Key} {v : Value}

/-! ## One entry -/

theorem layout_migrate (s : Structure) (pools : StructurePools) (k : Key) :
    (s.migrate pools (s.storage.widened k)).1.layout = s.storage.widened k := by
  have table : s.storage.widened k = .keyed ∨ s.storage.widened k = .mixed := by
    unfold Storage.widened
    split
    · split
      · exact .inl rfl
      · exact .inr rfl
    · exact .inr rfl
  rcases table with keyed | mixed
  · rw [keyed]
    rfl
  · rw [mixed]
    rfl

theorem layout_placeWithin_reshaped {after : Structure × StructurePools}
    (reshaped : Reshaped s k v after) (attempts : Nat) :
    (after.1.placeWithin after.2 k v (attempts + 1)).2.1.layout = after.1.layout := by
  obtain ⟨old, storage, placed⟩ := reshaped.stores
  rw [placeWithin]
  simp only [placed]
  exact layout_place placed

theorem layout_set_taken (valid : s.storage.Valid) (clean : pools.Clean)
    (taken : s.storage.place k (attach v) ≠ .refused) :
    (s.set pools k v).2.1.layout = s.storage.layout := by
  show (s.placeWithin pools k (attach v) (2 + 1 + 1)).2.1.layout = s.layout
  rw [placeWithin]
  cases placed : s.storage.place k (attach v) with
  | stored old after => exact layout_place placed
  | needs capacity =>
    exact (layout_placeWithin_reshaped (grow_reshaped valid clean placed) 2).trans
      (layout_grow s pools capacity)
  | refused => exact absurd placed taken

theorem layout_set_refused (valid : s.storage.Valid) (clean : pools.Clean)
    (refused : s.storage.place k (attach v) = .refused) :
    (s.set pools k v).2.1.layout = s.storage.widened k := by
  show (s.placeWithin pools k (attach v) (2 + 1 + 1)).2.1.layout = s.storage.widened k
  rw [placeWithin, refused]
  exact (layout_placeWithin_reshaped (migrate_reshaped valid clean k (attach v)) 2).trans
    (layout_migrate s pools k)

theorem place_dense_refused {d : Dense} :
    (Storage.dense d).place k v = .refused ↔ ¬ k.InRow := by
  rw [← Dense.index?_eq_none_iff]
  cases found : Dense.index? k with
  | none => simp [Storage.place, Dense.place, found]
  | some i =>
    by_cases short : d.capacity ≤ i
    · simp [Storage.place, Dense.place, found, short]
    · simp [Storage.place, Dense.place, found, short]

theorem place_keyed_refused {t : Table String} :
    (Storage.keyed t).place k v = .refused ↔ ¬ k.IsText := by
  cases k with
  | str text =>
    refine ⟨fun placed => ?_, fun other => absurd ⟨text, rfl⟩ other⟩
    simp [Storage.place] at placed
  | _ =>
    refine ⟨fun _ => ?_, fun _ => rfl⟩
    rintro ⟨_, same⟩
    cases same

theorem place_mixed_taken {t : Table Key} : (Storage.mixed t).place k v ≠ .refused := by
  simp [Storage.place]

theorem Contents.isSome_put {m : Contents} {k' : Key} :
    (m.put k v k').isSome ↔ k' = k ∨ (m k').isSome := by
  unfold Contents.put
  by_cases same : k' = k
  · simp [same]
  · simp [same]

theorem Holds.size_eq_zero_iff {state : State} {m : Contents} (holds : Holds state m) :
    state.1.size = 0 ↔ ∀ k, ¬ (m k).isSome := by
  have size : state.1.size = state.1.entries.length := state.1.storage.size_eq
  rw [size, List.length_eq_zero_iff, List.eq_nil_iff_forall_not_mem]
  constructor
  · intro none k held
    obtain ⟨v, here⟩ := Option.isSome_iff_exists.mp held
    exact none (k, v) (holds.mem_iff.mpr here)
  · rintro none ⟨k, v⟩ mem
    exact none k (Option.isSome_iff_exists.mpr ⟨v, holds.mem_iff.mp mem⟩)

theorem fits_widened {d : Dense} {held : Key → Prop} (all : ∀ k, held k → k.InRow)
    (empty : d.size = 0 ↔ ∀ k, ¬ held k) (out : ¬ k.InRow) :
    ((Storage.dense d).widened k).Fits fun k' => k' = k ∨ held k' := by
  by_cases text : k.IsText
  · obtain ⟨text, rfl⟩ := text
    by_cases none : d.size = 0
    · rw [Storage.widened, if_pos none]
      refine .texts ⟨_, .inl rfl⟩ ?_
      rintro k' (rfl | here)
      · exact ⟨text, rfl⟩
      · exact absurd here (empty.mp none k')
    · rw [Storage.widened, if_neg none]
      obtain ⟨k', here⟩ := Classical.not_forall_not.mp (mt empty.mpr none)
      exact .any ⟨_, .inl rfl, out⟩ ⟨k', .inr here, (all k' here).not_isText⟩
  · have mixed : (Storage.dense d).widened k = .mixed := by
      cases k with
      | str k => exact absurd ⟨k, rfl⟩ text
      | _ => rfl
    rw [mixed]
    exact .any ⟨k, .inl rfl, out⟩ ⟨k, .inl rfl, text⟩

/-- Setting an entry leads from the layout that the keys call for to the one that they and the new
key call for. -/
theorem Holds.fits_set {state : State} {m : Contents} (holds : Holds state m)
    (fits : state.1.layout.Fits fun k => (m k).isSome) (k : Key) (v : Value) :
    (state.1.set state.2 k v).2.1.layout.Fits fun k' => (m.put k v k').isSome := by
  obtain ⟨s, pools⟩ := state
  have taken := layout_set_taken (k := k) (v := v) holds.valid holds.clean
  have refused := layout_set_refused (k := k) (v := v) holds.valid holds.clean
  have empty := holds.size_eq_zero_iff
  simp only [Contents.isSome_put]
  dsimp only at fits taken refused empty ⊢
  rw [Structure.layout] at fits
  rw [Structure.size] at empty
  cases storage : s.storage with
  | dense d =>
    rw [storage] at fits taken refused empty
    obtain ⟨all⟩ := fits
    by_cases row : k.InRow
    · rw [taken fun answer => place_dense_refused.mp answer row]
      refine .row ?_
      rintro k' (rfl | here)
      · exact row
      · exact all k' here
    · rw [refused (place_dense_refused.mpr row)]
      exact fits_widened all empty row
  | keyed t =>
    rw [storage] at fits taken refused
    cases fits with
    | texts some all =>
      obtain ⟨text, here⟩ := some
      by_cases isText : k.IsText
      · rw [taken fun answer => place_keyed_refused.mp answer isText]
        refine .texts ⟨k, .inl rfl⟩ ?_
        rintro k' (rfl | here)
        · exact isText
        · exact all k' here
      · rw [refused (place_keyed_refused.mpr isText)]
        refine .any ⟨text, .inr here, fun row => ?_⟩ ⟨k, .inl rfl, isText⟩
        exact row.not_isText (all text here)
  | mixed t =>
    rw [storage] at fits taken
    cases fits with
    | any stray other =>
      obtain ⟨one, here, out⟩ := stray
      obtain ⟨two, here', out'⟩ := other
      rw [taken place_mixed_taken]
      exact .any ⟨one, .inr here, out⟩ ⟨two, .inr here', out'⟩
  | ring r =>
    rw [storage] at fits
    cases fits

/-! ## Entries one after the other -/

def setAll (entries : List (Key × Value)) (state : State) : State :=
  entries.foldl (fun state e => (state.1.set state.2 e.1 e.2).2) state

def inserted (pools : StructurePools) (capacity : Nat) (entries : List (Key × Value)) : Structure :=
  (setAll entries (new pools capacity)).1

def Contents.putAll (entries : List (Key × Value)) (m : Contents) : Contents :=
  entries.foldl (fun m e => m.put e.1 e.2) m

theorem Contents.putAll_eq_some {entries : List (Key × Value)}
    (distinct : (entries.map Prod.fst).Nodup) {m : Contents} (fresh : ∀ e ∈ entries, m e.1 = none)
    {k : Key} {w : Value} :
    putAll entries m k = some w ↔ m k = some w ∨ ∃ v, (k, v) ∈ entries ∧ w = attach v := by
  induction entries generalizing m with
  | nil => simp [putAll]
  | cons e rest ih =>
    obtain ⟨k₀, v₀⟩ := e
    obtain ⟨away, distinct'⟩ := List.nodup_cons.mp distinct
    obtain ⟨free, fresh'⟩ := List.forall_mem_cons.mp fresh
    have free' : ∀ e ∈ rest, m.put k₀ v₀ e.1 = none := by
      intro e mem
      have listed : e.1 ∈ rest.map Prod.fst := List.mem_map_of_mem mem
      have other : e.1 ≠ k₀ := fun same => away (same ▸ listed)
      rw [put, if_neg other]
      exact fresh' e mem
    have first : m.put k₀ v₀ k = some w ↔ m k = some w ∨ (k = k₀ ∧ w = attach v₀) := by
      rw [put, attach_eq]
      by_cases same : k = k₀
      · subst same
        simp [show m k = none from free, eq_comm]
      · simp [same]
    rw [show putAll ((k₀, v₀) :: rest) m = putAll rest (m.put k₀ v₀) from rfl, ih distinct' free',
      first, or_assoc]
    refine or_congr_right ?_
    constructor
    · rintro (⟨rfl, rfl⟩ | ⟨v, mem, rfl⟩)
      · exact ⟨v₀, List.mem_cons_self .., rfl⟩
      · exact ⟨v, List.mem_cons_of_mem _ mem, rfl⟩
    · rintro ⟨v, mem, rfl⟩
      rcases List.mem_cons.mp mem with same | mem
      · cases same
        exact .inl ⟨rfl, rfl⟩
      · exact .inr ⟨v, mem, rfl⟩

theorem Holds.setAll (entries : List (Key × Value)) {state : State} {m : Contents}
    (holds : Holds state m) (fits : state.1.layout.Fits fun k => (m k).isSome) :
    Holds (setAll entries state) (m.putAll entries) ∧
      (setAll entries state).1.layout.Fits fun k => (m.putAll entries k).isSome := by
  induction entries generalizing state m with
  | nil => exact ⟨holds, fits⟩
  | cons e rest ih => exact ih (holds.set e.1 e.2).2 (holds.fits_set fits e.1 e.2)

/-- What becomes of a new structure into which entries were set. -/
structure Settled (entries : List (Key × Value)) (s : Structure) : Prop where
  valid : s.storage.Valid
  fits : s.layout.Fits fun k => k ∈ entries.map Prod.fst
  holds : ∀ k w, (k, w) ∈ s.entries ↔ ∃ v, (k, v) ∈ entries ∧ w = attach v

theorem settled_inserted (uses : List (Layout × Nat ⊕ Storage)) (capacity : Nat)
    {entries : List (Key × Value)} (distinct : (entries.map Prod.fst).Nodup) :
    Settled entries (inserted (usedPools uses) capacity entries) := by
  have start := holds_start uses (some capacity)
  have row : (new (usedPools uses) capacity).1.layout.Fits
      fun k => (Contents.empty k).isSome := .row fun _ held => by cases held
  obtain ⟨holds, fits⟩ := start.setAll entries row
  have put : ∀ k w, Contents.empty.putAll entries k = some w ↔
      ∃ v, (k, v) ∈ entries ∧ w = attach v := by
    intro k w
    rw [Contents.putAll_eq_some distinct fun _ _ => rfl]
    simp [Contents.empty]
  have held : (fun k => (Contents.empty.putAll entries k).isSome = true) =
      fun k => k ∈ entries.map Prod.fst := by
    funext k
    refine propext ⟨fun some => ?_, fun listed => ?_⟩
    · obtain ⟨w, here⟩ := Option.isSome_iff_exists.mp some
      obtain ⟨v, mem, -⟩ := (put k w).mp here
      exact List.mem_map_of_mem mem
    · obtain ⟨⟨_, v⟩, mem, rfl⟩ := List.mem_map.mp listed
      exact Option.isSome_iff_exists.mpr ⟨attach v, (put _ _).mpr ⟨v, mem, rfl⟩⟩
  rw [held] at fits
  exact ⟨holds.valid, fits, fun k w => holds.mem_iff.trans (put k w)⟩

/-- Structures into which the same entries were set cannot be told apart by layout or contents. -/
theorem Settled.unique {entries other : List (Key × Value)} {t : Structure}
    (one : Settled entries s) (two : Settled other t) (same : ∀ e, e ∈ other ↔ e ∈ entries)
    (some : entries ≠ []) :
    t.layout = s.layout ∧ t.keys.1 = s.keys.1 ∧ t.entries = s.entries := by
  have keys : ∀ k, k ∈ other.map Prod.fst ↔ k ∈ entries.map Prod.fst := by
    intro k
    simp only [List.mem_map, same]
  have layout : t.layout = s.layout := by
    have fits := two.fits
    simp only [keys] at fits
    obtain ⟨e, mem⟩ := List.exists_mem_of_ne_nil entries some
    exact fits.unique one.fits ⟨e.1, List.mem_map_of_mem mem⟩
  have held : t.entries = s.entries := by
    have ascending : SortedMap.Ascending s.entries := one.valid.ascending
    have ascending' : SortedMap.Ascending t.entries := two.valid.ascending
    refine SortedMap.eq_of_lookup_eq ascending' ascending fun k => Option.ext fun w => ?_
    rw [SortedMap.lookup_eq_some_iff ascending', SortedMap.lookup_eq_some_iff ascending,
      one.holds, two.holds]
    simp only [same]
  refine ⟨layout, ?_, held⟩
  rw [(keys_spec two.valid).1, (keys_spec one.valid).1, held]

/-- A new structure into which some entries under different keys were set is a row if their keys
are integers from zero to 65535, a table of texts if they are texts, and a mixed table otherwise. It
holds these entries, and whatever order they come in, whatever the capacity and whatever the pools
were used for, its layout, its keys and its entries are the same. -/
theorem insertion_order_unseen (uses : List (Layout × Nat ⊕ Storage)) (capacity : Nat)
    {entries : List (Key × Value)} (some : entries ≠ [])
    (distinct : (entries.map Prod.fst).Nodup) :
    let s := inserted (usedPools uses) capacity entries
    (s.layout = .dense ↔ ∀ k ∈ entries.map Prod.fst, k.InRow) ∧
      (s.layout = .keyed ↔ ∀ k ∈ entries.map Prod.fst, k.IsText) ∧
      (s.layout = .mixed ↔
        ¬ (∀ k ∈ entries.map Prod.fst, k.InRow) ∧ ¬ ∀ k ∈ entries.map Prod.fst, k.IsText) ∧
      (∀ k w, (k, w) ∈ s.entries ↔ ∃ v, (k, v) ∈ entries ∧ w = attach v) ∧
      ∀ uses' capacity' other, other.Perm entries →
        let t := inserted (usedPools uses') capacity' other
        t.layout = s.layout ∧ t.keys.1 = s.keys.1 ∧ t.entries = s.entries := by
  intro s
  have settled := settled_inserted uses capacity distinct
  obtain ⟨e, mem⟩ := List.exists_mem_of_ne_nil entries some
  have held : ∃ k, k ∈ entries.map Prod.fst := ⟨e.1, List.mem_map_of_mem mem⟩
  have dense := settled.fits.dense_iff held
  have keyed := settled.fits.keyed_iff held
  refine ⟨dense, keyed, ?_, settled.holds, fun uses' capacity' other perm => ?_⟩
  · rw [← dense, ← keyed]
    constructor
    · intro mixed
      rw [mixed]
      exact ⟨nofun, nofun⟩
    · rintro ⟨row, texts⟩
      exact settled.fits.mixed_of_not row texts
  · have distinct' : (other.map Prod.fst).Nodup := (perm.map Prod.fst).nodup_iff.mpr distinct
    exact settled.unique (settled_inserted uses' capacity' distinct') (fun _ => perm.mem_iff) some

/-- Two integers and two texts, as far as possible from their order. -/
def shuffled : List (Key × Value) :=
  [(.int 2, .int 20), (.str "b", .int 21), (.int 0, .int 22), (.str "a", .int 23)]

theorem insertion_order_unseen_reversed :
    shuffled ≠ [] ∧ (shuffled.map Prod.fst).Nodup ∧ shuffled.reverse.Perm shuffled ∧
      (inserted (usedPools []) 0 shuffled).layout = .mixed ∧
      (inserted (usedPools []) 0 shuffled).keys.1 = [.int 0, .int 2, .str "a", .str "b"] ∧
      (inserted (usedPools []) 3 shuffled.reverse).layout =
        (inserted (usedPools []) 0 shuffled).layout ∧
      (inserted (usedPools []) 3 shuffled.reverse).keys.1 =
        (inserted (usedPools []) 0 shuffled).keys.1 ∧
      (inserted (usedPools []) 3 shuffled.reverse).entries =
        (inserted (usedPools []) 0 shuffled).entries := by
  have distinct : (shuffled.map Prod.fst).Nodup := by decide
  obtain ⟨-, -, -, -, alike⟩ := insertion_order_unseen [] 0 (by simp [shuffled]) distinct
  exact ⟨by simp [shuffled], distinct, shuffled.reverse_perm, by decide, by decide,
    alike [] 3 _ shuffled.reverse_perm⟩

end Structure

end ScriptMachine
