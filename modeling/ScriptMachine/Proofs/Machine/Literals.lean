import ScriptMachine.Machine.Load
import ScriptMachine.Proofs.Exec.Reading
import ScriptMachine.Proofs.Heap.Appending
import ScriptMachine.Proofs.Heap.Packing
import ScriptMachine.Proofs.Structure.Insertion
import ScriptMachine.Proofs.Structure.Navigation

/-!
# Constant data on the heap

Constant data becomes a value with one structure for each list and each map. The structures hold
what was built for their parts, and hand it out under its position or its name, with one exception:
the empty text is a name that data may have, and no value stands for it as a key. An entry under it
is there, and a walk over the keys comes to it, but reading it gives `null`.

`Built` says which objects stand for data and is kept by whatever leaves these objects alone;
`ReadsAs` says what a program sees of them.
-/

set_option autoImplicit false

namespace ScriptMachine

/-! ## Lists and maps as parts under keys -/

namespace Literal

def value? : Literal → Option Value
  | .null => some .null
  | .bool b => some (.bool b)
  | .int v => some (.int v)
  | .float x => some (.float x)
  | .str s => some (.str s)
  | .list _ | .map _ => none

def numbered : (i : Nat) → List Literal → List (Key × Literal)
  | _, [] => []
  | i, item :: rest => (.int (Int64.ofNat i), item) :: numbered (i + 1) rest

def named (entries : List (String × Literal)) : List (Key × Literal) :=
  entries.map fun e => (.str e.1, e.2)

def parts? : Literal → Option (List (Key × Literal))
  | .list items => some (numbered 0 items)
  | .map entries => some (named entries)
  | _ => none

mutual

/-- Number of lists and maps. -/
def nodes : Literal → Nat
  | .list items => itemNodes items + 1
  | .map entries => entryNodes entries + 1
  | _ => 0

def itemNodes : List Literal → Nat
  | [] => 0
  | item :: rest => nodes item + itemNodes rest

def entryNodes : List (String × Literal) → Nat
  | [] => 0
  | (_, item) :: rest => nodes item + entryNodes rest

end

/-- Data whose lists have no more items than there are keys for, and whose maps have each name
once. -/
inductive Regular : Literal → Prop
  | value {item : Literal} {v : Value} (plain : item.value? = some v) : Regular item
  | list {items : List Literal} (short : items.length ≤ 2 ^ 63)
      (each : ∀ item ∈ items, Regular item) : Regular (.list items)
  | map {entries : List (String × Literal)} (distinct : (entries.map Prod.fst).Nodup)
      (each : ∀ e ∈ entries, Regular e.2) : Regular (.map entries)

theorem getElem?_numbered (items : List Literal) (n i : Nat) :
    (numbered n items)[i]? = items[i]?.map fun item => (.int (Int64.ofNat (n + i)), item) := by
  induction items generalizing n i with
  | nil => rfl
  | cons item items ih =>
    cases i with
    | zero => rfl
    | succ i => rw [numbered, List.getElem?_cons_succ, List.getElem?_cons_succ, ih,
        Nat.add_right_comm, Nat.add_assoc]

theorem snd_numbered (items : List Literal) (n : Nat) :
    (numbered n items).map Prod.snd = items := by
  induction items generalizing n with
  | nil => rfl
  | cons item items ih => rw [numbered, List.map_cons, ih]

theorem snd_named (entries : List (String × Literal)) :
    (named entries).map Prod.snd = entries.map Prod.snd := List.map_map

theorem keys_numbered (items : List Literal) (n : Nat) :
    (numbered n items).map Prod.fst =
      (List.range' n items.length).map fun m => Key.int (Int64.ofNat m) := by
  induction items generalizing n with
  | nil => rfl
  | cons item items ih => rw [numbered, List.map_cons, ih, List.length_cons, List.range'_succ,
      List.map_cons]

theorem distinct_numbered {items : List Literal} {n : Nat} (short : n + items.length ≤ 2 ^ 63) :
    ((numbered n items).map Prod.fst).Nodup := by
  rw [keys_numbered]
  refine List.pairwise_map.mpr (List.Pairwise.imp_of_mem (fun {a b} memA memB less same => ?_)
    List.pairwise_lt_range')
  rw [List.mem_range'_1] at memA memB
  have words := congrArg Int64.toInt (Key.int.inj same)
  rw [Int64.toInt_ofNat_of_lt (by omega), Int64.toInt_ofNat_of_lt (by omega)] at words
  omega

theorem distinct_named {entries : List (String × Literal)}
    (distinct : (entries.map Prod.fst).Nodup) : ((named entries).map Prod.fst).Nodup := by
  have names : (named entries).map Prod.fst = (entries.map Prod.fst).map Key.str := by
    rw [named, List.map_map, List.map_map]
    rfl
  rw [names]
  exact List.pairwise_map.mpr (distinct.imp fun ne same => ne (Key.str.inj same))

theorem nodes_of_value {item : Literal} {v : Value} (plain : item.value? = some v) :
    item.nodes = 0 := by
  cases item with
  | list | map => cases plain
  | _ => rw [nodes]; all_goals nofun

theorem entryNodes_eq (entries : List (String × Literal)) :
    entryNodes entries = itemNodes (entries.map Prod.snd) := by
  induction entries with
  | nil => rfl
  | cons e entries ih => rw [entryNodes, ih, List.map_cons, itemNodes]

theorem nodes_of_parts {item : Literal} {parts : List (Key × Literal)}
    (shape : item.parts? = some parts) :
    item.nodes = itemNodes (parts.map Prod.snd) + 1 := by
  cases item with
  | list items =>
    cases shape
    rw [nodes, snd_numbered]
  | map entries =>
    cases shape
    rw [nodes, entryNodes_eq, snd_named]
  | _ => cases shape

theorem key_of_part {item : Literal} {parts : List (Key × Literal)}
    (shape : item.parts? = some parts) {key : Key} (mem : key ∈ parts.map Prod.fst) :
    (∃ i, key = .int i) ∨ ∃ name, key = .str name := by
  obtain ⟨⟨key, part⟩, inside, rfl⟩ := List.mem_map.mp mem
  cases item with
  | list items =>
    cases shape
    obtain ⟨i, here⟩ := List.mem_iff_getElem?.mp inside
    rw [getElem?_numbered, Option.map_eq_some_iff] at here
    obtain ⟨item, -, same⟩ := here
    exact .inl ⟨_, (congrArg Prod.fst same).symm⟩
  | map entries =>
    cases shape
    obtain ⟨e, -, same⟩ := List.mem_map.mp inside
    exact .inr ⟨_, (congrArg Prod.fst same).symm⟩
  | _ => cases shape

end Literal

namespace Heap

open Structure (Contents)

variable {H : Type} {g h j k : Heap H} {x : Handle} {xs ys : List Handle} {v : Value}
  {us vs : List Value} {items : List Literal} {item : Literal} {key : Key}
  {done parts : List (Key × Literal)}

def fillParts (target : Value) : List (Key × Literal) → HeapM H Unit
  | [] => return ()
  | (key, item) :: rest => do
    setChildKey target key (← ofLiteral item)
    fillParts target rest

theorem fillItems_eq (target : Value) (items : List Literal) :
    ∀ i, (fillItems target i items : HeapM H Unit) =
      fillParts target (Literal.numbered i items) := by
  induction items with
  | nil => intro i; rw [fillItems]; rfl
  | cons item items ih =>
    intro i
    rw [fillItems, Literal.numbered, fillParts]
    simp only [ih]

theorem fillEntries_eq (target : Value) (entries : List (String × Literal)) :
    (fillEntries target entries : HeapM H Unit) = fillParts target (Literal.named entries) := by
  induction entries with
  | nil => rw [fillEntries]; rfl
  | cons e entries ih =>
    rw [fillEntries, Literal.named, List.map_cons, fillParts, ih]
    rfl

theorem ofLiteral_of_value (plain : item.value? = some v) (h : Heap H) :
    ofLiteral item h = .ok v h := by
  cases item with
  | list | map => cases plain
  | _ => cases plain; rw [ofLiteral]; rfl

theorem ofLiteral_of_parts (shape : item.parts? = some parts) {target : Value} {h₁ k : Heap H}
    (opened : h.allocStructure parts.length = (target, h₁))
    (filled : fillParts target parts h₁ = .ok () k) : ofLiteral item h = .ok target k := by
  cases item with
  | list items =>
    cases shape
    have length : (Literal.numbered 0 items).length = items.length := by
      rw [← List.length_map (f := Prod.snd), Literal.snd_numbered]
    rw [length] at opened
    rw [ofLiteral]
    simp only [fillItems_eq]
    apply Effect.eq_ok_of_ensures
    simp only [Effect.ensures_bind, Effect.ensures_get, opened, Effect.ensures_set,
      Effect.ensures_onFailure]
    rw [Effect.ensures_of_eq_ok filled]
    exact ⟨rfl, rfl⟩
  | map entries =>
    cases shape
    rw [Literal.named, List.length_map] at opened
    rw [ofLiteral]
    simp only [fillEntries_eq]
    apply Effect.eq_ok_of_ensures
    simp only [Effect.ensures_bind, Effect.ensures_get, opened, Effect.ensures_set,
      Effect.ensures_onFailure]
    rw [Effect.ensures_of_eq_ok filled]
    exact ⟨rfl, rfl⟩
  | _ => cases shape

/-! ## What stands for data -/

/-- The values in `h` are those that data is built as: a value, or the owner of a structure with
what was built for the parts under their keys. The handles of the structures are listed. -/
inductive Built (h : Heap H) : List Literal → List Value → List Handle → Prop
  | nil : Built h [] [] []
  | value {item : Literal} {v : Value} {items : List Literal} {vs : List Value} {xs : List Handle}
      (plain : item.value? = some v) (rest : Built h items vs xs) :
      Built h (item :: items) (v :: vs) xs
  | node {item : Literal} {parts : List (Key × Literal)} {x : Handle} {us vs : List Value}
      {xs ys : List Handle} {items : List Literal} (shape : item.parts? = some parts)
      (distinct : (parts.map Prod.fst).Nodup)
      (maps : h.Maps x (Contents.empty.putAll ((parts.map Prod.fst).zip us)))
      (built : Built h (parts.map Prod.snd) us xs) (rest : Built h items vs ys) :
      Built h (item :: items) (.owned ⟨.struct, x⟩ :: vs) (x :: xs ++ ys)

theorem Maps.frame {m : Contents} (maps : h.Maps x m) (clean : k.pools.structures.Clean)
    (same : k.object? x = h.object? x) : k.Maps x m := by
  obtain ⟨s, found, plain, holds⟩ := maps
  exact ⟨s, same.trans found, plain, { holds with clean }⟩

namespace Built

theorem length (built : Built h items vs xs) : vs.length = items.length := by
  induction built with
  | nil => rfl
  | value _ _ ih => exact congrArg (· + 1) ih
  | node _ _ _ _ _ _ ih => exact congrArg (· + 1) ih

/-- One structure stands for each list and each map. -/
theorem nodes (built : Built h items vs xs) : xs.length = Literal.itemNodes items := by
  induction built with
  | nil => rfl
  | value plain _ ih =>
    rw [ih, Literal.itemNodes, Literal.nodes_of_value plain, Nat.zero_add]
  | node shape _ _ _ _ ihParts ihRest =>
    rw [List.cons_append, List.length_cons, List.length_append, ihParts, ihRest,
      Literal.itemNodes, Literal.nodes_of_parts shape]
    omega

/-- What happens to other objects does not matter to what was built. -/
theorem frame (built : Built h items vs xs) (clean : k.pools.structures.Clean)
    (same : ∀ x ∈ xs, k.object? x = h.object? x) : Built k items vs xs := by
  induction built with
  | nil => exact .nil
  | value plain _ ih => exact .value plain (ih same)
  | node shape distinct maps _ _ ihParts ihRest =>
    refine .node shape distinct (maps.frame clean (same _ (List.mem_cons_self ..)))
      (ihParts fun x mem => same x ?_) (ihRest fun x mem => same x ?_)
    · exact List.mem_cons_of_mem _ (List.mem_append_left _ mem)
    · exact List.mem_cons_of_mem _ (List.mem_append_right _ mem)

theorem append {items' : List Literal} {vs' : List Value} (first : Built h items vs xs)
    (second : Built h items' vs' ys) : Built h (items ++ items') (vs ++ vs') (xs ++ ys) := by
  induction first with
  | nil => exact second
  | value plain _ ih => exact .value plain ih
  | node shape distinct maps built _ _ ih =>
    rw [List.append_assoc]
    exact .node shape distinct maps built ih

theorem mem_of_owns (built : Built h [item] [v] xs) (owns : v.owns = true) :
    ∃ x ∈ xs, v.ref? = some ⟨.struct, x⟩ := by
  cases built with
  | value plain =>
    cases item with
    | list | map => cases plain
    | _ => cases plain; cases owns
  | node => exact ⟨_, List.mem_cons_self .., rfl⟩

end Built

/-! ## Filling a structure -/

/-- The keys of parts with the values that were built for them. -/
def placed (done : List (Key × Literal)) (us : List Value) : List (Key × Value) :=
  (done.map Prod.fst).zip us

theorem placed_concat (length : us.length = done.length) (part : Key × Literal) (v : Value) :
    placed (done ++ [part]) (us ++ [v]) = placed done us ++ [(part.1, v)] := by
  rw [placed, List.map_append, List.zip_append (by rw [List.length_map, length])]
  rfl

theorem fst_placed (length : us.length = done.length) :
    (placed done us).map Prod.fst = done.map Prod.fst :=
  List.map_fst_zip (Nat.le_of_eq (by rw [List.length_map, length]))

theorem putAll_placed (distinct : (done.map Prod.fst).Nodup) (length : us.length = done.length)
    {w : Value} : Contents.empty.putAll (placed done us) key = some w ↔
      ∃ v, (key, v) ∈ placed done us ∧ w = Structure.attach v := by
  rw [Contents.putAll_eq_some (by rw [fst_placed length]; exact distinct) fun _ _ => rfl]
  exact or_iff_right nofun

theorem putAll_placed_eq_none (distinct : (done.map Prod.fst).Nodup)
    (length : us.length = done.length) (new : key ∉ done.map Prod.fst) :
    Contents.empty.putAll (placed done us) key = none := by
  cases held : Contents.empty.putAll (placed done us) key with
  | none => rfl
  | some w =>
    obtain ⟨v, mem, -⟩ := (putAll_placed distinct length).mp held
    rw [← fst_placed length] at new
    exact absurd (List.mem_map_of_mem mem) new

/-- To put a value under a new key of a structure that it does not own itself. -/
theorem setChildKey_new (orderly : j.Orderly []) {m : Contents} (maps : j.Maps x m)
    (free : m key = none) (apart : v.owns = true → v.ref? ≠ some ⟨.struct, x⟩) :
    ∃ k, setChildKey (.owned ⟨.struct, x⟩) key v j = .ok () k ∧ k.Orderly [] ∧ j.Evolves k ∧
      k.Maps x (m.put key v) ∧ j.Beside x k := by
  obtain ⟨s, object, plain, -⟩ := id maps
  have found : (j.structureFor (.owned ⟨.struct, x⟩) fun _ => [.write key]) = .ok s :=
    structureFor_eq_ok.mpr ⟨structureOf_of_object? rfl object,
      Structure.not_overflows_of_not_ring plain _⟩
  have done : (setChildKey (.owned ⟨.struct, x⟩) key v).Ensures j (fun _ _ => True)
      fun _ _ => False := by
    have other : (v.owns && v.ref? == (Value.owned ⟨.struct, x⟩).ref?) = false := by
      cases owns : v.owns with
      | false => rfl
      | true => simpa [Value.ref?, Value.owned] using apart owns
    unfold setChildKey
    simp only [other, Bool.false_eq_true, if_false, Effect.ensures_bind, Effect.ensures_get, found]
    refine ensures_changeStructure (fun e missing => ?_) fun _ _ _ _ _ => trivial
    rw [found] at missing
    cases missing
  cases run : setChildKey (.owned ⟨.struct, x⟩) key v j with
  | error e k => exact ((Effect.ensures_of_eq_error run).mp done).elim
  | ok _ k =>
    obtain ⟨maps, beside⟩ := (Effect.ensures_of_eq_ok run).mp (maps_setChildKey maps key free v)
    have edits := (Effect.ensures_of_eq_ok run).mp (setChildKey_edits _ key v j (.refl orderly))
    have later := (Effect.ensures_of_eq_ok run).mp
      (setChildKey_keeps Object.Stable.true _ key v j orderly.plain)
    exact ⟨k, rfl, edits.orderly, later.evolves, maps, beside⟩

theorem Grown.beside (grown : Grown xs g j) (mem : x ∈ xs) (evolves : j.Evolves k)
    (there : (k.object? x).isSome) (beside : j.Beside x k) : Grown xs g k := by
  refine ⟨grown.evolves.trans evolves, grown.nodup, grown.fresh, fun y mem => ?_, fun y new => ?_⟩
  · by_cases same : y = x
    · exact same ▸ there
    · rw [beside y same]
      exact grown.there y mem
  · rw [beside y fun same => new (same ▸ mem)]
    exact grown.same y new

def Builds (H : Type) (item : Literal) : Prop :=
  ∀ h : Heap H, h.Orderly [] → ∃ v k xs, ofLiteral item h = .ok v k ∧ k.Orderly [] ∧
    Grown xs h k ∧ Built k [item] [v] xs

structure Filling (g : Heap H) (x : Handle) (done : List (Key × Literal)) (us : List Value)
    (xs : List Handle) (h : Heap H) : Prop where
  orderly : h.Orderly []
  grown : Grown (x :: xs) g h
  maps : h.Maps x (Contents.empty.putAll (placed done us))
  built : Built h (done.map Prod.snd) us xs

namespace Filling

theorem length (filling : Filling g x done us xs h) : us.length = done.length := by
  rw [filling.built.length, List.length_map]

theorem step (filling : Filling g x done us xs h) {part : Key × Literal}
    (distinct : ((done ++ [part]).map Prod.fst).Nodup) (builds : Builds H part.2) :
    ∃ v j k ys, ofLiteral part.2 h = .ok v j ∧
      setChildKey (.owned ⟨.struct, x⟩) part.1 v j = .ok () k ∧
      Filling g x (done ++ [part]) (us ++ [v]) (xs ++ ys) k := by
  obtain ⟨v, j, ys, built, orderly, grown, item⟩ := builds h filling.orderly
  rw [List.map_append, List.nodup_append] at distinct
  obtain ⟨before, -, new⟩ := distinct
  have apart : ∀ y, h.Issued y → y ∉ ys := fun y issued mem => grown.fresh y mem issued
  have old : ∀ y ∈ x :: xs, h.Issued y := fun y mem => by
    obtain ⟨o, live⟩ := Option.isSome_iff_exists.mp (filling.grown.there y mem)
    exact filling.orderly.issued live
  have kept : ∀ y ∈ x :: xs, j.object? y = h.object? y := fun y mem =>
    grown.object?_of_issued (old y mem)
  have maps := filling.maps.frame orderly.clean.structures (kept x (List.mem_cons_self ..))
  have free := putAll_placed_eq_none before filling.length
    fun mem => new _ mem _ (List.mem_singleton.mpr rfl) rfl
  obtain ⟨k, run, orderly', evolves, maps', beside⟩ := setChildKey_new (v := v) orderly maps free
    fun owns same => by
      obtain ⟨y, mem, refers⟩ := item.mem_of_owns owns
      cases refers.symm.trans same
      exact apart _ (old _ (List.mem_cons_self ..)) mem
  have first : x ∉ xs := (List.nodup_cons.mp filling.grown.nodup).1
  have last : x ∉ ys := apart x (old x (List.mem_cons_self ..))
  refine ⟨v, j, k, ys, built, run, orderly', ?_, ?_, ?_⟩
  · refine (filling.grown.trans filling.orderly grown).beside (List.mem_cons_self ..) evolves ?_
      beside
    obtain ⟨s, found, -⟩ := maps'
    rw [found]
    rfl
  · rw [placed_concat filling.length, Contents.putAll, List.foldl_append]
    exact maps'
  · rw [List.map_append]
    refine Built.append ?_ ?_
    · refine filling.built.frame orderly'.clean.structures fun y mem => ?_
      rw [beside y fun same => first (same ▸ mem), kept y (List.mem_cons_of_mem _ mem)]
    · exact item.frame orderly'.clean.structures fun y mem => beside y fun same => last (same ▸ mem)

theorem run (rest : List (Key × Literal)) (builds : ∀ part ∈ rest, Builds H part.2) :
    ∀ {done us xs h}, Filling g x done us xs h → ((done ++ rest).map Prod.fst).Nodup →
      ∃ k vs ys, fillParts (.owned ⟨.struct, x⟩) rest h = .ok () k ∧
        Filling g x (done ++ rest) vs ys k := by
  induction rest with
  | nil =>
    intro done us xs h filling _
    exact ⟨h, us, xs, rfl, by rwa [List.append_nil]⟩
  | cons part rest ih =>
    intro done us xs h filling distinct
    obtain ⟨first, others⟩ := List.forall_mem_cons.mp builds
    have split : done ++ part :: rest = (done ++ [part]) ++ rest := by simp
    rw [split] at distinct ⊢
    have here : ((done ++ [part]).map Prod.fst).Nodup := by
      rw [List.map_append] at distinct
      exact (List.nodup_append.mp distinct).1
    obtain ⟨v, j, k, ys, built, set, filling'⟩ := filling.step here first
    obtain ⟨l, vs, zs, filled, final⟩ := ih others filling' distinct
    refine ⟨l, vs, zs, ?_, final⟩
    rw [fillParts]
    simp only [bind, EStateM.bind, built, set, filled]

end Filling

theorem Filling.start (orderly : g.Orderly []) (capacity : Nat) :
    ∃ x, (g.allocStructure capacity).1 = .owned ⟨.struct, x⟩ ∧
      Filling g x [] [] [] (g.allocStructure capacity).2 := by
  obtain ⟨valid, unbounded, empty, clean⟩ := Structure.new_spec orderly.clean.structures capacity
  have ready := orderly.withPools { g.pools with structures :=
    (Structure.new g.pools.structures capacity).2 } ⟨clean, orderly.clean.values⟩
  obtain ⟨x, answer, found, grown⟩ :=
    Grown.alloc ready (.struct (Structure.new g.pools.structures capacity).1)
  have made : (g.allocStructure capacity).2.Orderly [] := ready.alloc (o := .struct _) valid
  refine ⟨x, answer, made, grown.ofPools orderly, ⟨_, found, nofun, ?_⟩, .nil⟩
  refine ⟨valid, unbounded, made.clean.structures, fun k => ?_, fun _ _ held => by cases held⟩
  rw [show (Structure.new g.pools.structures capacity).1.entries = [] from empty]
  rfl

theorem builds_of_parts (shape : item.parts? = some parts)
    (distinct : (parts.map Prod.fst).Nodup) (builds : ∀ part ∈ parts, Builds H part.2) :
    Builds H item := by
  intro h orderly
  obtain ⟨x, target, start⟩ := Filling.start orderly parts.length
  obtain ⟨k, vs, ys, filled, done⟩ := Filling.run parts builds start (by simpa using distinct)
  have opened : h.allocStructure parts.length =
      (.owned ⟨.struct, x⟩, (h.allocStructure parts.length).2) := Prod.ext target rfl
  refine ⟨.owned ⟨.struct, x⟩, k, x :: ys, ofLiteral_of_parts shape opened filled, done.orderly,
    done.grown, ?_⟩
  have node := Built.node shape distinct done.maps done.built .nil
  rwa [List.append_nil] at node

theorem builds_of_regular (regular : item.Regular) : Builds H item := by
  induction regular with
  | value plain =>
    intro h orderly
    exact ⟨_, h, [], ofLiteral_of_value plain h, orderly, .refl h, .value plain .nil⟩
  | @list items short each ih =>
    refine builds_of_parts rfl (Literal.distinct_numbered (by omega)) fun part mem => ih _ ?_
    rw [← Literal.snd_numbered items 0]
    exact List.mem_map_of_mem mem
  | @map entries distinct each ih =>
    refine builds_of_parts rfl (Literal.distinct_named distinct) fun part mem => ?_
    obtain ⟨e, inside, rfl⟩ := List.mem_map.mp mem
    exact ih e inside

/-! ## Reading back -/

def readAs (key : Key) (entry : Value) : Value := if key = .str "" then .null else entry.share

def WalkReads (h : Heap H) (target : Value) : Prop :=
  ∃ s keys, h.structureOf target = .ok s ∧ Structure.Visits Structure.nextKey? s.firstKey? keys ∧
    keys.length = s.size ∧ ∀ key ∈ keys, ∃ entry, s.get? key = some entry ∧
      h.getChild target key.toValue = .ok (readAs key entry)

/-- A value reads as data: its entries, under their positions or names, are shares of the children
that read as the parts. The child under the empty name is there, and `null` is read. -/
inductive ReadsAs (h : Heap H) : Literal → Value → Prop
  | value {item : Literal} {v : Value} (plain : item.value? = some v) : ReadsAs h item v
  | list {items : List Literal} {target : Value} {children : List Value}
      (length : children.length = items.length)
      (reads : ∀ (i : Nat) (child : Value), children[i]? = some child →
        h.getChild target (.int (Int64.ofNat i)) = .ok child.share)
      (each : ∀ (i : Nat) (item : Literal) (child : Value), items[i]? = some item →
        children[i]? = some child → ReadsAs h item child)
      (walk : h.WalkReads target) : ReadsAs h (.list items) target
  | map {entries : List (String × Literal)} {target : Value} {children : List Value}
      (length : children.length = entries.length)
      (reads : ∀ (i : Nat) (name : String) (item : Literal) (child : Value),
        entries[i]? = some (name, item) → children[i]? = some child →
        h.getChild target (.str name) = .ok (if name = "" then .null else child.share))
      (each : ∀ (i : Nat) (name : String) (item : Literal) (child : Value),
        entries[i]? = some (name, item) → children[i]? = some child → ReadsAs h item child)
      (walk : h.WalkReads target) : ReadsAs h (.map entries) target

theorem getChild_toValue {target : Value} {s : Structure} {entry : Value}
    (found : h.structureOf target = .ok s) (plain : s.layout ≠ .ring)
    (held : s.get? key = some entry)
    (kind : (∃ i, key = .int i) ∨ ∃ name, key = .str name) :
    h.getChild target key.toValue = .ok (readAs key entry) := by
  have safe := Structure.not_overflows_of_not_ring plain
  unfold readAs
  rcases kind with ⟨i, rfl⟩ | ⟨name, rfl⟩
  · rw [if_neg nofun]
    exact getChild_eq found rfl (safe _) held
  · by_cases empty : name = ""
    · subst empty
      rw [getChild, structureFor_eq_ok.mpr ⟨found, safe _⟩]
      rfl
    · have stands : Key.ofValue (Key.str name).toValue = .ok (.str name) := by
        show (if name = "" then _ else _) = _
        rw [if_neg empty]
      rw [if_neg fun same => empty (Key.str.inj same)]
      exact getChild_eq found stands (safe _) held

theorem share_attach (v : Value) : (Structure.attach v).share = v.share := by
  obtain ⟨content, flags⟩ := v
  cases content <;> simp [Structure.attach, Value.withFlags, Value.share, Flags.union, Flags.shared]

section Node
variable (shape : item.parts? = some parts) (distinct : (parts.map Prod.fst).Nodup)
  (maps : h.Maps x (Contents.empty.putAll (placed parts us))) (length : us.length = parts.length)
include shape distinct maps length

theorem walkReads_of_maps : h.WalkReads (.owned ⟨.struct, x⟩) := by
  obtain ⟨s, object, plain, holds⟩ := maps
  have valid : s.storage.Valid := holds.valid
  have found : h.structureOf (.owned ⟨.struct, x⟩) = .ok s := structureOf_of_object? rfl object
  have get : ∀ key, s.get? key = _ := fun key => (valid.get?_eq key).trans (holds.lookup key)
  refine ⟨s, s.keys.1, found, Structure.visits_upwards valid, ?_, fun key mem => ?_⟩
  · rw [(Structure.keys_spec valid).1, List.length_map]
    exact s.storage.size_eq.symm
  obtain ⟨entry, held⟩ := Option.isSome_iff_exists.mp ((Structure.mem_keys valid).mp mem)
  refine ⟨entry, held, getChild_toValue found plain held (Literal.key_of_part shape ?_)⟩
  rw [get] at held
  obtain ⟨v, mem, -⟩ := (putAll_placed distinct length).mp held
  rw [← fst_placed length]
  exact List.mem_map_of_mem mem

theorem getChild_of_maps {i : Nat} {part : Literal} {child : Value}
    (here : parts[i]? = some (key, part)) (there : us[i]? = some child) :
    h.getChild (.owned ⟨.struct, x⟩) key.toValue = .ok (readAs key child) := by
  obtain ⟨s, object, plain, holds⟩ := maps
  have valid : s.storage.Valid := holds.valid
  have found : h.structureOf (.owned ⟨.struct, x⟩) = .ok s := structureOf_of_object? rfl object
  have pair : (placed parts us)[i]? = some (key, child) := by
    rw [placed, List.getElem?_zip_eq_some, List.getElem?_map, here]
    exact ⟨rfl, there⟩
  have held : s.get? key = some (Structure.attach child) :=
    ((valid.get?_eq key).trans (holds.lookup key)).trans
      ((putAll_placed distinct length).mpr ⟨child, List.mem_of_getElem? pair, rfl⟩)
  have keyed : key ∈ parts.map Prod.fst := List.mem_map_of_mem (List.mem_of_getElem? here)
  rw [getChild_toValue found plain held (Literal.key_of_part shape keyed), readAs, share_attach, readAs]

end Node

theorem Built.readsAs (built : Built h items vs xs) :
    ∀ (i : Nat) (item : Literal) (v : Value), items[i]? = some item → vs[i]? = some v →
      h.ReadsAs item v := by
  induction built with
  | nil => intro i item v here; cases here
  | value plain _ ih =>
    intro i item v here there
    cases i with
    | zero =>
      cases here
      cases there
      exact .value plain
    | succ i => exact ih i item v here there
  | @node item parts x us vs xs ys items shape distinct maps built _ ihParts ihRest =>
    intro i item' v here there
    cases i with
    | succ i => exact ihRest i item' v here there
    | zero =>
      cases here
      cases there
      have length : us.length = parts.length := by rw [built.length, List.length_map]
      have walk := walkReads_of_maps shape distinct maps length
      have reads : ∀ (i : Nat) (key : Key) (part : Literal) (child : Value),
          parts[i]? = some (key, part) → us[i]? = some child →
          h.getChild (.owned ⟨.struct, x⟩) key.toValue = .ok (readAs key child) :=
        fun _ _ _ _ here there => getChild_of_maps shape distinct maps length here there
      cases item with
      | list items =>
        cases shape
        rw [Literal.snd_numbered] at ihParts
        have counted : us.length = items.length := by rw [built.length, Literal.snd_numbered]
        refine .list counted (fun i child there => ?_) ihParts walk
        have inside : i < items.length := counted ▸ (List.getElem?_eq_some_iff.mp there).1
        refine reads i (.int (Int64.ofNat i)) items[i] child ?_ there
        rw [Literal.getElem?_numbered, List.getElem?_eq_getElem inside, Nat.zero_add]
        rfl
      | map entries =>
        cases shape
        rw [Literal.snd_named] at ihParts
        have counted : us.length = entries.length := by
          rw [built.length, Literal.snd_named, List.length_map]
        refine .map counted (fun i name item child here there => ?_)
          (fun i name item child here there => ihParts i item child ?_ there) walk
        · have part : (Literal.named entries)[i]? = some (.str name, item) := by
            rw [Literal.named, List.getElem?_map, here]
            rfl
          have answer : readAs (.str name) child = if name = "" then .null else child.share := by
            simp [readAs]
          rw [← answer]
          exact reads i (.str name) item child part there
        · rw [List.getElem?_map, here]
          rfl
      | _ => cases shape

/-- Constant data is always built: one new structure for each list and each map, and no change to
the objects that were there. Every part is read back under its position or its name, on every level,
and every key that a walk comes to reads its own entry, except for the empty name, which reads as
`null` although its entry is there. -/
theorem ofLiteral_reads_back (orderly : h.Orderly []) (regular : item.Regular) :
    ∃ v k xs, ofLiteral item h = .ok v k ∧ Grown xs h k ∧ xs.length = item.nodes ∧
      k.live = h.live + item.nodes ∧ k.ReadsAs item v := by
  obtain ⟨v, k, xs, run, after, grown, built⟩ := builds_of_regular regular h orderly
  have count : xs.length = item.nodes := by
    rw [built.nodes, Literal.itemNodes, Literal.itemNodes, Nat.add_zero]
  exact ⟨v, k, xs, run, grown, count, count ▸ grown.live orderly after,
    built.readsAs 0 item v rfl rfl⟩

def unnamed : Literal :=
  .map [("", .int 1), ("a", .list [.str "b", .map []])]

theorem regular_unnamed : unnamed.Regular := by
  refine .map (by decide) fun e mem => ?_
  rcases List.mem_cons.mp mem with rfl | mem
  · exact .value rfl
  rw [List.mem_singleton.mp mem]
  refine .list (by decide) fun item mem => ?_
  rcases List.mem_cons.mp mem with rfl | mem
  · exact .value rfl
  rw [List.mem_singleton.mp mem]
  exact .map List.nodup_nil fun e mem => (List.not_mem_nil mem).elim

theorem ofLiteral_reads_back_unnamed : ({} : Heap Unit).Orderly [] ∧ unnamed.Regular ∧
    ∃ v k xs, ofLiteral unnamed ({} : Heap Unit) = .ok v k ∧ Grown xs {} k ∧ xs.length = 3 ∧
      k.live = 3 ∧ k.ReadsAs unnamed v := by
  have orderly : ({} : Heap Unit).Orderly [] := owned_empty.orderly
  exact ⟨orderly, regular_unnamed, ofLiteral_reads_back orderly regular_unnamed⟩

/-- The entry under the empty name is there and a walk comes to it, but it is not read. -/
theorem empty_name_reads_null : ∃ v k s,
    ofLiteral (.map [("", .int 1)]) ({} : Heap Unit) = .ok v k ∧ k.structureOf v = .ok s ∧
      s.get? (.str "") = some (Structure.attach (.int 1)) ∧ s.firstKey?.1 = some (.str "") ∧
      k.getChild v (.str "") = .ok .null ∧
      k.getChild v (Key.str "").toValue ≠ .ok (Structure.attach (.int 1)).share := by
  refine ⟨_, _, _, rfl, rfl, rfl, rfl, rfl, ?_⟩
  exact fun same => by cases same

end Heap

end ScriptMachine
