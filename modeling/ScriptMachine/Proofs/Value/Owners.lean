import ScriptMachine.Structure.Basic

/-!
# Counting owners

How many owners of an object there are among some values. Lists of values are compared by these
counts alone: the order does not matter, nor do values that own nothing.
-/

set_option autoImplicit false

namespace ScriptMachine

def Value.owners (v : Value) (x : Handle) : Nat :=
  if v.owned?.map HeapRef.handle = some x then 1 else 0

/-- Number of owners of an object among some values. -/
def tally (x : Handle) : List Value → Nat
  | [] => 0
  | v :: vs => v.owners x + tally x vs

@[simp] theorem tally_nil (x : Handle) : tally x [] = 0 := rfl

@[simp] theorem tally_cons (x : Handle) (v : Value) (vs : List Value) :
    tally x (v :: vs) = v.owners x + tally x vs := rfl

@[simp] theorem tally_append (x : Handle) (vs ws : List Value) :
    tally x (vs ++ ws) = tally x vs + tally x ws := by
  induction vs with
  | nil => simp
  | cons v vs ih => simp [ih, Nat.add_assoc]

theorem tally_perm {vs ws : List Value} (perm : vs.Perm ws) (x : Handle) :
    tally x vs = tally x ws := by
  induction perm with
  | nil => rfl
  | cons v _ ih => simp [ih]
  | swap v w _ => simp [Nat.add_left_comm]
  | trans _ _ first second => exact first.trans second

@[simp] theorem tally_reverse (x : Handle) (vs : List Value) : tally x vs.reverse = tally x vs :=
  tally_perm vs.reverse_perm x

theorem tally_eq_zero {x : Handle} {vs : List Value} (none : ∀ v ∈ vs, v.owners x = 0) :
    tally x vs = 0 := by
  induction vs with
  | nil => rfl
  | cons v vs ih =>
    obtain ⟨first, rest⟩ := List.forall_mem_cons.mp none
    rw [tally_cons, first, ih rest]

theorem owners_le_tally {x : Handle} {v : Value} {vs : List Value} (mem : v ∈ vs) :
    v.owners x ≤ tally x vs := by
  induction vs with
  | nil => cases mem
  | cons w vs ih =>
    rw [tally_cons]
    rcases List.mem_cons.mp mem with rfl | mem
    · omega
    · have := ih mem
      omega

theorem exists_mem_of_tally_pos {x : Handle} {vs : List Value} (pos : 0 < tally x vs) :
    ∃ v ∈ vs, 0 < v.owners x := by
  induction vs with
  | nil => cases pos
  | cons v vs ih =>
    rw [tally_cons] at pos
    by_cases first : 0 < v.owners x
    · exact ⟨v, List.mem_cons_self .., first⟩
    · obtain ⟨w, mem, owner⟩ := ih (by omega)
      exact ⟨w, List.mem_cons_of_mem _ mem, owner⟩

namespace Value

variable {v : Value} {x : Handle} {ref : HeapRef}

theorem owners_eq_one (owner : v.owned? = some ref) : v.owners ref.handle = 1 := by
  simp [owners, owner]

theorem owners_eq_zero (plain : v.owned? = none) (x : Handle) : v.owners x = 0 := by
  simp [owners, plain]

theorem owned?_eq_none (plain : v.owns = false) : v.owned? = none := by
  unfold owns at plain
  unfold owned?
  cases content : v.content <;> simp_all

theorem owned?_of_owns (owns : v.owns = true) (refers : v.ref? = some ref) :
    v.owned? = some ref := by
  unfold Value.owns at owns
  unfold ref? at refers
  unfold owned?
  cases content : v.content <;> simp_all

theorem owned?_of_pos (pos : 0 < v.owners x) : ∃ ref, v.owned? = some ref ∧ ref.handle = x := by
  unfold owners at pos
  split at pos
  · rename_i named
    simpa using named
  · cases pos

@[simp] theorem owners_null : null.owners x = 0 := rfl

@[simp] theorem owners_scalar :
    (∀ i, (int i).owners x = 0) ∧ (∀ d, (float d).owners x = 0) ∧ (∀ s, (str s).owners x = 0) ∧
      (∀ b, (bool b).owners x = 0) ∧ ∀ i, (enum i).owners x = 0 :=
  ⟨fun _ => rfl, fun _ => rfl, fun _ => rfl, fun _ => rfl, fun _ => rfl⟩

@[simp] theorem owners_owned (ref : HeapRef) :
    (owned ref).owners x = if ref.handle = x then 1 else 0 := by
  simp [owners, owned, owned?]

@[simp] theorem owners_share : v.share.owners x = 0 := by
  obtain ⟨content, flags⟩ := v
  cases content <;> rfl

theorem owned?_share : v.share.owned? = none := by
  obtain ⟨content, flags⟩ := v
  cases content <;> rfl

end Value

@[simp] theorem Structure.owners_attach (v : Value) (x : Handle) :
    (Structure.attach v).owners x = v.owners x := rfl

@[simp] theorem Structure.owners_detach (v : Value) (x : Handle) :
    (Structure.detach v).owners x = v.owners x := by
  rw [Structure.detach]
  rfl

@[simp] theorem Key.owners_toValue (k : Key) (x : Handle) : k.toValue.owners x = 0 := by
  cases k <;> rfl

theorem tally_map {f : Value → Value} (same : ∀ v x, (f v).owners x = v.owners x) (x : Handle)
    (vs : List Value) : tally x (vs.map f) = tally x vs := by
  induction vs with
  | nil => rfl
  | cons v vs ih => simp [ih, same]

@[simp] theorem tally_toList (x : Handle) (v : Option Value) :
    tally x v.toList = (v.map (·.owners x)).getD 0 := by
  cases v <;> simp

def SameOwners (vs ws : List Value) : Prop := ∀ x, tally x vs = tally x ws

namespace SameOwners

variable {vs ws us : List Value}

theorem refl (vs : List Value) : SameOwners vs vs := fun _ => rfl

theorem symm (same : SameOwners vs ws) : SameOwners ws vs := fun x => (same x).symm

theorem trans (first : SameOwners vs ws) (second : SameOwners ws us) : SameOwners vs us :=
  fun x => (first x).trans (second x)

theorem append {vs' ws' : List Value} (first : SameOwners vs ws) (second : SameOwners vs' ws') :
    SameOwners (vs ++ vs') (ws ++ ws') := fun x => by
  rw [tally_append, tally_append, first x, second x]

end SameOwners

/-- Values that own nothing. -/
def Bare (vs : List Value) : Prop := ∀ x, tally x vs = 0

/-! ## What an error carries -/

def Error.carried (e : Error) : List Value := e.thrown?.toList

end ScriptMachine
