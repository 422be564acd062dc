import ScriptMachine.Pool

/-!
# Pools hand out empty objects

Whatever was given back to a pool, what lies idle in it is as good as new and at least as large as
its bucket. So an object that is handed out is a fresh one with room for the request.
-/

set_option autoImplicit false

namespace ScriptMachine

class LawfulPooled (α : Type) [Pooled α] : Prop where
  capacity_fresh : ∀ n, Pooled.capacity (Pooled.fresh n : α) = n
  drain_eq : ∀ object : α, (Pooled.drain object).2 = Pooled.fresh (Pooled.capacity object)

namespace Pool

theorem le_sizeAt_of_bucketFor? {capacity i : Nat} (found : bucketFor? capacity = some i) :
    capacity ≤ sizeAt i := by
  have := List.find?_some found
  simpa using this

theorem sizeAt_le_of_bucketOf? {capacity i : Nat} (found : bucketOf? capacity = some i) :
    sizeAt i ≤ capacity := by
  unfold bucketOf? at found
  split at found
  · rename_i range
    simp only [Option.some.injEq] at found
    subst found
    have low : 4 ≤ capacity := range.1
    have log : 2 ≤ capacity.log2 := (Nat.le_log2 (by omega)).mpr (by omega)
    have exponent : capacity.log2 - 2 + 2 = capacity.log2 := by omega
    rw [sizeAt, exponent]
    exact Nat.log2_self_le (by omega)
  · simp at found

variable {α : Type}

theorem bucket_set (p : Pool α) (stats : PoolStats) (i : Nat) (objects : List α) (j : Nat)
    {object : α}
    (mem : object ∈ ({ buckets := p.buckets.set i objects, stats } : Pool α).bucket j) :
    (j = i ∧ object ∈ objects) ∨ object ∈ p.bucket j := by
  simp only [bucket, List.getD_eq_getElem?_getD, List.getElem?_set] at mem ⊢
  by_cases same : i = j
  · subst same
    rw [if_pos rfl] at mem
    split at mem
    · exact Or.inl ⟨rfl, by simpa using mem⟩
    · simp at mem
  · rw [if_neg same] at mem
    exact Or.inr mem

variable [Pooled α]

/-- Idle objects are new ones of at least the size of their bucket. -/
def Clean (p : Pool α) : Prop :=
  ∀ i, ∀ object ∈ p.bucket i,
    object = Pooled.fresh (Pooled.capacity object) ∧ sizeAt i ≤ Pooled.capacity object

theorem clean_empty : Clean ({} : Pool α) := by
  intro i object mem
  have none : ({} : Pool α).bucket i = [] := by
    simp only [bucket, List.getD_eq_getElem?_getD, List.getElem?_replicate]
    split <;> rfl
  simp [none] at mem

variable {p : Pool α}

/-- What a pool hands out is new and large enough. -/
theorem Clean.checkout (clean : p.Clean) (capacity : Nat) :
    ∃ room, capacity ≤ room ∧ (p.checkout capacity).1 = Pooled.fresh room ∧
      (p.checkout capacity).2.Clean := by
  unfold Pool.checkout
  cases served : bucketFor? capacity with
  | none => exact ⟨capacity, Nat.le_refl _, rfl, clean⟩
  | some i =>
    have request := le_sizeAt_of_bucketFor? served
    simp only
    cases idle : p.bucket i with
    | nil => exact ⟨sizeAt i, request, rfl, clean⟩
    | cons object rest =>
      obtain ⟨fresh, room⟩ := clean i object (by rw [idle]; exact List.mem_cons_self ..)
      refine ⟨Pooled.capacity object, Nat.le_trans request room, fresh, ?_⟩
      intro j other mem
      rcases bucket_set p _ i rest j mem with ⟨rfl, left⟩ | left
      · exact clean j other (by rw [idle]; exact List.mem_cons_of_mem _ left)
      · exact clean j other left

variable [LawfulPooled α]

theorem Clean.checkin (clean : p.Clean) (object : α) : (p.checkin object).2.Clean := by
  unfold Pool.checkin
  simp only [LawfulPooled.drain_eq, LawfulPooled.capacity_fresh]
  cases bucket : bucketOf? (Pooled.capacity object) with
  | none => exact clean
  | some i =>
    have room := sizeAt_le_of_bucketOf? bucket
    dsimp only
    split
    · intro j other mem
      rcases bucket_set p _ i _ j mem with ⟨rfl, mem⟩ | mem
      · rcases List.mem_cons.mp mem with rfl | mem
        · rw [LawfulPooled.capacity_fresh]
          exact ⟨rfl, room⟩
        · exact clean j other mem
      · exact clean j other mem
    · exact clean

end Pool

instance : LawfulPooled Buffer := ⟨fun _ => rfl, fun _ => rfl⟩

end ScriptMachine
