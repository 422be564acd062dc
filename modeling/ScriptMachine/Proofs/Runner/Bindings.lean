import ScriptMachine.Machine.Run
import ScriptMachine.Proofs.Effect
import ScriptMachine.Proofs.Heap.Freed
import ScriptMachine.Runner.Bindings

/-!
# What a call of a host function of the runner releases

The arguments of a call and its receiver are the call's to dispose. `Heap.Released` says that this
was done: what the values reach is gone and counted off, and every other object is as it was.
Printing reads all arguments at once and disposes them, and a call that refuses its arguments
leaves them unread, so they are disposed at its end. A sleep reads its argument and drops it, so
the objects of a duration that owns some are lost.
-/

set_option autoImplicit false

namespace ScriptMachine

namespace Heap

variable {H : Type} {h j k : Heap H} {vs ws : List Value} {xs ys : List Handle} {x : Handle}

def Reached (h : Heap H) (vs : List Value) (x : Handle) : Prop := ∃ v ∈ vs, h.Reaches v x

/-- In `k` the objects that the values reach are gone and taken off the count, and every other
object is as it was. The count is exact if it was no smaller than the number of objects. -/
structure Released (h : Heap H) (vs : List Value) (k : Heap H) : Prop where
  gone : ∀ x, h.Reached vs x → k.object? x = none
  kept : ∀ x, ¬ h.Reached vs x → k.object? x = h.object? x
  counted : ∃ xs : List Handle, xs.Nodup ∧ (∀ x, x ∈ xs ↔ h.Reached vs x) ∧
    k.live = h.live - xs.length ∧ (h.occupied ≤ h.live → k.live + xs.length = h.live)

theorem below_iff_exists : h.Below vs x ↔ ∃ v ∈ vs, h.Below [v] x := by
  constructor
  · rintro ⟨y, pos, path⟩
    obtain ⟨v, mem, one⟩ := exists_mem_of_tally_pos pos
    exact ⟨v, mem, y, by simp [one], path⟩
  · rintro ⟨v, mem, below⟩
    apply below.mono
    intro y pos
    have inside := owners_le_tally (x := y) mem
    rw [tally_cons, tally_nil] at pos
    exact below_of_tally (by omega)

theorem reached_iff : h.Reached vs x ↔ (h.object? x).isSome ∧ h.Below vs x := by
  rw [below_iff_exists]
  simp only [Reached, reaches_iff]
  constructor
  · rintro ⟨v, mem, live, below⟩
    exact ⟨live, v, mem, below⟩
  · rintro ⟨live, v, mem, below⟩
    exact ⟨v, mem, live, below⟩

/-! ## Disposal of several values -/

theorem Frees.append (first : h.Frees vs xs j) (second : j.Frees ws ys k) :
    h.Frees (vs ++ ws) (xs ++ ys) k := by
  induction first with
  | done => exact second
  | skip nothing _ ih => exact .skip nothing (ih second)
  | free owner freed _ ih =>
    refine .free owner freed ?_
    have rest := ih second
    rwa [List.append_assoc] at rest

theorem frees_dispose (h : Heap H) (v : Value) : ∃ xs, h.Frees [v] xs (h.dispose v) := by
  unfold dispose
  split
  · exact frees_sweep h.occupied_le
  · rename_i plain
    have nothing : v.owned? = none := Value.owned?_eq_none (by simpa using plain)
    exact ⟨[], .skip (by simp [nothing]) (.done h)⟩

theorem frees_disposeAll (vs : List Value) (h : Heap H) :
    ∃ xs, h.Frees vs xs (h.disposeAll vs) := by
  induction vs generalizing h with
  | nil => exact ⟨[], .done h⟩
  | cons v vs ih =>
    obtain ⟨xs, first⟩ := h.frees_dispose v
    obtain ⟨ys, rest⟩ := ih (h.dispose v)
    exact ⟨xs ++ ys, first.append rest⟩

theorem mem_of_frees_disposeAll (run : h.Frees vs xs (h.disposeAll vs)) :
    x ∈ xs ↔ h.Reached vs x := by
  rw [reached_iff]
  have clears := clears_disposeAll vs h
  have after := run.object? x
  constructor
  · intro mem
    obtain ⟨o, found⟩ := Option.isSome_iff_exists.mp (run.live mem)
    refine ⟨run.live mem, Classical.byContradiction fun apart => ?_⟩
    rw [if_pos mem, clears.kept found apart id] at after
    cases after
  · rintro ⟨live, below⟩
    refine Classical.byContradiction fun apart => ?_
    rw [if_neg apart, clears.gone live below] at after
    simp [← after] at live

theorem released_disposeAll (h : Heap H) (vs : List Value) : h.Released vs (h.disposeAll vs) := by
  obtain ⟨xs, run⟩ := frees_disposeAll vs h
  have reached : ∀ x, x ∈ xs ↔ h.Reached vs x := fun x => mem_of_frees_disposeAll run
  obtain ⟨-, live, occupied⟩ := run.counts
  constructor
  · intro x mem
    rw [run.object? x, if_pos ((reached x).mpr mem)]
  · intro x apart
    rw [run.object? x, if_neg fun mem => apart ((reached x).mp mem)]
  · exact ⟨xs, run.nodup, reached, live, fun _ => by omega⟩

/-- The objects that are gone tell which values were released. -/
theorem Released.iff (released : h.Released vs k) :
    h.Released ws k ↔ ∀ x, h.Reached ws x ↔ h.Reached vs x := by
  constructor
  · intro other x
    have back : ∀ {us us' : List Value}, h.Released us k → h.Released us' k →
        h.Reached us x → h.Reached us' x := by
      intro us us' first second mem
      refine Classical.byContradiction fun apart => ?_
      have live := (reached_iff.mp mem).1
      rw [← second.kept x apart, first.gone x mem] at live
      cases live
    exact ⟨back other released, back released other⟩
  · intro same
    obtain ⟨gone, kept, counted⟩ := released
    simp only [← same] at gone kept counted
    exact ⟨gone, kept, counted⟩

end Heap

/-! ## The host functions -/

namespace Binding

/-- The duration of a sleep reaches an object that the receiver does not reach. -/
def Loses (b : Binding) (h : Heap Binding) (args : List Value) (this : Value) : Prop :=
  b = .sleep ∧ ∃ v, args = [v] ∧ ∃ x, h.Reaches v x ∧ ¬ h.Reaches this x

def disposed (b : Binding) (args : List Value) : List Value :=
  if b = .sleep ∧ args.length = 1 then [] else args

theorem finish_sleepTask (c : HostCall Binding) :
    (sleepTask c).2.finish = c.heap.disposeAll (sleep.disposed c.args ++ [c.this]) := by
  obtain ⟨path, cursor, this, args, heap, returned⟩ := c
  unfold sleepTask HostCall.expectArgs HostCall.remaining disposed
  match args with
  | [] => rfl
  | _ :: _ :: _ => simp [HostCall.finish, Heap.disposeAll]
  | [v] =>
    simp only [List.length_singleton, if_true, HostCall.arg, and_self]
    cases v.asInt with
    | error e => rfl
    | ok ms =>
      dsimp only
      split <;> rfl

/-- The arguments are gone however the writing ends. -/
theorem finish_printArgs (close : Effect Console Unit) (c : HostCall Binding) (console : Console) :
    (printArgs close c console).2.1.finish = c.heap.disposeAll (c.args ++ [c.this]) := by
  unfold printArgs
  dsimp only
  split <;> simp [HostCall.joinArgs, HostCall.rest, HostCall.finish, Heap.disposeAll]

theorem finish_call (b : Binding) (c : HostCall Binding) (console : Console) :
    (b.call c console).2.1.finish = c.heap.disposeAll (b.disposed c.args ++ [c.this]) := by
  cases b with
  | sleep => exact finish_sleepTask c
  | print => exact finish_printArgs Console.flush c console
  | println => exact finish_printArgs (Console.write "\n") c console

theorem sleepTask_of_owner {c : HostCall Binding} {v : Value} {ref : HeapRef} (args : c.args = [v])
    (owner : v.owned? = some ref) :
    (sleepTask c).1 =
      .failed ((Error.expected "int" v).within "time.sleep expects milliseconds") := by
  have content : v.content = .owned ref := by
    unfold Value.owned? at owner
    split at owner
    · rename_i held
      rw [held, Option.some.inj owner]
    · cases owner
  have fails : v.asInt = .error (.expected "int" v) := by simp [Value.asInt, content]
  simp [sleepTask, HostCall.expectArgs, HostCall.remaining, HostCall.arg, args, fails]

theorem loses_iff {b : Binding} {h : Heap Binding} {args : List Value} {this : Value} :
    b.Loses h args this ↔
      ¬ ∀ x, h.Reached (b.disposed args ++ [this]) x ↔ h.Reached (args ++ [this]) x := by
  by_cases takes : b = .sleep ∧ args.length = 1
  · obtain ⟨rfl, single⟩ := takes
    obtain ⟨v, rfl⟩ := List.length_eq_one_iff.mp single
    have lost : ∀ x, ¬ (h.Reached [this] x ↔ h.Reached [v, this] x) ↔
        h.Reaches v x ∧ ¬ h.Reaches this x := by
      intro x
      simp only [Heap.Reached, List.mem_cons, List.not_mem_nil, or_false, exists_eq_left,
        exists_eq_or_imp]
      by_cases held : h.Reaches this x <;> simp [held]
    simp [Loses, disposed, lost]
  · have kept : b.disposed args = args := if_neg takes
    have reads : ¬ b.Loses h args this := by
      rintro ⟨rfl, v, rfl, -⟩
      exact takes ⟨rfl, rfl⟩
    simp [reads, kept]

end Binding

namespace Session

variable {H W : Type}

theorem heap_takeReply (reply : HostReply × HostCall H × W) (s : Session H W) :
    ((takeReply reply).outcome s).2.machine.heap = reply.2.1.finish := by
  have ensures : (takeReply reply).Ensures s (fun _ t => t.machine.heap = reply.2.1.finish)
      fun _ t => t.machine.heap = reply.2.1.finish := by
    obtain ⟨reply, call, world⟩ := reply
    cases reply <;> simp [takeReply, deliver, drainChannel, changeJob, note, Machine.note]
  exact ensures.outcome

theorem callHost_eq (host : Host H W) (path : String) (function : H) (this : Value)
    (s : Session H W) :
    ∃ call : HostCall H, ∃ t, call.args = s.job.channel ∧ call.this = this ∧
      call.heap = s.machine.heap ∧ (callHost host path function this).outcome s =
        (takeReply (host.call function call s.machine.world)).outcome t :=
  ⟨_, _, rfl, rfl, rfl, rfl⟩

/-- A call of a host function of the runner releases its arguments and its receiver, however it
ends, unless it is a sleep whose duration owns objects of its own. That call fails, and only the
receiver is released. -/
theorem callHost_releases (b : Binding) (path : String) (this : Value)
    (s : Session Binding Console) :
    let called := (callHost Binding.host path b this).outcome s
    (s.machine.heap.Released (s.job.channel ++ [this]) called.2.machine.heap ↔
        ¬ b.Loses s.machine.heap s.job.channel this) ∧
      (b.Loses s.machine.heap s.job.channel this →
        s.machine.heap.Released [this] called.2.machine.heap ∧
          ∃ v, s.job.channel = [v] ∧ called.1 =
            .error ((Error.expected "int" v).within "time.sleep expects milliseconds")) := by
  obtain ⟨call, t, args, rfl, heap, called⟩ := callHost_eq Binding.host path b this s
  intro after
  have left : after.2.machine.heap =
      s.machine.heap.disposeAll (b.disposed s.job.channel ++ [call.this]) := by
    rw [show after = _ from called, heap_takeReply, ← args, ← heap]
    exact Binding.finish_call b call _
  have released := s.machine.heap.released_disposeAll (b.disposed s.job.channel ++ [call.this])
  rw [left]
  constructor
  · rw [released.iff, Binding.loses_iff, Classical.not_not]
    exact forall_congr' fun x => Iff.comm
  · rintro ⟨rfl, v, single, x, reaches, -⟩
    rw [single] at released ⊢
    refine ⟨released, v, rfl, ?_⟩
    have failed : ∃ ref, v.owned? = some ref := by
      cases reaches with
      | here owner _ => exact ⟨_, owner⟩
      | through owner _ _ _ => exact ⟨_, owner⟩
    obtain ⟨ref, owner⟩ := failed
    have reply := Binding.sleepTask_of_owner (args.trans single) owner
    rw [show after = _ from called]
    show ((takeReply ((Binding.sleepTask call).1, (Binding.sleepTask call).2, _)).outcome t).1 = _
    rw [reply]
    rfl

/-! A sleep on a structure. -/

def firstStructure : HeapRef := ⟨.struct, ⟨0, 0⟩⟩

def drowsy : Session Binding Console :=
  { machine := { heap := (({} : Heap Binding).allocStructure 0).2, world := {} }
    job := { channel := [.owned firstStructure] } }

theorem sleep_keeps_structure :
    ¬ drowsy.machine.heap.Released (drowsy.job.channel ++ [.null])
      ((callHost Binding.host "time.sleep" .sleep .null).outcome drowsy).2.machine.heap := by
  intro released
  have reaches : drowsy.machine.heap.Reaches (.owned firstStructure) firstStructure.handle :=
    .here rfl rfl
  have gone := released.gone firstStructure.handle ⟨_, by simp [drowsy], reaches⟩
  replace gone := congrArg Option.isSome gone
  revert gone
  decide +kernel

/-! The same in a run of a job. Besides the host functions a structure is there at its end, and it
outlives the machine. -/

def nap : Function :=
  { name := "nap"
    code := [{ op := .newStruct }, { op := .callName, str := "time.sleep", int := 1 },
      { op := .ret }] }

def napped : Option (Session Binding Console) :=
  let start : SessionM Binding Console Unit := do
    Binding.register
    startUnit (nap.assemble (List.replicate 3 none) false) []
  (run Binding.host 5 (start.outcome ⟨{ world := {} }, {}⟩).2).map Prod.snd

example : napped.map (fun s => (s.job.depth, s.job.channel, s.machine.heap.live,
    s.machine.shutdown.heap.live)) = some (0, [], Binding.all.length + 1, 1) := by
  decide +kernel

end Session

end ScriptMachine
