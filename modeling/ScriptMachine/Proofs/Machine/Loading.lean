import ScriptMachine.Machine.Load
import ScriptMachine.Proofs.Machine.Linked

/-!
# Loading leaves no unit missing

A load puts the functions of its modules into the unit table, and goes on only if every unit in the
table finds what it names. What it runs after that is not in the table: the code of computed globals
and of modules, which nobody has checked. If that code names nothing but what the load finds, then
from an answer that the load was done until the next load no job ever misses a unit, however it came
to run the code.
-/

set_option autoImplicit false

namespace ScriptMachine

variable {H W : Type}

/-! ## Constant data -/

namespace Heap

variable {P : Handle → Object H → Prop} {lent : List Nat} {base : Heap H}

theorem filled_keeps (stable : Object.Stable P) (capacity : Nat) {fill : Value → HeapM H Unit}
    (fills : ∀ target, (fill target).Keeps (Later P lent base)) :
    (do
      let (target, h) := (← get).allocStructure capacity
      set h
      (fill target).onFailure (·.dispose target)
      return target : HeapM H Value).Keeps (Later P lent base) := by
  intro h later
  have made : Later P lent base (h.allocStructure capacity).2 :=
    (later.withPools _).alloc fun x => stable.struct x _
  simp only [Effect.ensures_bind, Effect.ensures_get, Effect.ensures_set, Effect.ensures_onFailure,
    Effect.ensures_pure]
  exact (fills _ _ made).mono (fun _ _ later => later) fun _ _ later => later.dispose _

theorem fillItems_keeps (stable : Object.Stable P) (target : Value) {items : List Literal}
    (each : ∀ item ∈ items, (ofLiteral item).Keeps (Later P lent base)) (i : Nat) :
    (fillItems target i items).Keeps (Later P lent base) := by
  induction items generalizing i with
  | nil => exact .pure _ _
  | cons item rest ih =>
    obtain ⟨first, others⟩ := List.forall_mem_cons.mp each
    exact first.bind fun v => (setChildKey_keeps stable target _ v).bind fun _ => ih others (i + 1)

theorem fillEntries_keeps (stable : Object.Stable P) (target : Value)
    {entries : List (String × Literal)}
    (each : ∀ entry ∈ entries, (ofLiteral entry.2).Keeps (Later P lent base)) :
    (fillEntries target entries).Keeps (Later P lent base) := by
  induction entries with
  | nil => exact .pure _ _
  | cons entry rest ih =>
    obtain ⟨first, others⟩ := List.forall_mem_cons.mp each
    exact first.bind fun v => (setChildKey_keeps stable target _ v).bind fun _ => ih others

theorem ofLiteral_keeps (stable : Object.Stable P) (item : Literal) :
    (ofLiteral item).Keeps (Later P lent base) := by
  match item with
  | .null | .bool _ | .int _ | .float _ | .str _ => exact .pure _ _
  | .list items =>
    exact filled_keeps stable _ fun target =>
      fillItems_keeps stable target (fun item _ => ofLiteral_keeps stable item) 0
  | .map entries =>
    exact filled_keeps stable _ fun target =>
      fillEntries_keeps stable target fun entry _ => ofLiteral_keeps stable entry.2
termination_by sizeOf item
decreasing_by
  · have smaller := List.sizeOf_lt_of_mem ‹item ∈ items›
    rw [Literal.list.sizeOf_spec]
    omega
  · have smaller := List.sizeOf_lt_of_mem ‹entry ∈ entries›
    obtain ⟨key, item⟩ := entry
    rw [Prod.mk.sizeOf_spec] at smaller
    rw [Literal.map.sizeOf_spec]
    show sizeOf item < _
    omega

end Heap

/-! ## Functions -/

def Module.defined (m : Module) : List String := m.functions.map Function.name

theorem forM_eq_ok {τ : Type} {body : τ → Except Error PUnit} (items : List τ) :
    items.forM body = .ok ⟨⟩ ↔ ∀ item ∈ items, body item = .ok ⟨⟩ := by
  induction items with
  | nil => simp [pure, Except.pure]
  | cons item items ih =>
    rw [List.forM_eq_forM, List.forM_cons, List.forall_mem_cons, ← ih]
    cases body item <;> simp [bind, Except.bind]

namespace Machine

variable {units : UnitTable} {jobs : List Job} {m : Machine H W}

/-- The check passes exactly if every unit in the table finds what it names. -/
theorem checkReferences_eq_ok (order : SortedMap.Ascending units.entries) :
    checkReferences units = .ok () ↔ units.Checked := by
  have passes : ∀ (u : CodeUnit) (position : Nat) (ins : Instruction),
      checkInstruction units u position ins = .ok () ↔ ins.Finds units := by
    intro u position ins
    unfold checkInstruction Instruction.Finds
    cases referenced ins with
    | none => simp
    | some name => by_cases found : units.contains name <;> simp [found]
  have listed : ∀ u, u ∈ units.values ↔ units.Lists u := by
    intro u
    simp [UnitTable.Lists, SortedMap.values, SortedMap.get?, SortedMap.lookup_eq_some_iff order]
  unfold checkReferences
  simp only [forM_eq_ok, passes, listed]
  constructor
  · intro checked name u found ins mem
    obtain ⟨position, inside, here⟩ := List.mem_iff_getElem.mp mem
    refine checked u ⟨name, found⟩ (ins, position) ?_
    exact List.mem_zipIdx_iff_getElem?.mpr (here ▸ List.getElem?_eq_getElem inside)
  · rintro checked u ⟨name, found⟩ ⟨ins, position⟩ mem
    exact checked name u found ins (List.fst_mem_of_mem_zipIdx mem)

theorem ensures_compile (f : Function) (m : Machine H W) :
    (compile f).Ensures m
      (fun u t => (∃ fusion, f.compile fusion = .ok u) ∧ t.heap = m.heap ∧ t.units = m.units)
      (fun _ t => t = m) := by
  unfold compile
  rw [Effect.ensures_bind, Effect.ensures_get, Effect.ensures_bind, Effect.ensures_liftM]
  cases compiled : f.compile m.config.fusion with
  | ok u => exact ⟨⟨_, compiled⟩, rfl, rfl⟩
  | error e => rfl

theorem ensures_addUnit (linked : System.Linked units ⟨m, jobs⟩) (f : Function) :
    (addUnit f).Ensures m
      (fun u t => ∃ more, units.Within more ∧ more.get? f.name = some u ∧
        System.Linked more ⟨t, jobs⟩)
      (fun _ t => System.Linked units ⟨t, jobs⟩) := by
  refine (Effect.ensures_bind ..).mpr ?_
  rw [Effect.ensures_get]
  split
  · exact linked
  rename_i free
  refine (Effect.ensures_bind ..).mpr ((ensures_compile f m).mono (fun u t done => ?_)
    fun _ t same => same ▸ linked)
  obtain ⟨⟨fusion, compiled⟩, heap, same⟩ := done
  have function : u.function = f := Function.function_of_compile compiled
  have name : u.name = f.name := congrArg Function.name function
  have absent : ¬ units.contains f.name := linked.table ▸ free
  refine ⟨units.insert f.name u, UnitTable.within_insert linked.order absent u,
    (UnitTable.get?_insert linked.order ..).trans (if_pos rfl),
    linked.insert absent ⟨fusion, function ▸ compiled⟩ heap ?_⟩
  show t.units.insert u.name u = units.insert f.name u
  rw [same, name]
  exact congrArg (·.insert f.name u) linked.table

theorem define_keeps (path : String) (v : Value) (overwritable : Bool) :
    (define path v overwritable : MachineM H W Unit).Keeps
      fun m => System.Linked units ⟨m, jobs⟩ := by
  refine .get_bind fun m linked => ?_
  cases m.globals.define path v overwritable with
  | ok result => exact linked.grow rfl (linked.here.disposeAll _)
  | error e => exact linked.dispose [v]

/-- The operation puts units under these names, and maybe under others. -/
def Adds (jobs : List Job) (names : List String) (op : MachineM H W Unit) : Prop :=
  ∀ units m, System.Linked units ⟨m, jobs⟩ →
    op.Ensures m
      (fun _ t => ∃ more, units.Within more ∧ (∀ name ∈ names, more.contains name) ∧
        System.Linked more ⟨t, jobs⟩)
      (fun _ t => ∃ more, System.Linked more ⟨t, jobs⟩)

theorem Adds.forM {τ : Type} (names : τ → List String) {body : τ → MachineM H W Unit}
    (each : ∀ item, Adds jobs (names item) (body item)) :
    ∀ items : List τ, Adds jobs (items.flatMap names) (items.forM body)
  | [] => fun units m linked => ⟨units, .refl units, by simp, linked⟩
  | item :: items => fun units m linked => by
    refine (Effect.ensures_bind ..).mpr ((each item units m linked).mono (fun _ t done => ?_)
      fun _ _ failed => failed)
    obtain ⟨more, within, first, linked⟩ := done
    refine (forM names each items more t linked).mono (fun _ t done => ?_) fun _ _ failed => failed
    obtain ⟨most, within', rest, linked⟩ := done
    refine ⟨most, within.trans within', fun name mem => ?_, linked⟩
    rcases List.mem_append.mp (List.flatMap_cons ▸ mem) with here | later
    · exact within'.contains (first name here)
    · exact rest name later

theorem adds_function (context : String) (f : Function) : Adds (H := H) (W := W) jobs [f.name] (do
    let unit ← (addUnit f).within context
    define f.name (← alloc (.callable (.ofUnit unit))) false) := by
  intro units m linked
  rw [Effect.ensures_bind, Effect.ensures_within]
  refine (ensures_addUnit linked f).mono (fun u t added => ?_) fun _ t linked => ⟨units, linked⟩
  obtain ⟨more, within, found, linked⟩ := added
  have made : System.Linked more
      ⟨{ t with heap := (t.heap.alloc (.callable (.ofUnit u))).2 }, jobs⟩ :=
    linked.grow rfl (linked.here.alloc fun _ => linked.sound.knows f.name u found)
  have bound := define_keeps f.name (t.heap.alloc (.callable (.ofUnit u))).1 false _ made
  exact bound.mono (fun _ t linked => ⟨more, within,
    List.forall_mem_singleton.mpr (Option.isSome_iff_exists.mpr ⟨u, found⟩), linked⟩)
    fun _ t linked => ⟨more, linked⟩

theorem adds_functions (mod : Module) :
    Adds (H := H) (W := W) jobs mod.defined (loadFunctions mod) := by
  intro units m linked
  have names : mod.functions.flatMap (fun f => [f.name]) = mod.defined := List.map_eq_flatMap.symm
  refine (Effect.ensures_bind ..).mpr
    ((names ▸ Adds.forM _ (fun f => adds_function _ f) mod.functions units m linked).mono
      (fun _ t done => ?_) fun _ _ failed => failed)
  obtain ⟨more, within, found, linked⟩ := done
  exact ⟨more, within, found, linked.grow rfl linked.here⟩

/-! ## Jobs of the machine's own -/

section
variable {host : Host H W} (plain : host.Plain fun _ => False) (mild : host.Mild)
  (checked : units.Checked)

theorem start_refused {call : SessionM H W Unit} (args : List Value)
    (called : ∀ s : Session H W, s.machine = m → call.Ensures s (fun _ _ => True)
      (fun _ t => s.Stays t)) :
    (Session.start args call).Ensures ⟨m, {}⟩ (fun _ _ => True) (fun _ t => t.job.frames = []) := by
  unfold Session.start
  rw [Effect.ensures_bind, Session.ensures_changeJob, Effect.ensures_onFailure]
  refine (called ⟨m, { channel := [] ++ args }⟩ rfl).mono (fun _ _ _ => trivial) fun _ t stays => ?_
  have marks : t.marks = [] := stays.marks
  exact List.map_eq_nil_iff.mp marks

theorem startUnit_refused (accounted : m.heap.Accounted []) (u : CodeUnit) (args : List Value) :
    (Session.startUnit u args).Ensures ⟨m, {}⟩ (fun _ _ => True)
      (fun _ t => t.job.frames = []) := by
  refine start_refused args ?_
  rintro s rfl
  exact (Session.enter_shifts accounted u .null .null).mono (fun _ _ _ => trivial)
    fun _ _ stays => stays

include plain in
theorem startPath_refused (accounted : m.heap.Accounted []) (path : String) (args : List Value) :
    (Session.startPath host path args).Ensures ⟨m, {}⟩ (fun _ _ => True)
      (fun _ t => t.job.frames = []) := by
  have invoked : ∀ target, (Session.start args (Session.invoke host target .null)).Ensures ⟨m, {}⟩
      (fun _ _ => True) (fun _ t => t.job.frames = []) := by
    refine fun target => start_refused args ?_
    rintro s rfl
    exact (Session.invoke_shifts (plain.mono fun _ never => never.elim) accounted target
      .null).mono (fun _ _ _ => trivial) fun _ _ stays => stays
  unfold Session.startPath
  rw [Effect.ensures_bind, Effect.ensures_get]
  simp only
  split
  · exact invoked _
  split
  · exact invoked _
  · exact rfl

include plain mild checked

/-- A job that the machine makes for one call runs to its end and is gone then. It misses no
unit. -/
theorem ensures_ownJob (linked : System.Linked units ⟨m, jobs⟩) (act : Act)
    (admits : act.Admits {}) (code : act.Codes units.Knows)
    (starts : ∀ outcome, act ≠ .conclude outcome)
    (refused : (act.op host).Ensures ⟨m, {}⟩ (fun _ _ => True) (fun _ t => t.job.frames = []))
    (fuel : Nat) :
    (inNewJob (liftM (act.op host) >>= fun _ =>
      Session.run host fuel : Fueled (Session H W) Outcome)).Ensures m
      (fun _ t => System.Linked units ⟨t, jobs⟩)
      (fun e t => e.lacksUnit = false ∧ System.Linked units ⟨t, jobs⟩) := by
  have last : ∀ j j' : Job, (jobs ++ [j])[jobs.length]? = some j ∧
      (jobs ++ [j]).set jobs.length j' = jobs ++ [j'] := fun j j' => by simp
  have spawned := linked.spawn
  have here := (last {} {}).1
  have finds := act.finds mild (spawned.uses (List.mem_of_getElem? here))
    (spawned.equipped checked here)
  have acted := spawned.act plain mild checked act here admits code rfl
  rw [(last _ _).2] at acted
  refine (Fueled.ensures_onLarger ..).mpr ((Fueled.ensures_bind ..).mpr
    ((Fueled.ensures_lift ..).mpr ?_))
  simp only [Effect.outcome] at acted
  cases started : act.op host ⟨m, {}⟩ with
  | error e v =>
    rw [started] at acted
    refine (Effect.ensures_of_eq_error started).mpr ⟨?_, acted.drop
      ((Effect.ensures_of_eq_error started).mp refused)⟩
    exact ((Effect.ensures_of_eq_error started).mp finds).1 fun outcome same =>
      absurd same (starts outcome)
  | ok _ v =>
    rw [started] at acted
    refine (Effect.ensures_of_eq_ok started).mpr fun r t ran => ?_
    obtain ⟨ended, kept⟩ := acted.runIn plain mild checked (last v.job t.job).1 ran
    rw [(last _ _).2] at ended
    have gone := ended.drop (Session.run_empties ran)
    cases r with
    | ok outcome => exact gone
    | error e => exact ⟨kept e rfl, gone⟩

theorem call_mild (linked : System.Linked units ⟨m, jobs⟩) {fuel : Nat} {path : String}
    {args : List Value} {r : Except Error Outcome} {m' : Machine H W}
    (ran : Machine.call host fuel path args m = some (r, m')) : Mild r := by
  rintro e rfl
  exact (ensures_ownJob plain mild checked linked (.callPath path args) trivial trivial (by simp)
    (startPath_refused plain linked.running.heap.accounted path args) fuel _ _ ran).1

theorem generator_mild (linked : System.Linked units ⟨m, jobs⟩) {fuel : Nat} {x : Handle}
    {r : Except Error Bool} {m' : Machine H W}
    (ran : nextValue.generator host fuel x m = some (r, m')) : Mild r := by
  have refused : (Session.advance x 0).Ensures (⟨m, {}⟩ : Session H W) (fun _ _ => True)
      (fun _ t => t.job.frames = []) :=
    (Session.advance_fails x 0 ⟨m, {}⟩).mono (fun _ _ _ => trivial) fun _ t same => same ▸ rfl
  have ended : (nextValue.generator host fuel x).Ensures m (fun _ _ => True)
      (fun e _ => e.lacksUnit = false) := by
    refine (Fueled.ensures_bind ..).mpr ((ensures_ownJob plain mild checked linked (.resume x) rfl
      trivial (by simp) refused fuel).mono (fun outcome t _ => ?_) fun _ _ failed => failed.1)
    cases outcome <;> rintro r t ⟨⟩ <;> trivial
  rintro e rfl
  exact ended _ _ ran

theorem nextValue_mild (linked : System.Linked units ⟨m, jobs⟩) {fuel : Nat} {v : Value}
    {r : Except Error (Option Value)} {m' : Machine H W}
    (ran : nextValue host fuel v m = some (r, m')) : Mild r := by
  have found : ∀ x (t : Machine H W) {α : Type} (read : Iterator → α),
      Tame ((t.heap.iteratorAt x).map read) := by
    intro x t α read e failed
    refine t.heap.tame_iteratorAt x e ?_
    cases looked : t.heap.iteratorAt x with
    | ok it => simp [looked, Except.map] at failed
    | error e' => simpa [looked, Except.map] using failed
  rw [nextValue_eq] at ran
  split at ran
  · rename_i e refused
    cases ran
    have tame : Tame ((Heap.iteratorHandle v).bind fun x => (m.heap.iteratorAt x).map (x, ·)) :=
      fails_bind (Heap.tame_handleOf v .iterator) fun x => found x m _
    exact fails_error (tame.mild e refused)
  · rename_i x it _
    split at ran
    · cases ran
      exact fails_ok none
    obtain ⟨⟨result, t⟩, advanced, answer⟩ := Option.map_eq_some_iff.mp ran
    cases answer
    refine fails_bind ?_ fun more => fails_ite (found x m' _).mild (fails_ok none)
    split at advanced
    · exact generator_mild plain mild checked linked advanced
    · have walked : (nextValue.walk (H := H) (W := W) x).Ensures m (fun _ _ => True)
          (fun e _ => e.lacksUnit = false) :=
        (Fueled.ensures_lift ..).mpr
          ((Effect.ensures_onPart ..).mpr ((Heap.advanceWalk_tame x m.heap).mono
            (fun _ _ _ => trivial) fun _ _ tame => (Error.tame_iff.mp tame).1))
      rintro e rfl
      exact walked _ _ advanced

/-! ## Code that is bound nowhere -/

theorem runUnbound_keeps {f : Function} (closed : ∀ ins ∈ f.code, ins.Finds units) (fuel : Nat) :
    (runUnbound host fuel f).Keeps fun m => System.Linked units ⟨m, jobs⟩ := by
  intro m linked
  refine (Fueled.ensures_bind ..).mpr ((Fueled.ensures_lift ..).mpr
    ((ensures_compile f m).mono (fun u t done => ?_) fun _ t same => same ▸ linked))
  obtain ⟨⟨fusion, compiled⟩, heap, same⟩ := done
  have linked : System.Linked units ⟨t, jobs⟩ := linked.grow same (by rw [heap]; exact linked.here)
  have function : u.function = f := Function.function_of_compile compiled
  have code : u.code = f.code := congrArg Function.code function
  have knows : units.Knows u := ⟨⟨fusion, function ▸ compiled⟩, .inl (by
    rw [CodeUnit.Finds, code]
    exact closed)⟩
  refine (Fueled.ensures_bind ..).mpr
    ((ensures_ownJob plain mild checked linked (.callUnit u []) knows.compiled knows (by simp)
      (startUnit_refused linked.running.heap.accounted u []) fuel).mono
      (fun outcome t linked => ?_) fun _ _ failed => failed.2)
  cases outcome with
  | completed values =>
    rintro r t' ⟨⟩
    exact linked.dispose values.tail
  | _ =>
    rintro r t' ⟨⟩
    exact linked

theorem loadStatics_keeps {mod : Module}
    (closed : ∀ d ∈ mod.statics, ∀ ins ∈ d.init.code, ins.Finds units) (fuel : Nat) :
    (loadStatics host fuel mod).Keeps fun m => System.Linked units ⟨m, jobs⟩ :=
  .forM fun d mem => ((runUnbound_keeps plain mild checked (closed d mem) fuel).within _).bind
    fun v => .lift (define_keeps d.path v false)

theorem loadInit_keeps {mod : Module}
    (closed : ∀ f, mod.init = some f → ∀ ins ∈ f.code, ins.Finds units) (fuel : Nat) :
    (loadInit host fuel mod).Keeps fun m => System.Linked units ⟨m, jobs⟩ := by
  unfold loadInit
  cases init : mod.init with
  | none => exact .pure _
  | some f =>
    refine ((runUnbound_keeps plain mild checked (closed f init) fuel).within _).bind fun v => ?_
    rintro m linked r t ⟨⟩
    exact (linked.dispose [v]).grow rfl (linked.dispose [v]).here

end

/-! ## Data -/

theorem loadData_keeps (mod : Module) :
    (loadData mod : MachineM H W Unit).Keeps fun m => System.Linked units ⟨m, jobs⟩ := by
  refine .forM fun d _ => Effect.Keeps.bind (fun m linked => ?_) fun v => define_keeps _ _ _
  refine (Effect.ensures_onPart ..).mpr ?_
  exact (Heap.Grows.keeps (fun P stable => Heap.ofLiteral_keeps stable d.value) _ linked.here).mono
    (fun _ _ grows => linked.grow rfl grows) fun _ _ grows => linked.grow rfl grows

theorem loadEnums_keeps (mod : Module) :
    (loadEnums mod : MachineM H W Unit).Keeps fun m => System.Linked units ⟨m, jobs⟩ :=
  .bind (.forM fun _ _ => .forM fun _ _ => define_keeps _ _ _) fun _ =>
    .modify fun _ linked => linked.grow rfl linked.here

/-! ## Loads -/

end Machine

def Module.unbound (mod : Module) : List Function :=
  mod.statics.map StaticDef.init ++ mod.init.toList

def UnitTable.Closes (units : UnitTable) (modules : List Module) : Prop :=
  ∀ mod ∈ modules, ∀ f ∈ mod.unbound, ∀ ins ∈ f.code, ∀ name,
    Machine.referenced ins = some name →
      units.contains name ∨ ∃ other ∈ modules, name ∈ other.defined

namespace Machine

variable {host : Host H W} {units : UnitTable} {jobs : List Job} {m : Machine H W}

/-- A load leaves the system linked to what the table has become, and that is checked if the load
was done. -/
theorem ensures_load (plain : host.Plain fun _ => False) (mild : host.Mild)
    (linked : System.Linked units ⟨m, jobs⟩) {modules : List Module}
    (closes : units.Closes modules) (fuel : Nat) :
    (load host fuel modules).Ensures m
      (fun _ t => ∃ more, more.Checked ∧ System.Linked more ⟨t, jobs⟩)
      (fun _ t => ∃ more, System.Linked more ⟨t, jobs⟩) := by
  refine (Fueled.ensures_bind ..).mpr ((Fueled.ensures_forM_lift ..).mpr
    ((Adds.forM Module.defined adds_functions modules units m linked).mono (fun _ t done => ?_)
      fun _ _ failed => failed))
  obtain ⟨more, within, found, linked⟩ := done
  refine (Fueled.ensures_bind ..).mpr ((Fueled.ensures_get ..).mpr
    ((Fueled.ensures_bind ..).mpr ((Fueled.ensures_liftExcept ..).mpr ?_)))
  cases passed : checkReferences t.units with
  | error e => exact ⟨more, linked⟩
  | ok _ =>
    have checked : more.Checked :=
      (checkReferences_eq_ok linked.order).mp (linked.table ▸ passed)
    have closed : ∀ mod ∈ modules, ∀ f ∈ mod.unbound, ∀ ins ∈ f.code, ins.Finds more := by
      intro mod mem f unbound ins listed name named
      rcases closes mod mem f unbound ins listed name named with before | ⟨other, loaded, defined⟩
      · exact within.contains before
      · exact found name (List.mem_flatMap.mpr ⟨other, loaded, defined⟩)
    have rest : Fueled.Keeps (fun m : Machine H W => System.Linked more ⟨m, jobs⟩) (do
        modules.forM (loadStatics host fuel)
        modules.forM fun m => (loadData m : MachineM H W Unit)
        modules.forM fun m => (loadEnums m : MachineM H W Unit)
        modules.forM (loadInit host fuel)) := by
      refine .bind (.forM fun mod mem => ?_) fun _ => .bind (.forM fun mod _ => ?_) fun _ =>
        .bind (.forM fun mod _ => ?_) fun _ => .forM fun mod mem => ?_
      · exact loadStatics_keeps plain mild checked (fun d static => closed mod mem d.init
          (List.mem_append_left _ (List.mem_map_of_mem static))) fuel
      · exact .lift (loadData_keeps mod)
      · exact .lift (loadEnums_keeps mod)
      · exact loadInit_keeps plain mild checked (fun f init => closed mod mem f
          (List.mem_append_right _ (by simp [init]))) fuel
    exact (rest t linked).mono (fun _ t linked => ⟨more, checked, linked⟩)
      fun _ t linked => ⟨more, linked⟩

end Machine

/-! ## Systems -/

namespace System

variable {host : Host H W} {done : Bool} {s : System H W} {e : Error}

/-- What becomes of a machine with an empty heap and no units: modules are loaded onto it, jobs run
while the last load was done, and the embedding program uses the heap. -/
inductive Loaded (host : Host H W) : (done : Bool) → System H W → Prop
  | start (m : Machine H W) : m.heap = {} → m.units = {} → Loaded host true ⟨m, []⟩
  | load {done : Bool} {s : System H W} {fuel : Nat} {modules : List Module}
      {r : Except Error Unit} {m : Machine H W} : Loaded host done s →
      s.machine.units.Closes modules →
      Machine.load host fuel modules s.machine = some (r, m) → Loaded host r.isOk ⟨m, s.jobs⟩
  | spawn {done : Bool} {s : System H W} : Loaded host done s →
      Loaded host done ⟨s.machine, s.jobs ++ [({} : Job)]⟩
  | act {s : System H W} {i : Nat} {job : Job} (act : Act) : Loaded host true s →
      s.jobs[i]? = some job → act.Admits job → act.Codes s.machine.units.Lists →
      Loaded host true (s.perform host i act)
  /-- The embedding program makes closures of units in the table only, and leaves the table
  alone. -/
  | embed {done : Bool} {s : System H W} (m : Machine H W) (ops : List (HeapOp H)) :
      Loaded host done s → (∀ op ∈ ops, op.Plain s.machine.units.Lists) →
      m.heap = s.machine.heap.after ops → m.units = s.machine.units →
      Loaded host done ⟨m, s.jobs⟩

/-- Somewhere in the system an error comes up. -/
inductive Raises (host : Host H W) (s : System H W) (e : Error) : Prop
  /-- The running frame of a job executes a step, whatever is done with the error then. -/
  | step {job : Job} {f : Frame} {rest : List Frame} {t : Session H W} : job ∈ s.jobs →
      job.frames = f :: rest → Session.executeStep host f ⟨s.machine, job⟩ = .error e t →
      Raises host s e
  | act {job : Job} {act : Act} {t : Session H W} : job ∈ s.jobs →
      (∀ outcome, act ≠ .conclude outcome) → act.op host ⟨s.machine, job⟩ = .error e t →
      Raises host s e
  | run {job : Job} {mode : Mode} {fuel : Nat} {budget : Budget} {t : Session H W} :
      job ∈ s.jobs → Session.runIn host mode fuel budget ⟨s.machine, job⟩ = some (.error e, t) →
      Raises host s e
  | call {fuel : Nat} {path : String} {args : List Value} {m : Machine H W} :
      Machine.call host fuel path args s.machine = some (.error e, m) → Raises host s e
  /-- An iterator that the embedding program moves on, maybe a generator, answers it. -/
  | next {fuel : Nat} {v : Value} {m : Machine H W} :
      Machine.nextValue host fuel v s.machine = some (.error e, m) → Raises host s e

theorem Loaded.linked (plain : host.Plain fun _ => False) (mild : host.Mild)
    (loaded : Loaded host done s) : ∃ units, Linked units s ∧ (done = true → units.Checked) := by
  induction loaded with
  | start m heap units => exact ⟨{}, linked_empty heap units, fun _ _ _ found => by cases found⟩
  | @load _ s fuel modules r m _ closes ran ih =>
    obtain ⟨units, linked, -⟩ := ih
    have ended := Machine.ensures_load plain mild linked (linked.table ▸ closes) fuel r m ran
    cases r with
    | ok =>
      obtain ⟨more, checked, linked⟩ := ended
      exact ⟨more, linked, fun _ => checked⟩
    | error e =>
      obtain ⟨more, linked⟩ := ended
      exact ⟨more, linked, fun never => by cases never⟩
  | spawn _ ih =>
    obtain ⟨units, linked, checked⟩ := ih
    exact ⟨units, linked.spawn, checked⟩
  | @act s i job act _ found admits code ih =>
    obtain ⟨units, linked, checked⟩ := ih
    have knows : act.Codes units.Knows := by
      cases act with
      | callUnit u => exact ⟨admits, .inr (linked.table ▸ code)⟩
      | _ => trivial
    have after := linked.act plain mild (checked rfl) act found admits knows rfl
    unfold perform
    rw [found]
    exact ⟨units, after, checked⟩
  | @embed _ s m ops _ makes heap same ih =>
    obtain ⟨units, linked, checked⟩ := ih
    have known : ∀ op ∈ ops, op.Plain units.Knows := fun op mem =>
      (makes op mem).mono fun u ⟨name, listed⟩ =>
        linked.sound.knows name u (linked.table ▸ listed)
    exact ⟨units, linked.grow same (heap ▸ Heap.Grows.after linked.here known), checked⟩

/-- Once a load was done, no job misses a unit. -/
theorem no_unit_missed (plain : host.Plain fun _ => False) (mild : host.Mild)
    (loaded : Loaded host true s) (raises : s.Raises host e) : e.lacksUnit = false := by
  obtain ⟨units, linked, checked⟩ := loaded.linked plain mild
  have checked := checked rfl
  have equipped : ∀ job ∈ s.jobs, Session.Equipped units ⟨s.machine, job⟩ := fun job mem =>
    (List.getElem?_of_mem mem).elim fun _ found => linked.equipped checked found
  cases raises with
  | @step job f rest t mem frames ran =>
    obtain ⟨held, u, runs, finds⟩ := equipped job mem f (by simp [frames])
    have steps := Session.executeStep_finds mild (linked.uses mem) runs finds held
    exact ((Effect.ensures_of_eq_error ran).mp steps).1
  | @act job act t mem starts failed =>
    have finds := act.finds mild (linked.uses mem) (equipped job mem)
    exact ((Effect.ensures_of_eq_error failed).mp finds).1 fun outcome same =>
      absurd same (starts outcome)
  | run mem ran =>
    obtain ⟨i, found⟩ := List.getElem?_of_mem mem
    exact (linked.runIn plain mild checked found ran).2 e rfl
  | call ran => exact Machine.call_mild plain mild checked linked ran e rfl
  | next ran => exact Machine.nextValue_mild plain mild checked linked ran e rfl

/-! ## A generator that a computed global holds -/

/-- The global `it` holds a generator that calls `name`, and `main` moves it on. -/
def holding (name : String) (functions : List Function) : Module where
  name := "app"
  functions := { name := "main", code :=
    [{ op := .loadGlobal, str := "it" }, { op := .iterNext }, { op := .ret }] } :: functions
  statics := [{ path := "it", init := { name := "gen", generator := true, code :=
    [{ op := .callDirect, str := name }, { op := .ret }] } }]

def failure (mod : Module) : Option Error :=
  (Machine.load Session.idle 20 [mod] { world := () }).bind fun (r, m) =>
    if r.isOk then
      (Machine.call Session.idle 20 "main" [] m).bind fun (r, _) =>
        match r with
        | .error e => some e
        | .ok _ => none
    else none

theorem failure_eq_some {mod : Module} {e : Error} (fails : failure mod = some e) :
    ∃ m m', Machine.load Session.idle 20 [mod] { world := () } = some (.ok (), m) ∧
      Machine.call Session.idle 20 "main" [] m = some (.error e, m') := by
  obtain ⟨⟨r, m⟩, loaded, rest⟩ := Option.bind_eq_some_iff.mp fails
  cases r with
  | error => cases rest
  | ok =>
    obtain ⟨⟨r, m'⟩, called, answer⟩ := Option.bind_eq_some_iff.mp rest
    cases r with
    | ok => cases answer
    | error =>
      cases answer
      exact ⟨m, m', loaded, called⟩

def helper : Function := { name := "helper", code := [{ op := .add }] }

theorem no_unit_missed_helper : ∃ s e, Loaded Session.idle true s ∧ Raises Session.idle s e ∧
    e.lacksUnit = false := by
  have fails : (failure (holding "helper" [helper])).isSome := by decide +kernel
  obtain ⟨e, fails⟩ := Option.isSome_iff_exists.mp fails
  obtain ⟨m, m', loaded, called⟩ := failure_eq_some fails
  have closes : UnitTable.Closes {} [holding "helper" [helper]] := by
    intro mod mem f unbound ins listed name named
    cases List.mem_singleton.mp mem
    cases List.mem_singleton.mp unbound
    refine .inr ⟨_, List.mem_singleton_self _, ?_⟩
    rcases List.mem_cons.mp listed with rfl | listed
    · cases named
      decide
    · cases List.mem_singleton.mp listed
      cases named
  have state : Loaded Session.idle true ⟨m, []⟩ :=
    .load (.start { world := () } rfl rfl) closes loaded
  have mild : Session.idle.Mild := fun _ _ _ => trivial
  exact ⟨_, e, state, .call called,
    no_unit_missed (Session.plain_idle _) mild state (.call called)⟩

/-- Code of a computed global is not checked, and goes on in its generator. -/
theorem holding_misses : ∃ m m' e,
    Machine.load Session.idle 20 [holding "missing" []] { world := () } = some (.ok (), m) ∧
      Machine.call Session.idle 20 "main" [] m = some (.error e, m') ∧ e.lacksUnit = true := by
  have fails : (failure (holding "missing" [])).any Error.lacksUnit := by decide +kernel
  obtain ⟨e, fails, lacks⟩ := (Option.any_eq_true _ _).mp fails
  obtain ⟨m, m', loaded, called⟩ := failure_eq_some fails
  exact ⟨m, m', e, loaded, called, lacks⟩

end System

end ScriptMachine
