import NetPlan.Proofs.Kernel.Variants
import NetPlan.Proofs.Tuning.Records

/-!
# Proofs/Kernel/Replay — results of tuning are found again

The fastest plan is kept as a name and a variant.  What is found under the fingerprint of the request the
next time is the same name and variant, and asking the kernel of that name for the variant gives the
plan again.

* `Selector.measured_of_autoTune` — a plan with a run time was measured and is on record;
* `Selector.autoTune_replays` — so the next selection replays it, without the runner and without a change
  of the file.
-/

namespace NetPlan

open Kernel Tuning

/-! ## Implementations by name -/

/-- Where no two implementations share a name, each is found by its own. -/
theorem Kernel.Registry.find?_of_nodup {registry : Registry}
    (h : (registry.implementations.map (·.name)).Nodup) {i : Implementation}
    (hi : i ∈ registry.implementations) : registry.find? i.kind i.name = some i := by
  have hkind : i ∈ registry.ofKind i.kind := List.mem_filter.mpr ⟨hi, decide_eq_true rfl⟩
  obtain ⟨j, hj⟩ : ∃ j, (registry.ofKind i.kind).find? (·.name = i.name) = some j :=
    Option.isSome_iff_exists.mp (List.find?_isSome.mpr ⟨i, hkind, by simp⟩)
  have hname : j.name = i.name := by simpa using List.find?_some hj
  have hmem := List.mem_of_mem_filter (List.mem_of_find?_eq_some hj)
  rw [Registry.find?, hj, List.inj_on_of_nodup_map h hmem hi hname]

theorem Kernel.nodup_builtin : (Registry.builtin.implementations.map (·.name)).Nodup := by
  decide +kernel

/-- The name of a builtin implementation can be recorded. -/
theorem Kernel.isWord_builtin : ∀ i ∈ Registry.builtin.implementations, Text.IsWord i.name := by
  decide +kernel

theorem Kernel.isWord_fingerprint (r : Request) : Text.IsWord r.fingerprint :=
  Text.isWord_hexPadded 16 _

namespace Selector

variable {s : Selector} {r : Request} {o : Options} {i : Implementation} {plan : Plan}
  {session session' : Session}

/-! ## Plans without a time -/

section Untimed

variable (hall : ∀ i ∈ s.registry.implementations, i.Replays)

include hall

theorem untimed_of_firstPlan? {answer : Except Refusal (List Plan)}
    (hi : i ∈ s.registry.implementations)
    (hanswer : ∀ plans, answer = .ok plans → ∀ plan ∈ plans, i.Gives r o plan)
    (h : firstPlan? i answer = some plan) : plan.runTime = none := by
  obtain ⟨given, rest, hplans, -, rfl⟩ := given_of_firstPlan? h
  exact (hall i hi).untimed r o given (hanswer _ hplans given List.mem_cons_self)

theorem selects_naive_untimed : Selects (fun plan => plan.runTime = none) (s.naive r o) := by
  intro session plan session' hrun
  have h : s.naive? r o = .ok plan := by rw [← s.run_naive r o session, hrun]
  obtain ⟨-, i, hi, hfirst, -⟩ := firstPlan?_of_naive? h
  exact untimed_of_firstPlan? hall (List.mem_of_mem_filter (List.mem_of_mem_filter hi))
    (fun plans hplans _ hmem => ⟨plans, hmem, Or.inl hplans⟩) hfirst

theorem selects_variant_untimed (name : String) (index : Option Nat) :
    Selects (fun plan => plan.runTime = none) (s.variant r o name index) :=
  (selects_variant_first name index).imp fun _ ⟨_, hi, _, hplan⟩ =>
    untimed_of_firstPlan? hall (List.mem_of_mem_filter (List.mem_of_find?_eq_some hi))
      (fun plans hplans _ hmem => ⟨plans, hmem, Or.inr (Or.inl ⟨index, hplans⟩)⟩) hplan

end Untimed

/-! ## Measured plans -/

section Measured

variable {time : Nat} (hall : ∀ i ∈ s.registry.implementations, i.Replays)
  (htime : plan.runTime = some time)

include hall htime

/-- A plan with a time is the fastest of those that were measured, and is appended to the file. -/
theorem measured_of_tune (hmode : s.mode = .tuneAndCache)
    (h : (s.tune r o).run.run session = (.ok plan, session')) :
    ∃ runner, (s.measureAll runner r o).1 = some plan ∧
      session'.cache = session.cache.store r.fingerprint ⟨plan.implementation, plan.variant⟩ := by
  have hnaive : ∀ t, (s.naive r o).run.run t ≠ (.ok plan, session') := fun t ht => by
    have hnone : plan.runTime = none := selects_naive_untimed hall t plan session' ht
    rw [htime] at hnone
    cases hnone
  cases hrunner : s.runner with
  | none =>
    unfold tune at h
    rw [hmode, hrunner] at h
    exact absurd h (hnaive session)
  | some runner =>
    rw [run_tune hmode hrunner] at h
    refine ⟨runner, ?_⟩
    rcases hmeasured : s.measureAll runner r o with ⟨_ | best, events⟩
    · rw [hmeasured] at h
      exact absurd h (hnaive _)
    · rw [hmeasured] at h
      cases h
      exact ⟨rfl, rfl⟩

/-- **A plan with a time was measured** in this very selection, and is on record. -/
theorem measured_of_autoTune (hmode : s.mode = .tuneAndCache)
    (h : (s.autoTune r o).run.run session = (.ok plan, session')) :
    s.deviceError? r = none ∧ ∃ runner, (s.measureAll runner r o).1 = some plan ∧
      session'.cache = session.cache.store r.fingerprint ⟨plan.implementation, plan.variant⟩ := by
  obtain ⟨hdevice, ⟨entry, -, hreplay⟩ | ⟨t, hcache, htune⟩⟩ := replay_or_tune h
  · have hnone : plan.runTime = none := selects_variant_untimed hall _ _ _ _ _ hreplay
    rw [htime] at hnone
    cases hnone
  · exact ⟨hdevice, hcache ▸ measured_of_tune hall htime hmode htune⟩

omit htime in
/-- What was measured can be asked for again, and is given without its time. -/
theorem again_of_measured {runner : Runner} (h : (s.measureAll runner r o).1 = some plan) :
    ∃ i ∈ s.candidates r o, i.name = plan.implementation ∧
      (∀ v, plan.variant = some v → v < 0x8000000000000000) ∧
      firstPlan? i (i.planVariant plan.variant r o) = some { plan with runTime := none } := by
  obtain ⟨i, hi, -, hplan⟩ := exists_measured h
  obtain ⟨plans, given, time, hplans, hgiven, hempty, rfl⟩ := given_of_measure hplan
  obtain ⟨hnone, hfits, hagain⟩ := (hall i (List.mem_of_mem_filter (List.mem_of_mem_filter hi))).offered
    r o plans hplans given hgiven
  refine ⟨i, hi, rfl, hfits, ?_⟩
  dsimp only
  rw [hagain, firstPlan?, hempty, ← hnone]
  rfl

end Measured

/-- **Results of tuning are found again.**  Over the builtin implementations and a file of whole records
that can be written, a plan that was measured is what the next selection comes to, less its time: in any
mode, with any runner and over any session that has the file.  Nothing is measured, and the file stays as
it is. -/
theorem autoTune_replays {time : Nat} (hregistry : s.registry = .builtin)
    (hmode : s.mode = .tuneAndCache) (hcache : session.cache.Intact)
    (h : (s.autoTune r o).run.run session = (.ok plan, session'))
    (htime : plan.runTime = some time) :
    ∃ i ∈ Registry.builtin.implementations, i.name = plan.implementation ∧
      ∀ (mode : TuningMode) (runner : Option Runner) (next : Session), next.cache = session'.cache →
        ((({ s with mode, runner } : Selector).autoTune r o).run.run next)
          = (.ok { plan with runTime := none }, next.note [.asked i.serial .variant]) := by
  have hall : ∀ i ∈ s.registry.implementations, i.Replays := hregistry ▸ replays_builtin
  obtain ⟨hdevice, runner, hmeasured, hstored⟩ := measured_of_autoTune hall htime hmode h
  obtain ⟨i, hi, hname, hfits, hfirst⟩ := again_of_measured hall hmeasured
  obtain ⟨hkind, haccepts⟩ := List.mem_filter.mp hi
  obtain ⟨hi, hkind⟩ := List.mem_filter.mp hkind
  rw [hregistry] at hi
  refine ⟨i, hi, hname, fun mode runner next hnext => ?_⟩
  have hstorable : Records.Storable r.fingerprint ⟨plan.implementation, plan.variant⟩ :=
    ⟨⟨isWord_fingerprint r, hname ▸ isWord_builtin i hi⟩, hfits⟩
  have hearlier : ({ s with mode, runner } : Selector).earlier? r next.cache
      = some ⟨plan.implementation, plan.variant⟩ := by
    unfold earlier?
    rw [hnext, hstored, hcache.lookup_store hstorable]
    rfl
  have hfind : ({ s with mode, runner } : Selector).registry.find? r.kind plan.implementation
      = some i := by
    rw [← of_decide_eq_true hkind, ← hname]
    exact hregistry ▸ Registry.find?_of_nodup nodup_builtin hi
  obtain ⟨e, hrun⟩ := run_variant (s := { s with mode, runner }) hfind haccepts plan.variant next
  obtain ⟨given, rest, hplans, -⟩ := given_of_firstPlan? hfirst
  refine autoTune_of_replay (s := { s with mode, runner }) hdevice hearlier (hrun.trans ?_)
  rw [hfirst, hplans]
  rfl

/-- A window of three by three over one feature, in a buffer with a border. -/
def bordered : Request :=
  ⟨"c", .convolution
    ⟨⟨.none, [⟨.f32, .bfyx, ⟨1, 1, 2, 2⟩, ⟨⟨0, 0, 1, 1⟩, ⟨0, 0, 1, 1⟩⟩⟩],
        ⟨.f32, .bfyx, ⟨1, 1, 2, 2⟩, .none⟩⟩,
      ⟨⟨.f32, .oiyx, 1, 1, 3, 3⟩, []⟩, ⟨3, 3⟩, ⟨1, 1⟩, ⟨1, 1⟩, ⟨1, 1⟩, 1⟩⟩

/-- A selector that measures the tiles of the kernel for such windows; its runner prefers one of them. -/
def measuring : Selector :=
  { builtin .default with
    overrides := ⟨[], [Builtin.convolutionBlockName]⟩
    mode := .tuneAndCache
    runner := some fun plans => .ok (plans.map fun plan => if plan.variant = some 12 then 3 else 8) }

/-- A session whose file names a kernel that is not registered any more. -/
def withdrawn : Session := ⟨.text (Records.line bordered.fingerprint ⟨"withdrawn", none⟩), []⟩

theorem autoTune_replays_bordered : measuring.registry = .builtin ∧ measuring.mode = .tuneAndCache ∧
    withdrawn.cache.Intact ∧ ∃ plan session' time,
    (measuring.autoTune bordered ⟨true, .empty⟩).run.run withdrawn = (.ok plan, session') ∧
    plan.runTime = some time ∧ plan.variant = some 12 ∧
    ∃ i ∈ Registry.builtin.implementations, i.name = plan.implementation ∧
      ∀ (mode : TuningMode) (runner : Option Runner) (next : Session), next.cache = session'.cache →
        ((({ measuring with mode, runner } : Selector).autoTune bordered ⟨true, .empty⟩).run.run next)
          = (.ok { plan with runTime := none }, next.note [.asked i.serial .variant]) := by
  have hintact : withdrawn.cache.Intact :=
    Records.whole_line ⟨isWord_fingerprint bordered, by decide⟩
  have hmeasured : ((measuring.autoTune bordered ⟨true, .empty⟩).run.run withdrawn).1.toOption.map
      (fun plan => (plan.runTime, plan.variant)) = some (some 3, some 12) := by decide +kernel
  rcases hrun : (measuring.autoTune bordered ⟨true, .empty⟩).run.run withdrawn
    with ⟨e | plan, session'⟩
  · rw [hrun] at hmeasured
    cases hmeasured
  · rw [hrun] at hmeasured
    obtain ⟨htime, hvariant⟩ := Prod.mk.inj (Option.some.inj hmeasured)
    exact ⟨rfl, rfl, hintact, plan, session', 3, rfl, htime, hvariant,
      autoTune_replays rfl rfl hintact hrun htime⟩

end Selector

end NetPlan
