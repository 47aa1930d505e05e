import NetPlan.Proofs.Kernel.Costs
import NetPlan.Proofs.Kernel.Offered
import NetPlan.Proofs.Kernel.Replay

/-!
# Proofs/Kernel/Fastest — what is selected by measurement

An earlier result may be of no use, kernels may refuse, a measurement may fail or come to nothing: none of
this ends a selection.  What is left in the end is the comparison of costs.

* `Selector.FallsBack` — a selection that fails only as the comparison of costs does;
* `Selector.select_fallsBack` — every selection is of that kind, whatever its mode and session.

Where there is a runner and no earlier result is of use, the candidates that are not denied are
timed: those with tuning variants, and the others only if none of the first has a time.  A candidate
that refuses, whose run fails or comes back with another number of times, has no timed plans.

* `Selector.timed` — the plans of a candidate with their times, and `Selector.measured` those of a
  phase;
* `Selector.measure_eq`, `Selector.measureAll_eq` — the loops by their phases;
* `Selector.select_measured` — the earliest of least time is selected, each candidate is run once,
  and the file gains the one record.
-/

namespace NetPlan.Selector

/-! ## No request is lost -/

open Kernel

variable {s : Selector} {r : Request} {o : Options}

/-- The selection fails only where the comparison of costs does, with its error, and leaves the file. -/
def FallsBack (s : Selector) (r : Request) (o : Options) (x : SelectM Plan) : Prop :=
  ∀ session e session', x.run.run session = (.error e, session') →
    s.naive? r o = .error e ∧ session'.cache = session.cache

theorem cache_run_naive (s : Selector) (r : Request) (o : Options) (session : Session) :
    ((s.naive r o).run.run session).2.cache = session.cache := by
  unfold naive
  split <;> rfl

theorem naive_fallsBack : s.FallsBack r o (s.naive r o) := by
  intro session e session' hrun
  have herror := s.run_naive r o session
  have hcache := s.cache_run_naive r o session
  rw [hrun] at herror hcache
  exact ⟨herror.symm, hcache⟩

/-- A measurement has a plan or leaves the choice to the costs. -/
theorem tune_fallsBack : s.FallsBack r o (s.tune r o) := by
  by_cases hmeasures : ∃ runner, s.mode = .tuneAndCache ∧ s.runner = some runner
  · obtain ⟨runner, hmode, hrunner⟩ := hmeasures
    intro session e session' hrun
    rw [run_tune hmode hrunner] at hrun
    rcases hbest : s.measureAll runner r o with ⟨_ | plan, events⟩
    · rw [hbest] at hrun
      exact naive_fallsBack (session.note events) e session' hrun
    · rw [hbest] at hrun
      cases hrun
  · have hnaive : s.tune r o = s.naive r o := by
      unfold tune
      split
      · next runner hmode hrunner => exact absurd ⟨runner, hmode, hrunner⟩ hmeasures
      · rfl
    exact hnaive ▸ naive_fallsBack

/-- An earlier result is replayed or does not count. -/
theorem autoTune_fallsBack : s.FallsBack r o (s.autoTune r o) := by
  intro session e session' hrun
  rw [run_autoTune] at hrun
  rcases hdevice : s.deviceError? r with _ | refused
  · rw [hdevice] at hrun
    rcases hearlier : s.earlier? r session.cache with _ | entry
    · rw [hearlier] at hrun
      exact tune_fallsBack session e session' hrun
    · rw [hearlier] at hrun
      dsimp only at hrun
      have hcache := cache_run_variant s r o entry.implementation entry.variant session
      rcases hreplay : (s.variant r o entry.implementation entry.variant).run.run session
        with ⟨_ | plan, t⟩
      · rw [hreplay] at hrun hcache
        obtain ⟨herror, hkept⟩ := tune_fallsBack t e session' hrun
        exact ⟨herror, hkept.trans hcache⟩
      · rw [hreplay] at hrun
        cases hrun
  · rw [hdevice] at hrun
    cases hrun
    refine ⟨?_, rfl⟩
    unfold naive?
    rw [hdevice]

/-- **Every selection falls back on the costs.** -/
theorem select_fallsBack : s.FallsBack r o (s.select r o) := by
  unfold select
  split
  · exact naive_fallsBack
  · exact autoTune_fallsBack

/-- **Tuning loses no request.**  Where a selection fails, whatever the registry, the lists, the tables, the
mode, the runner and the file are, selecting by cost fails with the same error in every session; and the
file is what it was. -/
theorem naive_fails_of_select_fails {e : SelectError} {session session' : Session}
    (h : (s.select r o).run.run session = (.error e, session')) :
    (∀ t, ((s.naive r o).run.run t).1 = .error e) ∧ session'.cache = session.cache := by
  obtain ⟨herror, hcache⟩ := select_fallsBack session e session' h
  exact ⟨fun t => (s.run_naive r o t).trans herror, hcache⟩

/-- A selector that denies every kernel and measures with a runner that fails. -/
def hopeless : Selector :=
  { builtin .default with
    overrides := ⟨[], Registry.builtin.implementations.map (·.name)⟩
    mode := .tuneAndCache
    runner := some fun _ => .error "no device" }

/-- A session whose file names, for a matrix product, a kernel that does not exist. -/
def stale : Session := ⟨.text (Tuning.Records.line product.fingerprint ⟨"withdrawn", some 3⟩), []⟩

/-- Nothing can be replayed, measured or chosen by cost. -/
theorem naive_fails_of_select_fails_hopeless :
    hopeless.earlier? product stale.cache = some ⟨"withdrawn", some 3⟩ ∧
    ∃ e session', (hopeless.select product ⟨true, .empty⟩).run.run stale = (.error e, session') ∧
      (∀ t, ((hopeless.naive product ⟨true, .empty⟩).run.run t).1 = .error e) ∧
      session'.cache = stale.cache := by
  have hfails : ((hopeless.select product ⟨true, .empty⟩).run.run stale).1.toBool = false := by
    decide +kernel
  refine ⟨by decide +kernel, ?_⟩
  rcases hrun : (hopeless.select product ⟨true, .empty⟩).run.run stale with ⟨e | plan, session'⟩
  · exact ⟨e, session', rfl, naive_fails_of_select_fails hrun⟩
  · rw [hrun] at hfails
    cases hfails

end NetPlan.Selector

/-! ## The least time -/

namespace NetPlan

open Kernel Tuning

/-! ## What a journal says of the runner -/

/-- The lists of plans that the runner was given. -/
def calls (events : List Event) : List (List Plan) :=
  events.filterMap fun
    | .timed plans => some plans
    | .asked _ _ | .broke _ => none

@[simp] theorem calls_append (xs ys : List Event) : calls (xs ++ ys) = calls xs ++ calls ys :=
  List.filterMap_append

/-- No implementation calls the runner. -/
theorem calls_ofAnswer (i : Implementation) (q : Question) (answer : Except Refusal (List Plan)) :
    calls (Event.ofAnswer i q answer) = [] := by
  unfold Event.ofAnswer
  split <;> rfl

theorem calls_flatMap_ofAnswer (q : Question) (answer : Implementation → Except Refusal (List Plan)) :
    ∀ is : List Implementation, calls (is.flatMap fun i => Event.ofAnswer i q (answer i)) = []
  | [] => rfl
  | i :: is => by
      rw [List.flatMap_cons, calls_append, calls_ofAnswer, calls_flatMap_ofAnswer q answer is]
      rfl

/-- A selection only writes to the journal, and the runner has no part in it. -/
def Quiet (x : SelectM Plan) (session : Session) : Prop :=
  ∃ events, calls events = [] ∧ (x.run.run session).2 = session.note events

namespace Selector

variable {s : Selector} {r : Request} {o : Options} {runner : Runner}

theorem quiet_naive (s : Selector) (r : Request) (o : Options) (session : Session) :
    Quiet (s.naive r o) session := by
  unfold naive Quiet
  split
  · exact ⟨_, calls_flatMap_ofAnswer .plan _ _, rfl⟩
  · exact ⟨[], rfl, by simp [Session.note]; rfl⟩

theorem quiet_variant (s : Selector) (r : Request) (o : Options) (name : String)
    (index : Option Nat) (session : Session) : Quiet (s.variant r o name index) session := by
  have hnothing : session = session.note [] := by simp [Session.note]
  cases hfind : s.registry.find? r.kind name with
  | none =>
    refine ⟨[], rfl, ?_⟩
    unfold variant
    rw [hfind]
    exact hnothing
  | some i =>
    cases haccepts : s.accepts r o i with
    | false =>
      refine ⟨[], rfl, ?_⟩
      unfold variant
      rw [hfind]
      dsimp only
      rw [haccepts]
      exact hnothing
    | true =>
      obtain ⟨e, hrun⟩ := run_variant hfind haccepts index session
      exact ⟨_, calls_ofAnswer i .variant _, by rw [hrun]⟩

/-! ## The plans of a candidate -/

/-- The plans of an implementation that can be run. -/
def runnable (r : Request) (o : Options) (i : Implementation) : List Plan :=
  match i.planAll r o with
  | .ok plans => plans.filter (!·.isEmpty)
  | .error _ => []

/-- Plans with the times the runner gives them; none where it fails or gives another number of
times. -/
def timed (runner : Runner) (i : Implementation) (plans : List Plan) : List Plan :=
  match runner plans with
  | .ok times =>
    if times.length = plans.length then
      (plans.zip times).map fun (plan, time) =>
        { plan with runTime := some time, implementation := i.name }
    else []
  | .error _ => []

@[simp] theorem timed_nil (i : Implementation) : timed runner i [] = [] := by
  unfold timed
  split
  · split <;> rfl
  · rfl

theorem isSome_of_timed {i : Implementation} {plans : List Plan} :
    ∀ plan ∈ timed runner i plans, plan.runTime.isSome = true := by
  intro plan hplan
  unfold timed at hplan
  split at hplan
  · split at hplan
    · obtain ⟨⟨given, time⟩, -, rfl⟩ := List.mem_map.mp hplan
      rfl
    · cases hplan
  · cases hplan

/-- **A measurement**: the runner is called with what can be run, if there is anything. -/
theorem measure_eq (i : Implementation) : measure runner r o i =
    (timed runner i (runnable r o i), Event.ofAnswer i .all (i.planAll r o)
      ++ if runnable r o i = [] then [] else [.timed (runnable r o i)]) := by
  unfold measure
  dsimp only
  split
  case h_1 e hplans =>
    have hnothing : runnable r o i = [] := by
      unfold runnable
      rw [hplans]
    rw [hnothing, timed_nil, if_pos rfl, List.append_nil]
  case h_2 plans hplans =>
    have husable : plans.filter (!·.isEmpty) = runnable r o i := by
      unfold runnable
      rw [hplans]
    split
    case h_1 hnothing =>
      rw [← husable, hnothing, timed_nil, if_pos rfl, List.append_nil]
    case h_2 hsome =>
      rw [husable] at hsome ⊢
      rw [if_neg hsome]
      unfold timed
      cases runner (runnable r o i) with
      | error e => rfl
      | ok times =>
        dsimp only
        by_cases hlength : times.length = (runnable r o i).length
        · rw [if_neg (not_not.mpr hlength), if_pos hlength]
        · rw [if_pos hlength, if_neg hlength]

/-! ## Phases -/

/-- The candidates of a phase: those that are not denied, with tuning variants or without.  On a
device without the precision there are none. -/
def phase (s : Selector) (r : Request) (o : Options) (tunable : Bool) : List Implementation :=
  if (s.deviceError? r).isSome then []
  else (s.candidates r o).filter fun i => i.tunable = tunable && !s.overrides.isDenied i.name

/-- The timed plans of a phase, in the order of registration. -/
def measured (s : Selector) (runner : Runner) (r : Request) (o : Options) (tunable : Bool) :
    List Plan :=
  (s.phase r o tunable).flatMap fun i => timed runner i (runnable r o i)

/-- What the runner is given in a phase: for each candidate all it can run, if that is anything. -/
def batches (s : Selector) (r : Request) (o : Options) (tunable : Bool) : List (List Plan) :=
  ((s.phase r o tunable).map (runnable r o)).filter (· ≠ [])

/-- What is noted in a phase. -/
def notes (s : Selector) (runner : Runner) (r : Request) (o : Options) (tunable : Bool) :
    List Event :=
  (s.phase r o tunable).flatMap fun i => (measure runner r o i).2

theorem calls_notes (tunable : Bool) :
    calls (s.notes runner r o tunable) = s.batches r o tunable := by
  unfold notes batches
  induction s.phase r o tunable with
  | nil => rfl
  | cons i is ih =>
    rw [List.flatMap_cons, calls_append, ih, measure_eq, List.map_cons, calls_append, calls_ofAnswer]
    by_cases hnothing : runnable r o i = []
    · rw [if_pos hnothing, List.filter_cons_of_neg (by simpa using hnothing)]
      rfl
    · rw [if_neg hnothing, List.filter_cons_of_pos (by simpa using hnothing)]
      rfl

/-- **The fastest of a phase** is the earliest of least time. -/
theorem exists_fastest? {tunable : Bool} (h : s.measured runner r o tunable ≠ []) :
    ∃ plan, fastest? (s.measured runner r o tunable) = some plan ∧
      FirstLeast ranFaster (s.measured runner r o tunable) plan := by
  have htimes : ∀ plan ∈ s.measured runner r o tunable, ∃ time, plan.runTime = some time :=
    fun plan hplan => by
      obtain ⟨i, -, hi⟩ := List.mem_flatMap.mp hplan
      exact Option.isSome_iff_exists.mp (isSome_of_timed plan hi)
  refine exists_foldl_eq_some (fun plan : Plan => plan.runTime.getD 0) (fun _ => rfl)
    (fun _ _ => rfl) _ (fun p hp q hq => ?_) h
  obtain ⟨t, ht⟩ := htimes p hp
  obtain ⟨u, hu⟩ := htimes q hq
  rw [ranFaster, ht, hu]
  exact decide_eq_true_iff

theorem measureAll_eq (hdevice : s.deviceError? r = none) : s.measureAll runner r o =
    match fastest? (s.measured runner r o true) with
    | some plan => (some plan, s.notes runner r o true)
    | none => (fastest? (s.measured runner r o false),
        s.notes runner r o true ++ s.notes runner r o false) := by
  have hphase : ∀ tunable, ((s.candidates r o).filter fun i => !s.overrides.isDenied i.name).filter
      (·.tunable = tunable) = s.phase r o tunable := fun tunable => by
    rw [List.filter_filter, phase, hdevice]
    rfl
  have hplans : ∀ tunable, ((s.phase r o tunable).map (measure runner r o)).flatMap (·.1)
      = s.measured runner r o tunable := fun tunable => by
    simp only [List.flatMap_map, measure_eq, measured]
  have hevents : ∀ tunable, ((s.phase r o tunable).map (measure runner r o)).flatMap (·.2)
      = s.notes runner r o tunable := fun tunable => List.flatMap_map ..
  cases hfirst : fastest? (s.measured runner r o true) with
  | some plan => simp only [measureAll, hphase, hplans, hevents, hfirst]
  | none => simp only [measureAll, hphase, hplans, hevents, hfirst]

/-- The plan that a measurement is to come to: of the first phase, if that has timed plans. -/
inductive Wins (s : Selector) (runner : Runner) (r : Request) (o : Options) (plan : Plan) :
    Prop where
  | tunable (least : FirstLeast ranFaster (s.measured runner r o true) plan)
  | fixed (none : s.measured runner r o true = [])
      (least : FirstLeast ranFaster (s.measured runner r o false) plan)

/-- **The phases**: what the runner was given, and what came of it. -/
theorem measureAll_spec (hdevice : s.deviceError? r = none) :
    calls (s.measureAll runner r o).2 = s.batches r o true ++
        (if s.measured runner r o true = [] then s.batches r o false else []) ∧
      ((∃ plan, (s.measureAll runner r o).1 = some plan ∧ s.Wins runner r o plan) ∨
        (s.measureAll runner r o).1 = none ∧ s.measured runner r o true = [] ∧
          s.measured runner r o false = []) := by
  rw [measureAll_eq hdevice]
  by_cases hfirst : s.measured runner r o true = []
  · rw [if_pos hfirst, hfirst]
    refine ⟨by rw [← calls_notes, ← calls_notes, ← calls_append]; rfl, ?_⟩
    by_cases hsecond : s.measured runner r o false = []
    · exact Or.inr ⟨by rw [hsecond]; rfl, rfl, hsecond⟩
    · obtain ⟨plan, hplan, hleast⟩ := exists_fastest? hsecond
      exact Or.inl ⟨plan, hplan, .fixed hfirst hleast⟩
  · obtain ⟨plan, hplan, hleast⟩ := exists_fastest? hfirst
    rw [if_neg hfirst, hplan, List.append_nil]
    exact ⟨calls_notes true, Or.inl ⟨plan, rfl, .tunable hleast⟩⟩

/-! ## The selection -/

/-- Before measuring, the runner is not called and the file not written. -/
theorem exists_run_tune {session : Session} (hdevice : s.deviceError? r = none)
    (hstale : ∀ entry, s.earlier? r session.cache = some entry → ∃ e,
      ((s.variant r o entry.implementation entry.variant).run.run session).1 = .error e) :
    ∃ events, calls events = [] ∧ (s.autoTune r o).run.run session
      = (s.tune r o).run.run (session.note events) := by
  rw [run_autoTune, hdevice]
  dsimp only
  cases hearlier : s.earlier? r session.cache with
  | none => exact ⟨[], rfl, by simp [Session.note]⟩
  | some entry =>
    obtain ⟨e, he⟩ := hstale entry hearlier
    obtain ⟨events, hcalls, hsession⟩ :=
      quiet_variant s r o entry.implementation entry.variant session
    refine ⟨events, hcalls, ?_⟩
    dsimp only
    rcases hrun : (s.variant r o entry.implementation entry.variant).run.run session with ⟨_ | _, t⟩
    · rw [hrun] at hsession
      rw [← hsession]
    · rw [hrun] at he
      cases he

/-- A file that can be written and, if it exists, read. -/
def Writable (f : CacheFile) : Prop := f = .absent ∨ ∃ contents, f = .text contents

theorem store_of_writable {f : CacheFile} (h : Writable f) (hash : String) (entry : Entry) :
    f.store hash entry = .text (f.contents?.getD "" ++ Records.line hash entry) := by
  rcases h with rfl | ⟨contents, rfl⟩
  · simp [CacheFile.store, CacheFile.contents?]
  · rfl

theorem store_of_unreadable {f : CacheFile} {bytes : List UInt8} (h : f = .unreadable bytes)
    (hash : String) (entry : Entry) :
    f.store hash entry = .unreadable (bytes ++ (Records.line hash entry).toUTF8.toList) := by
  rw [h, CacheFile.store]

theorem store_of_not_writable {f : CacheFile} (h : ¬ Writable f)
    (hbytes : ∀ bytes, f ≠ .unreadable bytes) (hash : String) (entry : Entry) :
    f.store hash entry = f := by
  cases f with
  | unset | readOnly | unusable => rfl
  | absent => exact absurd (Or.inl rfl) h
  | text contents => exact absurd (Or.inr ⟨contents, rfl⟩) h
  | unreadable bytes => exact absurd rfl (hbytes bytes)

/-- **What is selected by measurement**, where there is a runner and no earlier result that can be
replayed. A plan that wins is selected, and the file gains the record of its name and variant if it
can be written, be it read or not; if no plan has a time, the costs decide and the file stays.  The
runner is called once for each candidate that has something to run, and for those without variants
only if none with variants has a time. -/
theorem select_measured {session : Session} (hmode : s.mode = .tuneAndCache)
    (hrunner : s.runner = some runner)
    (hstale : ∀ entry, s.earlier? r session.cache = some entry → ∃ e,
      ((s.variant r o entry.implementation entry.variant).run.run session).1 = .error e) :
    ∃ result session' events, (s.select r o).run.run session = (result, session') ∧
      ((∃ plan, s.Wins runner r o plan ∧ result = .ok plan ∧
          (Writable session.cache → session'.cache = .text (session.cache.contents?.getD "" ++
            Records.line r.fingerprint ⟨plan.implementation, plan.variant⟩)) ∧
          (∀ bytes, session.cache = .unreadable bytes → session'.cache = .unreadable (bytes ++
            (Records.line r.fingerprint ⟨plan.implementation, plan.variant⟩).toUTF8.toList)) ∧
          (¬ Writable session.cache → (∀ bytes, session.cache ≠ .unreadable bytes) →
            session'.cache = session.cache)) ∨
        (s.measured runner r o true = [] ∧ s.measured runner r o false = [] ∧
          result = ((s.naive r o).run.run session).1 ∧ session'.cache = session.cache)) ∧
      session'.journal = session.journal ++ events ∧
      calls events = s.batches r o true ++
        (if s.measured runner r o true = [] then s.batches r o false else []) := by
  rw [select, if_neg (by rw [hmode]; decide)]
  cases hdevice : s.deviceError? r with
  | some e =>
    have hphase : ∀ tunable, s.phase r o tunable = [] := fun tunable => by
      rw [phase, hdevice]
      rfl
    refine ⟨.error e, session, [], by rw [run_autoTune, hdevice], Or.inr ⟨?_, ?_, ?_, rfl⟩,
      by simp, ?_⟩
    · rw [measured, hphase]
      rfl
    · rw [measured, hphase]
      rfl
    · rw [run_naive, naive?, hdevice]
    · simp [batches, hphase, calls]
  | none =>
    obtain ⟨before, hbefore, hrun⟩ := exists_run_tune hdevice hstale
    obtain ⟨hcalls, hbest⟩ := @measureAll_spec s r o runner hdevice
    rw [hrun, run_tune hmode hrunner]
    generalize s.measureAll runner r o = all at hcalls hbest ⊢
    obtain ⟨best, events⟩ := all
    rcases hbest with ⟨plan, hplan, hwins⟩ | ⟨hnone, hempty⟩
    · cases hplan
      refine ⟨_, _, before ++ events, rfl, Or.inl ⟨plan, hwins, rfl,
        fun h => store_of_writable h _ _, fun bytes h => store_of_unreadable h _ _,
        fun h hbytes => store_of_not_writable h hbytes _ _⟩, ?_, ?_⟩
      · simp [Session.note]
      · rw [calls_append, hbefore, hcalls, List.nil_append]
    · cases hnone
      have hresult := s.run_naive r o ((session.note before).note events)
      have hcache := cache_run_naive s r o ((session.note before).note events)
      obtain ⟨asked, hasked, hsession⟩ := quiet_naive s r o ((session.note before).note events)
      dsimp only
      generalize (s.naive r o).run.run ((session.note before).note events) = last
        at hresult hcache hsession ⊢
      obtain ⟨result, session'⟩ := last
      refine ⟨result, session', before ++ events ++ asked, rfl,
        Or.inr ⟨hempty.1, hempty.2, hresult.trans (s.run_naive r o session).symm, hcache⟩, ?_, ?_⟩
      · cases hsession
        simp [Session.note]
      · rw [calls_append, calls_append, hbefore, hasked, hcalls, List.nil_append, List.append_nil]

/-- Tiles are timed, since the kernel that the file names is not registered any more. -/
theorem select_measured_bordered : ∃ runner, measuring.mode = .tuneAndCache ∧
    measuring.runner = some runner ∧
    (∀ entry, measuring.earlier? bordered withdrawn.cache = some entry → ∃ e,
      ((measuring.variant bordered ⟨true, .empty⟩ entry.implementation entry.variant).run.run
        withdrawn).1 = .error e) ∧
    measuring.measured runner bordered ⟨true, .empty⟩ true ≠ [] ∧ Writable withdrawn.cache ∧
    ∃ result session' events,
      (measuring.select bordered ⟨true, .empty⟩).run.run withdrawn = (result, session') ∧
      ((∃ plan, measuring.Wins runner bordered ⟨true, .empty⟩ plan ∧ result = .ok plan ∧
          (Writable withdrawn.cache →
            session'.cache = .text (withdrawn.cache.contents?.getD "" ++
              Records.line bordered.fingerprint ⟨plan.implementation, plan.variant⟩)) ∧
          (∀ bytes, withdrawn.cache = .unreadable bytes → session'.cache = .unreadable (bytes ++
            (Records.line bordered.fingerprint ⟨plan.implementation, plan.variant⟩).toUTF8.toList)) ∧
          (¬ Writable withdrawn.cache → (∀ bytes, withdrawn.cache ≠ .unreadable bytes) →
            session'.cache = withdrawn.cache)) ∨
        (measuring.measured runner bordered ⟨true, .empty⟩ true = [] ∧
          measuring.measured runner bordered ⟨true, .empty⟩ false = [] ∧
          result = ((measuring.naive bordered ⟨true, .empty⟩).run.run withdrawn).1 ∧
          session'.cache = withdrawn.cache)) ∧
      session'.journal = withdrawn.journal ++ events ∧
      calls events = measuring.batches bordered ⟨true, .empty⟩ true ++
        (if measuring.measured runner bordered ⟨true, .empty⟩ true = []
          then measuring.batches bordered ⟨true, .empty⟩ false else []) := by
  have hstale : ∀ entry, measuring.earlier? bordered withdrawn.cache = some entry → ∃ e,
      ((measuring.variant bordered ⟨true, .empty⟩ entry.implementation entry.variant).run.run
        withdrawn).1 = .error e := by
    intro entry hentry
    have hearlier : measuring.earlier? bordered withdrawn.cache = some ⟨"withdrawn", none⟩ := by
      decide +kernel
    cases hearlier.symm.trans hentry
    exact ⟨_, rfl⟩
  exact ⟨_, rfl, rfl, hstale, by decide +kernel, Or.inr ⟨_, rfl⟩, select_measured rfl rfl hstale⟩

end Selector

end NetPlan
