import NetPlan.Proofs.Kernel.Coverage

/-!
# Proofs/Kernel/Offered — every plan that is selected was offered

A plan is selected by cost, by measurement or from an earlier result.  An earlier result is only a name
and an index, and may come from anywhere; what it leads to passes the same tests as all else.

* `Selector.Offers` — a candidate for the request gave the plan, under its own name;
* `Selector.replay_or_tune` — a plan is an earlier result that was replayed, or a new one;
* `Selector.selects_select` — whatever the selector, every plan it selects is offered, and its device
  has the precision;
* `Selector.select_accepted` — so the implementation of the name is registered for the kind, its key
  covers the request and the device can run it;
* `Selector.selects_tune_heeding` — every new result is of a kernel that is forced or not denied;
* `Selector.select_denied_iff` — so a denied kernel is selected where an earlier result names it and can
  be replayed, and nowhere else.
-/

namespace NetPlan

open Kernel

/-! ## Results of selections -/

section Selects

variable {α β : Type} {P : α → Prop} {Q : β → Prop}

/-- A selection has only results with a property, whatever the session. -/
def Selects (P : α → Prop) (x : SelectM α) : Prop :=
  ∀ session a session', x.run.run session = (.ok a, session') → P a

theorem selects_pure {a : α} (h : P a) : Selects P (pure a) := fun _ _ _ hrun => by
  cases hrun
  exact h

theorem selects_throw (e : SelectError) : Selects P (throw e) := fun _ _ _ hrun => by cases hrun

theorem Selects.imp {x : SelectM α} {P' : α → Prop} (h : Selects P x) (himp : ∀ a, P a → P' a) :
    Selects P' x :=
  fun session a session' hrun => himp a (h session a session' hrun)

theorem run_bind (x : SelectM α) (f : α → SelectM β) (session : Session) :
    (x >>= f).run.run session = match x.run.run session with
      | (.ok a, t) => (f a).run.run t
      | (.error e, t) => (.error e, t) := by
  rw [ExceptT.run_bind, StateT.run_bind]
  rcases x.run.run session with ⟨r | r, t⟩ <;> rfl

theorem run_tryCatch (x : SelectM α) (f : SelectError → SelectM α) (session : Session) :
    (tryCatch x f).run.run session = match x.run.run session with
      | (.ok a, t) => (.ok a, t)
      | (.error e, t) => (f e).run.run t := by
  rw [ExceptT.run_tryCatch, StateT.run_bind]
  rcases x.run.run session with ⟨r | r, t⟩ <;> rfl

theorem selects_bind {x : SelectM α} {f : α → SelectM β} (hf : ∀ a, Selects Q (f a)) :
    Selects Q (x >>= f) := fun session b session' hrun => by
  rw [run_bind] at hrun
  rcases hx : x.run.run session with ⟨e | a, t⟩
  · rw [hx] at hrun
    cases hrun
  · rw [hx] at hrun
    exact hf a t b session' hrun

end Selects

/-! ## What implementations give -/

/-- A plan is among the answers of an implementation, to whichever question. -/
def Kernel.Implementation.Gives (i : Implementation) (r : Request) (o : Options) (plan : Plan) :
    Prop :=
  ∃ plans, plan ∈ plans ∧
    (i.plan r o = .ok plans ∨ (∃ index, i.planVariant index r o = .ok plans) ∨
      i.planAll r o = .ok plans)

/-- A kernel without variants gives what its planner does, to whichever question. -/
theorem Kernel.exists_of_gives_fixed {name : String} {kind : Kind} {key : Key} {planner : Planner}
    {r : Request} {o : Options} {plan : Plan}
    (h : (Implementation.fixed name kind key planner).Gives r o plan) :
    ∃ plans, planner r o = .ok plans ∧ plan ∈ plans := by
  obtain ⟨plans, hmem, hplan | ⟨index, hvariant⟩ | hall⟩ := h
  · exact ⟨plans, hplan, hmem⟩
  · cases index with
    | none => exact ⟨plans, hvariant, hmem⟩
    | some _ => cases hvariant
  · exact ⟨plans, hall, hmem⟩

namespace Selector

variable {s : Selector} {r : Request} {o : Options} {i : Implementation} {plan : Plan}

/-- A plan with launches that an implementation gives, under its name and with a time if it was
measured. -/
def Labels (i : Implementation) (r : Request) (o : Options) (plan : Plan) : Prop :=
  ∃ given, i.Gives r o given ∧ given.isEmpty = false ∧
    plan = { given with implementation := i.name, runTime := plan.runTime }

/-- Some candidate gives the plan. -/
def Offers (s : Selector) (r : Request) (o : Options) (plan : Plan) : Prop :=
  ∃ i ∈ s.candidates r o, Labels i r o plan

theorem given_of_firstPlan? {answer : Except Refusal (List Plan)}
    (h : firstPlan? i answer = some plan) : ∃ given rest, answer = .ok (given :: rest) ∧
      given.isEmpty = false ∧ plan = { given with implementation := i.name } := by
  unfold firstPlan? at h
  split at h
  case h_1 first rest =>
    split at h
    · cases h
    case isFalse hempty =>
      cases h
      exact ⟨first, rest, rfl, Bool.eq_false_iff.mpr hempty, rfl⟩
  case h_2 => cases h

theorem name_of_firstPlan? {answer : Except Refusal (List Plan)}
    (h : firstPlan? i answer = some plan) : plan.implementation = i.name := by
  obtain ⟨given, rest, -, -, rfl⟩ := given_of_firstPlan? h
  rfl

theorem labels_of_firstPlan? {answer : Except Refusal (List Plan)}
    (hanswer : ∀ plans, answer = .ok plans → ∀ plan ∈ plans, i.Gives r o plan)
    (h : firstPlan? i answer = some plan) : Labels i r o plan := by
  obtain ⟨given, rest, hplans, hempty, rfl⟩ := given_of_firstPlan? h
  exact ⟨given, hanswer _ hplans given List.mem_cons_self, hempty, rfl⟩

/-! ## Offered plans -/

/-- By cost. -/
theorem offers_of_naive? (h : s.naive? r o = .ok plan) :
    s.deviceError? r = none ∧ s.Offers r o plan := by
  obtain ⟨hdevice, i, hi, hfirst, -⟩ := firstPlan?_of_naive? h
  exact ⟨hdevice, i, hi, labels_of_firstPlan? (fun plans hplans _ hmem =>
    ⟨plans, hmem, Or.inl hplans⟩) hfirst⟩

theorem selects_naive :
    Selects (fun plan => s.deviceError? r = none ∧ s.Offers r o plan) (s.naive r o) := by
  intro session plan session' hrun
  refine offers_of_naive? ?_
  rw [← s.run_naive r o session, hrun]

/-- By measurement. -/
theorem given_of_measure {runner : Runner} (h : plan ∈ (measure runner r o i).1) :
    ∃ plans given time, i.planAll r o = .ok plans ∧ given ∈ plans ∧ given.isEmpty = false ∧
      plan = { given with runTime := some time, implementation := i.name } := by
  unfold measure at h
  dsimp only at h
  split at h
  · cases h
  case h_2 plans hplans =>
    split at h
    · cases h
    split at h
    · cases h
    split at h
    · cases h
    · obtain ⟨⟨given, time⟩, hmem, rfl⟩ := List.mem_map.mp h
      obtain ⟨hgiven, husable⟩ := List.mem_filter.mp (List.of_mem_zip hmem).1
      exact ⟨plans, given, time, hplans, hgiven, by simpa using husable, rfl⟩

theorem labels_of_measure {runner : Runner} :
    ∀ plan ∈ (measure runner r o i).1, Labels i r o plan := by
  intro plan hplan
  obtain ⟨plans, given, time, hplans, hgiven, hempty, rfl⟩ := given_of_measure hplan
  exact ⟨given, ⟨plans, hgiven, Or.inr (Or.inr hplans)⟩, hempty, rfl⟩

/-- A fold that keeps the best so far or takes the next plan ends with one of them. -/
theorem mem_of_foldl {pick : Option Plan → Plan → Option Plan}
    (hpick : ∀ best next, pick best next = best ∨ pick best next = some next) (plans : List Plan)
    {best : Option Plan} (h : plans.foldl pick best = some plan) :
    best = some plan ∨ plan ∈ plans := by
  induction plans generalizing best with
  | nil => exact Or.inl h
  | cons next rest ih =>
    rcases ih h with hbest | hrest
    · rcases hpick best next with hkept | htaken
      · exact Or.inl (hkept ▸ hbest)
      · exact Or.inr (List.mem_cons.mpr (Or.inl (Option.some.inj (htaken ▸ hbest)).symm))
    · exact Or.inr (List.mem_cons_of_mem _ hrest)

theorem mem_of_fastest? {plans : List Plan} (h : fastest? plans = some plan) : plan ∈ plans := by
  refine (mem_of_foldl (fun best next => ?_) plans h).resolve_left (Option.some_ne_none _).symm
  split
  · exact Or.inr rfl
  · split
    · exact Or.inr rfl
    · exact Or.inl rfl

/-- What was measured as the fastest is a plan of a candidate that is not denied. -/
theorem exists_measured {runner : Runner} (h : (s.measureAll runner r o).1 = some plan) :
    ∃ i ∈ s.candidates r o, s.overrides.isDenied i.name = false ∧
      plan ∈ (measure runner r o i).1 := by
  have hphase : ∀ is : List Implementation,
      is ⊆ (s.candidates r o).filter (fun i => !s.overrides.isDenied i.name) →
      fastest? ((is.map (measure runner r o)).flatMap (·.1)) = some plan →
      ∃ i ∈ s.candidates r o, s.overrides.isDenied i.name = false ∧
        plan ∈ (measure runner r o i).1 := by
    intro is his hplan
    obtain ⟨measured, hmeasured, hplan⟩ := List.mem_flatMap.mp (mem_of_fastest? hplan)
    obtain ⟨i, hi, rfl⟩ := List.mem_map.mp hmeasured
    obtain ⟨hcandidate, hallowed⟩ := List.mem_filter.mp (his hi)
    exact ⟨i, hcandidate, by simpa using hallowed, hplan⟩
  unfold measureAll at h
  dsimp only at h
  split at h
  case h_1 first hfirst =>
    cases h
    exact hphase _ (fun i hi => List.mem_of_mem_filter hi) hfirst
  case h_2 => exact hphase _ (fun i hi => List.mem_of_mem_filter hi) h

theorem offers_of_measureAll {runner : Runner}
    (h : (s.measureAll runner r o).1 = some plan) : s.Offers r o plan := by
  obtain ⟨i, hi, -, hplan⟩ := exists_measured h
  exact ⟨i, hi, labels_of_measure plan hplan⟩

/-- From an earlier result: what it names passes the same tests as all else. -/
theorem selects_variant_first (name : String) (index : Option Nat) :
    Selects (fun plan => ∃ i, s.registry.find? r.kind name = some i ∧ s.accepts r o i = true ∧
      firstPlan? i (i.planVariant index r o) = some plan) (s.variant r o name index) := by
  unfold variant
  dsimp only
  split
  · exact selects_throw _
  case h_2 i hi =>
    cases haccepts : s.accepts r o i with
    | false => exact fun _ _ _ hrun => by cases hrun
    | true =>
      refine selects_bind fun _ => ?_
      split
      · exact selects_throw _
      case h_2 plans hplans =>
        split
        case h_1 plan hplan => exact selects_pure ⟨i, hi, haccepts, hplans ▸ hplan⟩
        case h_2 => exact selects_throw _

theorem selects_variant (name : String) (index : Option Nat) :
    Selects (s.Offers r o) (s.variant r o name index) :=
  (selects_variant_first name index).imp fun _ ⟨i, hi, haccepts, hplan⟩ =>
    ⟨i, List.mem_filter.mpr ⟨List.mem_of_find?_eq_some hi, haccepts⟩,
      labels_of_firstPlan? (fun plans hplans _ hmem =>
        ⟨plans, hmem, Or.inr (Or.inl ⟨index, hplans⟩)⟩) hplan⟩

theorem name_of_find? {name : String} (h : s.registry.find? r.kind name = some i) : i.name = name :=
  of_decide_eq_true (List.find?_some (p := fun i : Implementation => i.name = name) h)

theorem selects_variant_named (name : String) (index : Option Nat) :
    Selects (fun plan => plan.implementation = name) (s.variant r o name index) :=
  (selects_variant_first name index).imp fun _ ⟨_, hi, _, hplan⟩ =>
    (name_of_firstPlan? hplan).trans (name_of_find? hi)

/-- A new result is selected by cost or by measurement. -/
theorem selects_tune_of {P : Plan → Prop} (hnaive : Selects P (s.naive r o))
    (hmeasured : ∀ runner plan, (s.measureAll runner r o).1 = some plan → P plan) :
    Selects P (s.tune r o) := by
  unfold tune
  split
  case h_1 runner _ _ =>
    generalize hresult : s.measureAll runner r o = measured
    obtain ⟨best, events⟩ := measured
    refine selects_bind fun _ => ?_
    cases best with
    | none => exact hnaive
    | some plan =>
      exact selects_bind fun _ => selects_pure (hmeasured runner plan (congrArg Prod.fst hresult))
  case h_2 => exact hnaive

theorem selects_tune : Selects (s.Offers r o) (s.tune r o) :=
  selects_tune_of (selects_naive.imp fun _ h => h.2) fun _ _ => offers_of_measureAll

/-! ## Where a plan comes from -/

/-- An implementation that is found and accepts the request is asked, and nothing else happens. -/
theorem run_variant {name : String} (hfind : s.registry.find? r.kind name = some i)
    (haccepts : s.accepts r o i = true) (index : Option Nat) (session : Session) :
    ∃ e, (s.variant r o name index).run.run session
      = ((firstPlan? i (i.planVariant index r o)).elim (.error e) .ok,
        session.note (Event.ofAnswer i .variant (i.planVariant index r o))) := by
  unfold variant
  rw [hfind]
  dsimp only
  rw [haccepts, if_neg (by decide)]
  cases hplans : i.planVariant index r o with
  | error refusal => exact ⟨_, rfl⟩
  | ok plans =>
    refine ⟨.variantUnavailable name index "empty plan", ?_⟩
    dsimp only
    cases hfirst : firstPlan? i (.ok plans) <;> rfl

theorem cache_run_variant (s : Selector) (r : Request) (o : Options) (name : String)
    (index : Option Nat) (session : Session) :
    ((s.variant r o name index).run.run session).2.cache = session.cache := by
  cases hfind : s.registry.find? r.kind name with
  | none =>
    unfold variant
    rw [hfind]
    rfl
  | some i =>
    cases haccepts : s.accepts r o i with
    | false =>
      unfold variant
      rw [hfind]
      dsimp only
      rw [haccepts]
      rfl
    | true =>
      obtain ⟨e, hrun⟩ := run_variant hfind haccepts index session
      rw [hrun]
      rfl

/-- The run of a selection that measures. -/
theorem run_tune {runner : Runner} (hmode : s.mode = .tuneAndCache) (hrunner : s.runner = some runner)
    (session : Session) : (s.tune r o).run.run session = match s.measureAll runner r o with
      | (none, events) => (s.naive r o).run.run (session.note events)
      | (some plan, events) => (.ok plan, { session.note events with
          cache := session.cache.store r.fingerprint ⟨plan.implementation, plan.variant⟩ }) := by
  unfold tune
  rw [hmode, hrunner]
  dsimp only
  rcases s.measureAll runner r o with ⟨_ | plan, events⟩ <;> rfl

/-- The run of a selection that looks for an earlier result. -/
theorem run_autoTune (s : Selector) (r : Request) (o : Options) (session : Session) :
    (s.autoTune r o).run.run session = match s.deviceError? r with
      | some e => (.error e, session)
      | none => match s.earlier? r session.cache with
        | none => (s.tune r o).run.run session
        | some entry =>
          match (s.variant r o entry.implementation entry.variant).run.run session with
          | (.ok plan, t) => (.ok plan, t)
          | (.error _, t) => (s.tune r o).run.run t := by
  unfold autoTune
  cases s.deviceError? r with
  | some e => rfl
  | none =>
    change ((do
      match s.earlier? r (← get).cache with
      | none => s.tune r o
      | some entry =>
        tryCatch (s.variant r o entry.implementation entry.variant) fun _ => s.tune r o :
      SelectM Plan)).run.run session = _
    rw [run_bind]
    change (match s.earlier? r session.cache with
      | none => s.tune r o
      | some entry => tryCatch (s.variant r o entry.implementation entry.variant) fun _ =>
          s.tune r o : SelectM Plan).run.run session = _
    cases s.earlier? r session.cache with
    | none => rfl
    | some entry =>
      dsimp only
      rw [run_tryCatch]
      rcases (s.variant r o entry.implementation entry.variant).run.run session with ⟨e | plan, t⟩ <;>
        rfl

/-- An earlier result that can be replayed is selected. -/
theorem autoTune_of_replay {session session' : Session} {entry : Tuning.Entry}
    (hdevice : s.deviceError? r = none) (hearlier : s.earlier? r session.cache = some entry)
    (hreplay : (s.variant r o entry.implementation entry.variant).run.run session
      = (.ok plan, session')) : (s.autoTune r o).run.run session = (.ok plan, session') := by
  rw [run_autoTune, hdevice]
  dsimp only
  rw [hearlier]
  dsimp only
  rw [hreplay]

/-- What is selected with a look at earlier results is one of them or a new one, over a session with the
same file. -/
theorem replay_or_tune {session session' : Session}
    (h : (s.autoTune r o).run.run session = (.ok plan, session')) : s.deviceError? r = none ∧
      ((∃ entry, s.earlier? r session.cache = some entry ∧
        (s.variant r o entry.implementation entry.variant).run.run session = (.ok plan, session')) ∨
      ∃ t, t.cache = session.cache ∧ (s.tune r o).run.run t = (.ok plan, session')) := by
  rw [run_autoTune] at h
  cases hdevice : s.deviceError? r with
  | some e =>
    rw [hdevice] at h
    cases h
  | none =>
    rw [hdevice] at h
    refine ⟨rfl, ?_⟩
    cases hearlier : s.earlier? r session.cache with
    | none =>
      rw [hearlier] at h
      exact Or.inr ⟨session, rfl, h⟩
    | some entry =>
      rw [hearlier] at h
      dsimp only at h
      have hcache := cache_run_variant s r o entry.implementation entry.variant session
      rcases hrun : (s.variant r o entry.implementation entry.variant).run.run session
        with ⟨e | replayed, t⟩
      · rw [hrun] at h hcache
        exact Or.inr ⟨t, hcache, h⟩
      · rw [hrun] at h
        exact Or.inl ⟨entry, rfl, hrun.trans h⟩

/-- **Every plan that is selected is offered**, and the device has the precision. -/
theorem selects_select :
    Selects (fun plan => s.deviceError? r = none ∧ s.Offers r o plan) (s.select r o) := by
  unfold select
  split
  · exact selects_naive
  · intro session plan session' hrun
    obtain ⟨hdevice, ⟨entry, -, hreplay⟩ | ⟨t, -, htune⟩⟩ := replay_or_tune hrun
    · exact ⟨hdevice, selects_variant _ _ _ _ _ hreplay⟩
    · exact ⟨hdevice, selects_tune _ _ _ htune⟩

theorem element_of_deviceError? {operands : Operands} (h : s.deviceError? r = none)
    (ho : r.work.operands? = some operands) (hhalf : s.device.halfPrecision = false) :
    ∀ t ∈ operands.inputs ++ [operands.output], t.element ≠ .f16 := by
  unfold deviceError? at h
  rw [ho, hhalf] at h
  obtain ⟨hinputs, houtput⟩ : (∀ t ∈ operands.inputs, t.element ≠ .f16) ∧
      operands.output.element ≠ .f16 := by simpa using h
  exact List.forall_mem_append.mpr ⟨hinputs, List.forall_mem_singleton.mpr houtput⟩

/-- **What is selected may run**: an implementation that is registered for the kind of the request
under the name of the plan gave its launches, of which there are some; its key covers the request and
the device can run it, and has the precision of all data. -/
theorem select_accepted {session session' : Session}
    (h : (s.select r o).run.run session = (.ok plan, session')) :
    (∃ i ∈ s.registry.implementations, i.kind = r.kind ∧ i.name = plan.implementation ∧
      i.key.supports (o.requestKey r) = true ∧ s.device.canRun i.key = true ∧
      (i.key.needsSubgroups = true → s.device.subgroups = true) ∧
      ∃ given, i.Gives r o given ∧ given.launches = plan.launches) ∧
    (∀ operands, r.work.operands? = some operands → s.device.halfPrecision = false →
      ∀ t ∈ operands.inputs ++ [operands.output], t.element ≠ .f16) ∧
    plan.launches ≠ [] := by
  obtain ⟨hdevice, i, hi, given, hgives, hempty, hplan⟩ := selects_select session plan session' h
  obtain ⟨hkind, haccepts⟩ := List.mem_filter.mp hi
  obtain ⟨hregistered, hkind⟩ := List.mem_filter.mp hkind
  obtain ⟨hkey, hrun⟩ := Bool.and_eq_true_iff.mp haccepts
  have hlaunches : plan.launches = given.launches := by rw [hplan]
  refine ⟨⟨i, hregistered, of_decide_eq_true hkind, ?_, hkey, hrun, fun hneeds => ?_, given, hgives,
    hlaunches.symm⟩, fun operands ho hhalf => element_of_deviceError? hdevice ho hhalf, ?_⟩
  · rw [hplan]
  · simpa [Device.canRun, hneeds] using hrun
  · rw [hlaunches]
    simpa [Plan.isEmpty] using hempty

/-- A selector on a device without sub-groups that trusts earlier results. -/
def trusting : Selector :=
  { builtin ⟨24, false, true, 256⟩ with mode := .useCache }

/-- A matrix product of one batch. -/
def product : Request :=
  ⟨"f", .fullyConnected
    ⟨⟨.none, [⟨.f32, .bf, ⟨1, 4, 1, 1⟩, .none⟩], ⟨.f32, .bf, ⟨1, 2, 1, 1⟩, .none⟩⟩,
      ⟨⟨.f32, .oi, 2, 4, 1, 1⟩, []⟩⟩⟩

/-- A session whose cache names a sub-group kernel for it. -/
def misled : Session :=
  ⟨.text (Tuning.Records.line product.fingerprint ⟨Builtin.fullyConnectedSingleName, none⟩), []⟩

/-- The cache names a kernel that the device cannot run; the reference kernel is selected. -/
theorem select_accepted_misled :
    trusting.earlier? product misled.cache = some ⟨Builtin.fullyConnectedSingleName, none⟩ ∧
    ∃ plan session', (trusting.select product ⟨true, .empty⟩).run.run misled = (.ok plan, session') ∧
      plan.implementation = Builtin.fullyConnectedRefName ∧
      (∃ i ∈ trusting.registry.implementations, i.kind = product.kind ∧
        i.name = plan.implementation ∧
        i.key.supports (Options.requestKey ⟨true, .empty⟩ product) = true ∧
        trusting.device.canRun i.key = true ∧
        (i.key.needsSubgroups = true → trusting.device.subgroups = true) ∧
        ∃ given, i.Gives product ⟨true, .empty⟩ given ∧ given.launches = plan.launches) ∧
      (∀ operands, product.work.operands? = some operands → trusting.device.halfPrecision = false →
        ∀ t ∈ operands.inputs ++ [operands.output], t.element ≠ .f16) ∧
      plan.launches ≠ [] := by
  have hrun : ((trusting.select product ⟨true, .empty⟩).run.run misled).1.toOption.map
      (·.implementation) = some Builtin.fullyConnectedRefName := by decide +kernel
  refine ⟨by decide +kernel, ?_⟩
  rcases hselect : (trusting.select product ⟨true, .empty⟩).run.run misled with ⟨e | plan, session'⟩
  · rw [hselect] at hrun
    cases hrun
  · rw [hselect] at hrun
    exact ⟨plan, session', rfl, Option.some.inj hrun, select_accepted hselect⟩

/-! ## Kernels that are denied

The comparison of costs passes over what is denied and not forced, and what is denied is not measured.
An earlier result is replayed without a look at either list. -/

/-- The kernel of the plan may be chosen: it is forced, or not denied. -/
def Heeds (s : Selector) (plan : Plan) : Prop :=
  s.overrides.isForced plan.implementation = true ∨ s.overrides.isDenied plan.implementation = false

/-! ### New results -/

/-- By cost. -/
theorem selects_naive_heeding : Selects s.Heeds (s.naive r o) := by
  intro session plan session' hrun
  have h : s.naive? r o = .ok plan := by rw [← s.run_naive r o session, hrun]
  obtain ⟨-, i, -, hfirst, hallowed⟩ := firstPlan?_of_naive? h
  rw [Heeds, name_of_firstPlan? hfirst]
  exact hallowed

/-- By measurement. -/
theorem heeds_of_measureAll {runner : Runner}
    (h : (s.measureAll runner r o).1 = some plan) : s.Heeds plan := by
  obtain ⟨i, -, hallowed, hplan⟩ := exists_measured h
  obtain ⟨given, -, -, hlabel⟩ := labels_of_measure plan hplan
  refine Or.inr ?_
  rw [hlabel]
  exact hallowed

/-- **Every new result heeds the lists**, whether costs are compared, kernels are measured, or costs are
compared because nothing could be measured. -/
theorem selects_tune_heeding : Selects s.Heeds (s.tune r o) :=
  selects_tune_of selects_naive_heeding fun _ _ => heeds_of_measureAll

/-! ### Earlier results -/

/-- **A denied kernel is selected exactly where an earlier result names it** and can be replayed. -/
theorem select_denied_iff {session session' : Session}
    (hdenied : s.overrides.isDenied plan.implementation = true)
    (hforced : s.overrides.isForced plan.implementation = false) :
    (s.select r o).run.run session = (.ok plan, session') ↔
      s.mode ≠ .disabled ∧ s.deviceError? r = none ∧
        ∃ variant, s.earlier? r session.cache = some ⟨plan.implementation, variant⟩ ∧
          (s.variant r o plan.implementation variant).run.run session = (.ok plan, session') := by
  have hnot : ¬ s.Heeds plan := by simp [Heeds, hdenied, hforced]
  unfold select
  by_cases hmode : s.mode = .disabled
  · rw [if_pos hmode]
    exact ⟨fun h => absurd (selects_naive_heeding _ _ _ h) hnot, fun h => absurd hmode h.1⟩
  rw [if_neg hmode]
  refine ⟨fun h => ?_, fun ⟨_, hdevice, _, hearlier, hreplay⟩ =>
    autoTune_of_replay hdevice hearlier hreplay⟩
  obtain ⟨hdevice, ⟨entry, hearlier, hreplay⟩ | ⟨t, -, htune⟩⟩ := replay_or_tune h
  · have hname : plan.implementation = entry.implementation :=
      selects_variant_named _ _ _ _ _ hreplay
    rw [hname]
    exact ⟨hmode, hdevice, entry.variant, hearlier, hreplay⟩
  · exact absurd (selects_tune_heeding _ _ _ htune) hnot

/-- A selector that trusts earlier results and denies the reference kernel of matrix products. -/
def strict : Selector :=
  { builtin .default with
    overrides := ⟨[], [Builtin.fullyConnectedRefName]⟩
    mode := .useCache }

/-- A session whose cache names that kernel for a matrix product. -/
def outdated : Session :=
  ⟨.text (Tuning.Records.line product.fingerprint ⟨Builtin.fullyConnectedRefName, none⟩), []⟩

theorem run_outdated : ∃ plan session',
    (strict.select product ⟨true, .empty⟩).run.run outdated = (.ok plan, session') ∧
      strict.overrides.isDenied plan.implementation = true ∧
      strict.overrides.isForced plan.implementation = false := by
  have hname : ((strict.select product ⟨true, .empty⟩).run.run outdated).1.toOption.map
      (·.implementation) = some Builtin.fullyConnectedRefName := by decide +kernel
  rcases hrun : (strict.select product ⟨true, .empty⟩).run.run outdated with ⟨e | plan, session'⟩
  · rw [hrun] at hname
    cases hname
  · rw [hrun] at hname
    have hname : plan.implementation = Builtin.fullyConnectedRefName := Option.some.inj hname
    exact ⟨plan, session', rfl, by rw [hname]; decide, by rw [hname]; decide⟩

/-- The kernel is replayed. -/
theorem select_denied_outdated : ∃ plan session',
    strict.overrides.isDenied plan.implementation = true ∧
    strict.overrides.isForced plan.implementation = false ∧
    (strict.select product ⟨true, .empty⟩).run.run outdated = (.ok plan, session') ∧
    strict.mode ≠ .disabled ∧ strict.deviceError? product = none ∧
    ∃ variant, strict.earlier? product outdated.cache = some ⟨plan.implementation, variant⟩ ∧
      (strict.variant product ⟨true, .empty⟩ plan.implementation variant).run.run outdated
        = (.ok plan, session') := by
  obtain ⟨plan, session', hrun, hdenied, hforced⟩ := run_outdated
  exact ⟨plan, session', hdenied, hforced, hrun, (select_denied_iff hdenied hforced).mp hrun⟩

/-- **A denied kernel can be selected**, though it is not forced and there is another kernel, which is
selected by cost. -/
theorem exists_select_denied : ∃ plan session',
    (strict.select product ⟨true, .empty⟩).run.run outdated = (.ok plan, session') ∧
    strict.overrides.isDenied plan.implementation = true ∧
    strict.overrides.isForced plan.implementation = false ∧
    (strict.naive? product ⟨true, .empty⟩).toOption.map (strict.overrides.isDenied ·.implementation)
      = some false := by
  obtain ⟨plan, session', hrun, hdenied, hforced⟩ := run_outdated
  exact ⟨plan, session', hrun, hdenied, hforced, by decide +kernel⟩

end Selector

end NetPlan
