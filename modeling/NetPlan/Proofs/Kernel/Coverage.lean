import NetPlan.Compile
import NetPlan.Proofs.Layout.Coherence

/-!
# Proofs/Kernel/Coverage — what is planned is covered

A plan comes from an implementation whose key has every feature of the request.  So what no key
offers is never planned, however the rest of the network looks:

* `Selector.Covers` — some implementation of the kind accepts the request;
* `Selector.exists_plan_of_naive?` — what is selected by cost is planned by one that covers it;
* `Selector.exists_naive?_eq_ok` — what a candidate has a plan for is selected by cost.
-/

namespace NetPlan

open Kernel

/-! ## Keys -/

namespace Kernel

theorem Key.supports_iff {k l : Key} :
    k.supports l = true ↔ ∀ f ∈ l.features, f ∈ k.features := by
  simp [supports, has, List.all_eq_true]

/-- What the work needs is demanded, the arrangement of the weights apart. -/
theorem Options.mem_requestKey {o : Options} {r : Request} {f : Feature}
    (hf : f ∈ r.work.features) (hfree : f.isInputWeightLayout = false) :
    f ∈ (o.requestKey r).features := by
  have hmerge : f ∈ (r.work.key.merge o.required).features := List.mem_append_left _ hf
  unfold requestKey
  dsimp only
  split
  · exact List.mem_filter.mpr ⟨hmerge, by rw [hfree]; rfl⟩
  · exact hmerge

end Kernel

/-! ## Selection by cost -/

namespace Selector

variable {s : Selector} {r : Request} {o : Options}

/-- Some implementation of the kind accepts the request. -/
def Covers (s : Selector) (r : Request) (o : Options) : Prop :=
  ∃ i ∈ s.registry.ofKind r.kind, s.accepts r o i = true

theorem eq_or_eq_some_of_cheaper (best : Option Plan) (plan : Plan) :
    cheaper best plan = best ∨ cheaper best plan = some plan := by
  unfold cheaper
  split
  · exact Or.inr rfl
  · split
    · exact Or.inr rfl
    · exact Or.inl rfl

/-- **What is found by cost** was found before, or is the first plan of a candidate that is forced or not
denied. -/
theorem eq_or_exists_of_naiveAmong {plan : Plan} : ∀ {best : Option Plan} {is : List Implementation},
    s.naiveAmong r o best is = some plan → best = some plan ∨
      ∃ i ∈ is, firstPlan? i (i.plan r o) = some plan ∧
        (s.overrides.isForced i.name = true ∨ s.overrides.isDenied i.name = false)
  | _, [], h => Or.inl h
  | best, i :: is, h => by
      have hrest : ∀ {best : Option Plan}, s.naiveAmong r o best is = some plan → best = some plan ∨
          ∃ j ∈ i :: is, firstPlan? j (j.plan r o) = some plan ∧
            (s.overrides.isForced j.name = true ∨ s.overrides.isDenied j.name = false) := fun h =>
        (eq_or_exists_of_naiveAmong h).imp_right fun ⟨j, hj, hplan⟩ =>
          ⟨j, List.mem_cons_of_mem i hj, hplan⟩
      unfold naiveAmong at h
      split at h
      · exact hrest h
      case h_2 first hfirst =>
        split at h
        case isTrue hforced =>
          exact Or.inr ⟨i, List.mem_cons_self, hfirst.trans h, Or.inl hforced⟩
        split at h
        · exact hrest h
        case isFalse hdenied =>
          rcases hrest h with hbest | hfound
          · rcases eq_or_eq_some_of_cheaper best first with hkept | htaken
            · exact Or.inl (hkept ▸ hbest)
            · exact Or.inr ⟨i, List.mem_cons_self, hfirst.trans (htaken ▸ hbest),
                Or.inr (Bool.eq_false_iff.mpr hdenied)⟩
          · exact Or.inr hfound

/-- **What is selected by cost** is the first plan of a candidate that is forced or not denied. -/
theorem firstPlan?_of_naive? {plan : Plan} (h : s.naive? r o = .ok plan) :
    s.deviceError? r = none ∧ ∃ i ∈ s.candidates r o, firstPlan? i (i.plan r o) = some plan ∧
      (s.overrides.isForced i.name = true ∨ s.overrides.isDenied i.name = false) := by
  unfold naive? at h
  split at h
  · cases h
  case h_2 hdevice =>
    split at h
    case h_1 found hfound =>
      cases h
      exact ⟨hdevice, (eq_or_exists_of_naiveAmong hfound).resolve_left fun h => by cases h⟩
    case h_2 => cases h

/-- An implementation that covers it planned what is selected by cost. -/
theorem exists_plan_of_naive? {plan : Plan} (h : s.naive? r o = .ok plan) :
    ∃ i ∈ s.registry.ofKind r.kind, s.accepts r o i = true ∧
      ∃ plans, i.plan r o = .ok plans := by
  obtain ⟨-, i, hi, hfirst, -⟩ := firstPlan?_of_naive? h
  obtain ⟨hi, haccepts⟩ := List.mem_filter.mp hi
  refine ⟨i, hi, haccepts, ?_⟩
  cases hplans : i.plan r o with
  | error e =>
    rw [hplans] at hfirst
    cases hfirst
  | ok plans => exact ⟨plans, rfl⟩

theorem covers_of_naive? {plan : Plan} (h : s.naive? r o = .ok plan) : s.Covers r o := by
  obtain ⟨i, hi, haccepts, -⟩ := exists_plan_of_naive? h
  exact ⟨i, hi, haccepts⟩

/-- A plan is found where there was one before, or a candidate that is not denied has one. -/
theorem isSome_naiveAmong (s : Selector) : ∀ (best : Option Plan) (is : List Implementation),
    (best.isSome = true ∨ ∃ i ∈ is, (firstPlan? i (i.plan r o)).isSome = true ∧
      s.overrides.isDenied i.name = false) → (s.naiveAmong r o best is).isSome = true
  | best, [], h => by
      rcases h with h | ⟨i, hi, -⟩
      · exact h
      · cases hi
  | best, j :: is, h => by
      unfold naiveAmong
      cases hplan : firstPlan? j (j.plan r o) with
      | none =>
        refine isSome_naiveAmong s best is (h.imp_right fun ⟨i, hi, hfirst, hdenied⟩ => ?_)
        rcases List.mem_cons.mp hi with rfl | hi
        · rw [hplan] at hfirst
          cases hfirst
        · exact ⟨i, hi, hfirst, hdenied⟩
      | some plan =>
        dsimp only
        split
        · rfl
        split
        case isTrue hdenied =>
          refine isSome_naiveAmong s best is (h.imp_right fun ⟨i, hi, hfirst, hnot⟩ => ?_)
          rcases List.mem_cons.mp hi with rfl | hi
          · rw [hdenied] at hnot
            cases hnot
          · exact ⟨i, hi, hfirst, hnot⟩
        case isFalse =>
          refine isSome_naiveAmong s _ is (Or.inl ?_)
          unfold cheaper
          split
          · rfl
          · split <;> rfl

/-- **What a candidate has a plan for is selected**, if the device has its precision. -/
theorem exists_naive?_eq_ok {i : Implementation} (hdevice : s.deviceError? r = none)
    (hi : i ∈ s.candidates r o) (hplan : (firstPlan? i (i.plan r o)).isSome = true)
    (hdenied : s.overrides.isDenied i.name = false) : ∃ plan, s.naive? r o = .ok plan := by
  have hsome := isSome_naiveAmong s none _ (Or.inr ⟨i, hi, hplan, hdenied⟩)
  obtain ⟨plan, hfound⟩ := Option.isSome_iff_exists.mp hsome
  refine ⟨plan, ?_⟩
  unfold naive?
  rw [hdevice, hfound]

theorem run_naive (s : Selector) (r : Request) (o : Options) (session : Session) :
    ((s.naive r o).run.run session).1 = s.naive? r o := by
  unfold naive
  split <;> rfl

/-- A feature of covered work is offered by an implementation of its kind. -/
theorem Covers.offered (h : s.Covers r o) {f : Feature} (hf : f ∈ r.work.features)
    (hfree : f.isInputWeightLayout = false) :
    ∃ i ∈ s.registry.ofKind r.kind, f ∈ i.key.features := by
  obtain ⟨i, hi, haccepts⟩ := h
  have hkey := (Bool.and_eq_true_iff.mp haccepts).1
  exact ⟨i, hi, Key.supports_iff.mp hkey f (Options.mem_requestKey hf hfree)⟩

end Selector

end NetPlan
