import Mathlib.Order.Bounds.Basic
import NetPlan.Proofs.Kernel.Differences
import NetPlan.Proofs.Kernel.Groups

/-!
# Proofs/Kernel/Divisors — work groups that divide a launch

Group sizes are found in two ways, and each comes to the greatest size that will do:

* `isGreatest_optimalGroup` — axis by axis, out of a list in falling order, with what the axes
  before it leave of the limit;
* `isGreatest_divisorUpTo32` — by counting down from the size itself, or from 32, to the first that
  divides it.

A round of the second search takes a remainder and then goes one down.  Written in arithmetic where
a remainder by zero and a difference below zero fail (`round?`), it would fail at size zero, and that
it stops before is what `Descends` says.
-/

namespace NetPlan.Kernel

open Builtin

/-! ## Sizes from the list -/

section Listed

variable {n room a : Nat} {p : Nat → Bool} {l : List Nat}

/-- **The first of a falling list is the greatest.** -/
theorem isGreatest_of_find? (hl : l.Pairwise (· > ·)) (h : l.find? p = some a) :
    IsGreatest {k | k ∈ l ∧ p k = true} a := by
  obtain ⟨ha, before, behind, rfl, hbefore⟩ := List.find?_eq_some_iff_append.mp h
  refine ⟨⟨by simp, ha⟩, fun k ⟨hk, hpk⟩ => ?_⟩
  rcases List.mem_append.mp hk with hk | hk
  · have hnot := hbefore k hk
    rw [hpk] at hnot
    cases hnot
  · rcases List.mem_cons.mp hk with rfl | hk
    · exact Nat.le_refl k
    · exact (List.rel_of_pairwise_cons (List.pairwise_append.mp hl).2.1 hk).le

/-- What is picked is the greatest listed size that divides and has room. -/
theorem isGreatest_pickGroup (h : 0 < room) :
    IsGreatest {k | k ∈ groupSizes ∧ k ∣ n ∧ k ≤ room} (pickGroup room n) := by
  have hsorted : (groupSizes.filter (· ≤ room)).Pairwise (· > ·) :=
    List.Pairwise.filter _ (by decide)
  have hone : 1 ∈ groupSizes.filter (· ≤ room) :=
    List.mem_filter.mpr ⟨by decide, decide_eq_true h⟩
  unfold pickGroup
  cases hfound : (groupSizes.filter (· ≤ room)).find? (n % · = 0) with
  | none => exact absurd (decide_eq_true (Nat.mod_one n)) (List.find?_eq_none.mp hfound 1 hone)
  | some size =>
    have hsizes : {k | k ∈ groupSizes.filter (· ≤ room) ∧ decide (n % k = 0) = true}
        = {k | k ∈ groupSizes ∧ k ∣ n ∧ k ≤ room} := Set.ext fun k => by
      simp only [Set.mem_ofPred_eq, List.mem_filter, decide_eq_true_eq, Nat.dvd_iff_mod_eq_zero]
      tauto
    exact hsizes ▸ isGreatest_of_find? hsorted hfound

/-- **Axis by axis the greatest listed size** that divides, for which the axes before it leave room. -/
theorem isGreatest_optimalGroup (g : Grid) :
    IsGreatest {k | k ∈ groupSizes ∧ k ∣ g.d0 ∧ k ≤ groupLimit} (optimalGroup g).d0 ∧
    IsGreatest {k | k ∈ groupSizes ∧ k ∣ g.d1 ∧ k ≤ groupLimit / (optimalGroup g).d0}
      (optimalGroup g).d1 ∧
    IsGreatest {k | k ∈ groupSizes ∧ k ∣ g.d2 ∧
      k ≤ groupLimit / ((optimalGroup g).d0 * (optimalGroup g).d1)} (optimalGroup g).d2 := by
  have hroom : 0 < groupLimit := by decide
  obtain ⟨hpos₀, hle₀⟩ := pickGroup_spec (n := g.d0) hroom
  obtain ⟨hpos₁, hle₁⟩ := mul_pickGroup_le (n := g.d1) hpos₀ hle₀
  exact ⟨isGreatest_pickGroup hroom, isGreatest_pickGroup (Nat.div_pos hle₀ hpos₀),
    isGreatest_pickGroup (Nat.div_pos hle₁ hpos₁)⟩

theorem pos_of_mem_groupSizes {k : Nat} (h : k ∈ groupSizes) : 0 < k := by
  have hall : ∀ k ∈ groupSizes, 0 < k := by decide
  exact hall k h

end Listed

/-! ## Counting down -/

/-- A round of counting down to a divisor: `none` inside for a size that divides, else the size to go
on with; a round fails at a remainder by zero or a difference below zero. -/
def round? (n size : Nat) : Option (Option Nat) := do
  if (← Machine.mod? n size) = 0 then
    return none
  else
    return some (← Machine.sub? size 1)

/-- Counting down from a size does not fail and ends at another. -/
inductive Descends (n : Nat) : Nat → Nat → Prop
  | stop {size : Nat} (here : round? n size = some none) : Descends n size size
  | lower {size next last : Nat} (here : round? n size = some (some next))
      (rest : Descends n next last) : Descends n size last

section Descent

variable {n d size last : Nat}

theorem round?_eq_some_none_iff : round? n size = some none ↔ 0 < size ∧ size ∣ n := by
  rw [round?, Nat.dvd_iff_mod_eq_zero]
  by_cases hsize : size = 0
  · simp [Machine.mod?, hsize]
  · rw [Machine.mod?_of_pos (Nat.pos_of_ne_zero hsize), Machine.sub?_of_le (Nat.pos_of_ne_zero hsize)]
    by_cases hdvd : n % size = 0 <;> simp [hdvd, Nat.pos_of_ne_zero hsize]

theorem round?_of_not_dvd (hsize : ¬ (d + 1) ∣ n) : round? n (d + 1) = some (some d) := by
  rw [Nat.dvd_iff_mod_eq_zero] at hsize
  rw [round?, Machine.mod?_of_pos (Nat.succ_pos d), Machine.sub?_of_le (Nat.succ_pos d)]
  simp [hsize]

/-- **No size on the way down is zero.** -/
theorem Descends.pos (h : Descends n size last) : 0 < size := by
  have hround : round? n size ≠ none := by
    cases h with
    | stop here => exact here ▸ Option.some_ne_none _
    | lower here => exact here ▸ Option.some_ne_none _
  refine Nat.pos_of_ne_zero fun hzero => hround ?_
  rw [hzero]
  rfl

/-- The search as it is run is the search in rounds: it stops at one at the latest. -/
theorem descends_greatestDivisorUpTo (n : Nat) :
    ∀ d, Descends n (d + 1) (greatestDivisorUpTo n d)
  | 0 => .stop (round?_eq_some_none_iff.mpr ⟨Nat.one_pos, Nat.one_dvd n⟩)
  | d + 1 => by
      rw [greatestDivisorUpTo]
      split
      case isTrue h =>
        exact .stop (round?_eq_some_none_iff.mpr ⟨Nat.succ_pos _, Nat.dvd_of_mod_eq_zero h⟩)
      case isFalse h =>
        exact .lower (round?_of_not_dvd fun hdvd => h (Nat.mod_eq_zero_of_dvd hdvd))
          (descends_greatestDivisorUpTo n d)

/-- **Where counting down ends is the greatest divisor** up to where it starts. -/
theorem Descends.isGreatest (h : Descends n size last) :
    IsGreatest {k | k ∣ n ∧ k ≤ size} last := by
  induction h with
  | stop here => exact ⟨⟨(round?_eq_some_none_iff.mp here).2, Nat.le_refl _⟩, fun _ hk => hk.2⟩
  | @lower size next last here rest ih =>
    obtain ⟨d, rfl⟩ := Nat.exists_eq_succ_of_ne_zero (Descends.lower here rest).pos.ne'
    have hnot : ¬ (d + 1) ∣ n := fun hdvd => by
      rw [round?_eq_some_none_iff.mpr ⟨Nat.succ_pos d, hdvd⟩] at here
      cases here
    obtain rfl : d = next := by
      rw [round?_of_not_dvd hnot] at here
      exact Option.some.inj (Option.some.inj here)
    refine ⟨⟨ih.1.1, ih.1.2.trans (Nat.le_succ d)⟩, fun k ⟨hdvd, hk⟩ => ih.2 ⟨hdvd, ?_⟩⟩
    refine Nat.le_of_lt_succ (Nat.lt_of_le_of_ne hk fun he => hnot ?_)
    rwa [he] at hdvd

/-- The search starts at the size itself, within 1 and 32. -/
theorem descends_divisorUpTo32 (n : Nat) :
    Descends n (Nat.min (Nat.max n 1) 32) (divisorUpTo32 n) := by
  have hstart : Nat.min (Nat.max n 1) 32 = Nat.min (Nat.max n 1) 32 - 1 + 1 :=
    (Nat.sub_add_cancel (Nat.le_min.mpr ⟨Nat.le_max_right n 1, by decide⟩)).symm
  rw [hstart]
  exact descends_greatestDivisorUpTo n _

theorem isGreatest_divisorUpTo32 (h : 0 < n) : IsGreatest {k | k ∣ n ∧ k ≤ 32} (divisorUpTo32 n) := by
  obtain ⟨⟨hdvd, hle⟩, hmax⟩ := (descends_divisorUpTo32 n).isGreatest
  refine ⟨⟨hdvd, divisorUpTo32_le⟩, fun k ⟨hk, hk32⟩ => hmax ⟨hk, Nat.le_min.mpr ⟨?_, hk32⟩⟩⟩
  exact (Nat.le_of_dvd h hk).trans (Nat.le_max_left n 1)

end Descent

/-! ## The launches that count down -/

/-- A launch is grouped along its first axis, by counting down. -/
def WorkGroups.CountsDown (g : WorkGroups) : Prop := g.group = ⟨divisorUpTo32 g.global.d0, 1, 1⟩

theorem yields_singleLaunch_groups {kind : Kind} {name layer : String} {defines : Defines}
    {groups : WorkGroups} {arguments : List Argument} {cost : Single} :
    Yields (fun plan => ∀ l ∈ plan.launches, l.groups = groups)
      (singleLaunch kind name layer defines groups arguments cost) := by
  unfold singleLaunch
  split
  · exact yields_pure (List.forall_mem_singleton.mpr rfl)
  · exact yields_error _

/-- The reference kernel of a fully connected layer launches an item per element. -/
theorem countsDown_fullyConnectedRef {r : Request} {o : Options} {plan : Plan}
    (h : fullyConnectedRef.Gives r o plan) : ∀ l ∈ plan.launches, l.groups.CountsDown := by
  obtain ⟨plans, hplans, hmem⟩ := exists_of_gives_fixed h
  have hyields : Yields (fun plans => ∀ plan ∈ plans, ∀ l ∈ plan.launches, l.groups.CountsDown)
      (planFullyConnectedRef r o) := by
    obtain ⟨layer, work⟩ := r
    cases work with
    | fullyConnected w =>
      refine yields_bind fun _ => yields_bind fun _ => yields_singleLaunch_groups.bind
        fun given hgiven => yields_pure (List.forall_mem_singleton.mpr fun l hl => ?_)
      rw [hgiven l hl]
      rfl
    | _ => exact yields_error _
  exact hyields plans hplans plan hmem

/-- **Group sizes are legal and as great as they can be.**  Those picked from the list are at least
one, divide the launch, keep the limit together, and each is the greatest for which the earlier leave
room.  Counting down, as convolutions and fully connected layers do by default, never comes to zero
and ends at the greatest divisor up to 32. -/
theorem groups_greatest :
    (∀ g : Grid,
      (0 < (optimalGroup g).d0 ∧ 0 < (optimalGroup g).d1 ∧ 0 < (optimalGroup g).d2) ∧
      ((optimalGroup g).d0 ∣ g.d0 ∧ (optimalGroup g).d1 ∣ g.d1 ∧ (optimalGroup g).d2 ∣ g.d2) ∧
      (optimalGroup g).volume ≤ groupLimit ∧
      IsGreatest {k | k ∈ groupSizes ∧ k ∣ g.d0 ∧ k ≤ groupLimit} (optimalGroup g).d0 ∧
      IsGreatest {k | k ∈ groupSizes ∧ k ∣ g.d1 ∧ k ≤ groupLimit / (optimalGroup g).d0}
        (optimalGroup g).d1 ∧
      IsGreatest {k | k ∈ groupSizes ∧ k ∣ g.d2 ∧
        k ≤ groupLimit / ((optimalGroup g).d0 * (optimalGroup g).d1)} (optimalGroup g).d2) ∧
    (∀ n, 0 < n → Descends n (Nat.min (Nat.max n 1) 32) (divisorUpTo32 n) ∧
      IsGreatest {k | k ∣ n ∧ k ≤ 32} (divisorUpTo32 n)) ∧
    (∀ n size last, Descends n size last → 0 < size) ∧
    (∀ w : ConvolutionWork, (convolutionGroups w).CountsDown) ∧
    ∀ r o plan, fullyConnectedRef.Gives r o plan → ∀ l ∈ plan.launches, l.groups.CountsDown := by
  refine ⟨fun g => ?_, fun n hn => ⟨descends_divisorUpTo32 n, isGreatest_divisorUpTo32 hn⟩,
    fun n size last h => h.pos, fun _ => rfl, fun r o plan h => countsDown_fullyConnectedRef h⟩
  obtain ⟨h₀, h₁, h₂⟩ := isGreatest_optimalGroup g
  exact ⟨⟨pos_of_mem_groupSizes h₀.1.1, pos_of_mem_groupSizes h₁.1.1, pos_of_mem_groupSizes h₂.1.1⟩,
    ⟨h₀.1.2.1, h₁.1.2.1, h₂.1.2.1⟩, volume_optimalGroup_le g, h₀, h₁, h₂⟩

/-- A layer of 100 elements. -/
def hundredRow : Request :=
  ⟨"f", .fullyConnected ⟨⟨.none, [⟨.f32, .bf, ⟨1, 4, 1, 1⟩, .none⟩],
    ⟨.f32, .bf, ⟨1, 100, 1, 1⟩, .none⟩⟩, ⟨⟨.f32, .oi, 100, 4, 1, 1⟩, []⟩⟩⟩

/-- A launch of 12 by 10 by 3 leaves room for a group of 6 by 5 by 3, and the 100 items of a layer
come in groups of 25. -/
theorem groups_greatest_dozen :
    optimalGroup ⟨12, 10, 3⟩ = ⟨6, 5, 3⟩ ∧
      IsGreatest {k | k ∈ groupSizes ∧ k ∣ 10 ∧ k ≤ 256 / 6} 5 ∧
      Descends 100 32 25 ∧ IsGreatest {k | k ∣ 100 ∧ k ≤ 32} 25 ∧
      ∃ plan, fullyConnectedRef.Gives hundredRow .default plan ∧
        plan.launches.map (·.groups.global) = [⟨100, 1, 1⟩] ∧
        ∀ l ∈ plan.launches, l.groups.CountsDown := by
  obtain ⟨hpicked, hcounted, -, -, hlayers⟩ := groups_greatest
  obtain ⟨hends, hgreatest⟩ := hcounted 100 (by decide)
  refine ⟨by decide, (hpicked ⟨12, 10, 3⟩).2.2.2.2.1, hends, hgreatest, ?_⟩
  have hglobal : (planFullyConnectedRef hundredRow .default).toOption.map
      (·.map fun plan => plan.launches.map (·.groups.global)) = some [[⟨100, 1, 1⟩]] := by
    decide +kernel
  cases hplans : planFullyConnectedRef hundredRow .default with
  | error e =>
    rw [hplans] at hglobal
    cases hglobal
  | ok plans =>
    rw [hplans] at hglobal
    obtain ⟨plan, rfl, hplan⟩ := List.map_eq_singleton_iff.mp (Option.some.inj hglobal)
    have hgives : fullyConnectedRef.Gives hundredRow .default plan :=
      ⟨[plan], List.mem_singleton_self plan, Or.inl hplans⟩
    exact ⟨plan, hgives, hplan, hlayers _ _ plan hgives⟩

end NetPlan.Kernel
