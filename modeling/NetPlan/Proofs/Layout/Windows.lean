import Mathlib.Order.Bounds.Basic
import NetPlan.Graph.Behaviour

/-!
# Proofs/Layout/Windows — how many positions a window has

A window that reads `windowReach` elements moves along a padded axis step by step, and one division
tells how often.  Here the count is told by what it is for: with `n` positions the last one ends
`(n - 1) * stride + windowReach window dilation` elements behind the start of the axis.

* `isGreatest_positions` — dropping the rest counts as many positions as end on the axis;
* `isLeast_positions` — covering it counts as few as reach the end of the axis;
* `windowPositions?_counts` — so there are positions just if one fits, the two counts differ by one
  at most, and just where the last step is not whole;
* `windowCount?_counts` — this is what is counted in machine words, as long as the reach of the window
  and the padded axis are words.
-/

namespace NetPlan

/-! ## Steps within a length -/

section Steps

variable {length stride m n : Nat}

theorem isGreatest_steps (h : 0 < stride) (length : Nat) :
    IsGreatest {k | k * stride ≤ length} (length / stride) :=
  ⟨Nat.div_mul_le_self length stride, fun _ hk => (Nat.le_div_iff_mul_le h).mpr hk⟩

theorem steps_le_iff (h : 0 < stride) :
    (length + (stride - 1)) / stride ≤ n ↔ length ≤ n * stride := by
  rw [Nat.div_le_iff_le_mul_add_pred h, Nat.mul_comm stride n]
  omega

theorem isLeast_steps (h : 0 < stride) (length : Nat) :
    IsLeast {k | length ≤ k * stride} ((length + (stride - 1)) / stride) :=
  ⟨(steps_le_iff h).mp (Nat.le_refl _), fun _ hk => (steps_le_iff h).mpr hk⟩

/-- **The least number of steps that cover a length** is the greatest within it, and one more if the
last step is not whole. -/
theorem steps_gap (h : 0 < stride) (hm : IsGreatest {k | k * stride ≤ length} m)
    (hn : IsLeast {k | length ≤ k * stride} n) :
    m ≤ n ∧ n ≤ m + 1 ∧ (m = n ↔ stride ∣ length) := by
  have hnext : length < (m + 1) * stride := Nat.lt_of_not_le fun hle => by
    have hle' := hm.2 hle
    omega
  refine ⟨?_, hn.2 hnext.le, fun hmn => ?_, fun hdvd => ?_⟩
  · exact Nat.le_of_mul_le_mul_right (Nat.le_trans hm.1 hn.1) h
  · exact ⟨m, by rw [Nat.mul_comm]; exact Nat.le_antisymm (hmn ▸ hn.1) hm.1⟩
  · obtain ⟨k, rfl⟩ := hdvd
    have hk : k * stride = stride * k := Nat.mul_comm k stride
    have hkm : k ≤ m := hm.2 hk.le
    have hnk : n ≤ k := hn.2 hk.ge
    have hmn : m ≤ n := Nat.le_of_mul_le_mul_right (Nat.le_trans hm.1 hn.1) h
    omega

/-- Every step taken but the last leaves something to cover. -/
theorem step_lt (hn : IsLeast {k | length ≤ k * stride} n) {k : Nat} (hk : k < n) :
    k * stride < length :=
  Nat.lt_of_not_le fun hle => absurd (hn.2 hle) (Nat.not_le.mpr hk)

end Steps

/-! ## Positions of a window -/

/-- A window that has a position on a padded axis. -/
structure WindowFits (input window stride dilation padding : Nat) : Prop where
  window_pos : 0 < window
  stride_pos : 0 < stride
  dilation_pos : 0 < dilation
  reach_le : windowReach window dilation ≤ input + 2 * padding

section Positions

variable {input window stride dilation padding : Nat} {rounding : WindowRounding} {m n : Nat}

theorem not_windowFits_iff : ¬ WindowFits input window stride dilation padding ↔
    window = 0 ∨ stride = 0 ∨ dilation = 0 ∨ input + 2 * padding < windowReach window dilation := by
  constructor
  · intro hnot
    by_contra hall
    simp only [not_or, Nat.not_lt] at hall
    obtain ⟨hwindow, hstride, hdilation, hreach⟩ := hall
    exact hnot ⟨Nat.pos_of_ne_zero hwindow, Nat.pos_of_ne_zero hstride,
      Nat.pos_of_ne_zero hdilation, hreach⟩
  · rintro (rfl | rfl | rfl | hlong) hfits
    · exact absurd hfits.window_pos (Nat.lt_irrefl 0)
    · exact absurd hfits.stride_pos (Nat.lt_irrefl 0)
    · exact absurd hfits.dilation_pos (Nat.lt_irrefl 0)
    · exact absurd hfits.reach_le (Nat.not_le.mpr hlong)

/-- **Just a window that fits has positions.** -/
theorem windowPositions?_eq_none_iff :
    windowPositions? input window stride dilation padding rounding = none ↔
      ¬ WindowFits input window stride dilation padding := by
  rw [not_windowFits_iff, windowPositions?]
  split
  case isTrue hzero =>
    simp only [Bool.or_eq_true, decide_eq_true_eq] at hzero
    exact iff_of_true rfl (by omega)
  case isFalse hpos =>
    simp only [Bool.or_eq_true, decide_eq_true_eq, not_or] at hpos
    split
    case isTrue hlong => exact iff_of_true rfl (Or.inr (Or.inr (Or.inr hlong)))
    case isFalse hfits =>
      exact iff_of_false (by cases rounding <;> exact Option.some_ne_none _) (by omega)

theorem windowFits_of_eq_some
    (h : windowPositions? input window stride dilation padding rounding = some n) :
    WindowFits input window stride dilation padding := by
  by_contra hnot
  rw [windowPositions?_eq_none_iff.mpr hnot] at h
  cases h

theorem windowPositions?_drop (h : WindowFits input window stride dilation padding) :
    windowPositions? input window stride dilation padding .drop
      = some ((input + 2 * padding - windowReach window dilation) / stride + 1) := by
  rw [windowPositions?, if_neg (by simp [h.window_pos.ne', h.stride_pos.ne', h.dilation_pos.ne']),
    if_neg (Nat.not_lt.mpr h.reach_le)]

theorem windowPositions?_cover (h : WindowFits input window stride dilation padding) :
    windowPositions? input window stride dilation padding .cover
      = some ((input + 2 * padding - windowReach window dilation + (stride - 1)) / stride + 1) := by
  rw [windowPositions?, if_neg (by simp [h.window_pos.ne', h.stride_pos.ne', h.dilation_pos.ne']),
    if_neg (Nat.not_lt.mpr h.reach_le)]

/-- **As many positions as end on the axis.** -/
theorem isGreatest_positions
    (h : windowPositions? input window stride dilation padding .drop = some n) :
    IsGreatest
      {k | 1 ≤ k ∧ (k - 1) * stride + windowReach window dilation ≤ input + 2 * padding} n := by
  have hfits := windowFits_of_eq_some h
  have hle := hfits.reach_le
  obtain ⟨hin, hmax⟩ :=
    isGreatest_steps hfits.stride_pos (input + 2 * padding - windowReach window dilation)
  rw [windowPositions?_drop hfits] at h
  cases h
  refine ⟨⟨Nat.succ_pos _, ?_⟩, fun k ⟨hk, hend⟩ => ?_⟩
  · rw [Nat.add_sub_cancel]
    exact (Nat.le_sub_iff_add_le hle).mp hin
  · have hsteps : k - 1 ≤ _ := hmax ((Nat.le_sub_iff_add_le hle).mpr hend)
    omega

/-- **As few positions as reach the end of the axis.** -/
theorem isLeast_positions
    (h : windowPositions? input window stride dilation padding .cover = some n) :
    IsLeast
      {k | 1 ≤ k ∧ input + 2 * padding ≤ (k - 1) * stride + windowReach window dilation} n := by
  have hfits := windowFits_of_eq_some h
  obtain ⟨hin, hmin⟩ :=
    isLeast_steps hfits.stride_pos (input + 2 * padding - windowReach window dilation)
  rw [windowPositions?_cover hfits] at h
  cases h
  refine ⟨⟨Nat.succ_pos _, ?_⟩, fun k ⟨hk, hend⟩ => ?_⟩
  · rw [Nat.add_sub_cancel]
    exact Nat.sub_le_iff_le_add.mp hin
  · have hsteps : _ ≤ k - 1 := hmin (Nat.sub_le_iff_le_add.mpr hend)
    omega

/-- **A window has positions just if one fits**; dropping the rest counts as many as end on the axis
and covering it as few as reach its end.  The counts are one apart at most and the same if the steps
come out even, and no position that is counted starts behind the axis unless the window leaves
gaps. -/
theorem windowPositions?_counts (input window stride dilation padding : Nat) :
    (∀ rounding, windowPositions? input window stride dilation padding rounding = none ↔
      window = 0 ∨ stride = 0 ∨ dilation = 0 ∨
        input + 2 * padding < windowReach window dilation) ∧
    (WindowFits input window stride dilation padding → ∃ m n,
      windowPositions? input window stride dilation padding .drop = some m ∧
      windowPositions? input window stride dilation padding .cover = some n ∧
      IsGreatest
        {k | 1 ≤ k ∧ (k - 1) * stride + windowReach window dilation ≤ input + 2 * padding} m ∧
      IsLeast
        {k | 1 ≤ k ∧ input + 2 * padding ≤ (k - 1) * stride + windowReach window dilation} n ∧
      (m ≤ n ∧ n ≤ m + 1) ∧
      (m = n ↔ stride ∣ input + 2 * padding - windowReach window dilation) ∧
      (stride ≤ windowReach window dilation → ∀ k < n, k * stride < input + 2 * padding)) := by
  refine ⟨fun _ => windowPositions?_eq_none_iff.trans not_windowFits_iff, fun hfits => ?_⟩
  have hm := windowPositions?_drop hfits
  have hn := windowPositions?_cover hfits
  have hleast :=
    isLeast_steps hfits.stride_pos (input + 2 * padding - windowReach window dilation)
  obtain ⟨hle, hgap, heven⟩ :=
    steps_gap hfits.stride_pos (isGreatest_steps hfits.stride_pos _) hleast
  refine ⟨_, _, hm, hn, isGreatest_positions hm, isLeast_positions hn,
    ⟨Nat.succ_le_succ hle, Nat.succ_le_succ hgap⟩, Nat.succ_inj.trans heven, fun hoverlap k hk => ?_⟩
  -- the first position starts at the edge, and each other one behind a step that was needed
  cases k with
  | zero =>
    have := hfits.reach_le
    rw [windowReach] at this
    omega
  | succ k =>
    have hstep := step_lt hleast (Nat.lt_of_succ_lt_succ hk)
    rw [Nat.succ_mul]
    omega

/-- Within the words, positions are counted as they are. -/
theorem windowCount?_of_lt (hreach : windowReach window dilation < Machine.range)
    (haxis : input + 2 * padding < Machine.range) :
    windowCount? input window stride dilation padding rounding
      = some (windowPositions? input window stride dilation padding rounding) := by
  rw [windowReach] at hreach
  unfold windowCount?
  split
  case isTrue hzero => rw [windowPositions?, if_pos hzero]
  case isFalse =>
    rw [Machine.mul?_of_lt (by omega), Option.bind_eq_bind, Option.bind_some,
      Machine.add?_of_lt hreach, Option.bind_some, Machine.mul?_of_lt (by omega), Option.bind_some,
      Machine.add?_of_lt haxis]
    rfl

/-- **Counting breaks off** for a window with extent and step, if its reach or the axis is no word. -/
theorem windowCount?_eq_none_iff :
    windowCount? input window stride dilation padding rounding = none ↔
      (0 < window ∧ 0 < stride ∧ 0 < dilation) ∧
        (Machine.range ≤ windowReach window dilation ∨ Machine.range ≤ input + 2 * padding) := by
  constructor
  · intro hnone
    refine ⟨?_, ?_⟩
    · by_contra hzero
      have hzero : (stride = 0 || dilation = 0 || window = 0) = true := by
        simp only [Bool.or_eq_true, decide_eq_true_eq]
        omega
      rw [windowCount?, if_pos hzero] at hnone
      cases hnone
    · by_contra hwords
      simp only [not_or, Nat.not_le] at hwords
      rw [windowCount?_of_lt hwords.1 hwords.2] at hnone
      cases hnone
  · rintro ⟨hpos, hlong⟩
    refine Option.eq_none_iff_forall_ne_some.mpr fun n h => ?_
    rw [windowCount?, if_neg (by simp only [Bool.or_eq_true, decide_eq_true_eq]; omega)] at h
    simp only [bind, Option.bind_eq_some_iff, Machine.add?_eq_some, Machine.mul?_eq_some] at h
    obtain ⟨_, ⟨-, rfl⟩, _, ⟨hreach, -⟩, _, ⟨-, rfl⟩, _, ⟨haxis, -⟩, -⟩ := h
    rw [windowReach] at hlong
    omega

/-- **Positions are counted in machine words.**  Counting breaks off only for a window with extent and
step, whose reach is no word or on an axis that is none.  Otherwise a window has positions just if one
fits; dropping the rest counts as many as end on the axis and covering it as few as reach its end.
The counts are one apart at most and the same if the steps come out even, and no position that is
counted starts behind the axis unless the window leaves gaps. -/
theorem windowCount?_counts (input window stride dilation padding : Nat) :
    (∀ rounding, windowCount? input window stride dilation padding rounding = none ↔
      (0 < window ∧ 0 < stride ∧ 0 < dilation) ∧
        (Machine.range ≤ windowReach window dilation ∨ Machine.range ≤ input + 2 * padding)) ∧
    (windowReach window dilation < Machine.range → input + 2 * padding < Machine.range →
      (∀ rounding, windowCount? input window stride dilation padding rounding = some none ↔
        window = 0 ∨ stride = 0 ∨ dilation = 0 ∨
          input + 2 * padding < windowReach window dilation) ∧
      (WindowFits input window stride dilation padding → ∃ m n,
        windowCount? input window stride dilation padding .drop = some (some m) ∧
        windowCount? input window stride dilation padding .cover = some (some n) ∧
        IsGreatest
          {k | 1 ≤ k ∧ (k - 1) * stride + windowReach window dilation ≤ input + 2 * padding} m ∧
        IsLeast
          {k | 1 ≤ k ∧ input + 2 * padding ≤ (k - 1) * stride + windowReach window dilation} n ∧
        (m ≤ n ∧ n ≤ m + 1) ∧
        (m = n ↔ stride ∣ input + 2 * padding - windowReach window dilation) ∧
        (stride ≤ windowReach window dilation → ∀ k < n, k * stride < input + 2 * padding))) := by
  refine ⟨fun _ => windowCount?_eq_none_iff, fun hreach haxis => ?_⟩
  simp only [windowCount?_of_lt hreach haxis, Option.some.injEq]
  exact windowPositions?_counts input window stride dilation padding

end Positions

/-- A window of three elements on eight moves by two: it ends on the axis three times, and reaches
the end at the fourth. -/
theorem windowCount?_counts_eight : windowReach 3 1 < Machine.range ∧ 8 + 2 * 0 < Machine.range ∧
    WindowFits 8 3 2 1 0 ∧
    IsGreatest {k | 1 ≤ k ∧ (k - 1) * 2 + 3 ≤ 8} 3 ∧ IsLeast {k | 1 ≤ k ∧ 8 ≤ (k - 1) * 2 + 3} 4 ∧
      ∀ k < 4, k * 2 < 8 := by
  have hfits : WindowFits 8 3 2 1 0 := ⟨by decide, by decide, by decide, by decide⟩
  obtain ⟨m, n, hm, hn, hmax, hmin, -, -, hstart⟩ :=
    ((windowCount?_counts 8 3 2 1 0).2 (by decide) (by decide)).2 hfits
  obtain rfl : 3 = m := Option.some.inj (Option.some.inj hm)
  obtain rfl : 4 = n := Option.some.inj (Option.some.inj hn)
  exact ⟨by decide, by decide, hfits, hmax, hmin, hstart (by decide)⟩

/-- **A window that is longer than any axis is not always told to have no position**: three elements
so far apart that their reach is no word, and counting breaks off. -/
theorem windowCount?_overflows : 4 + 2 * 0 < windowReach 3 0x8000000000000000 ∧
    ∀ rounding, windowCount? 4 3 1 0x8000000000000000 0 rounding = none := by
  refine ⟨by decide, fun rounding => ?_⟩
  cases rounding <;> decide

end NetPlan
