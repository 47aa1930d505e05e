import Mathlib.Data.List.Nodup
import Mathlib.Data.Nat.Bitwise
import NetPlan.Kernel.Key.Mask
import NetPlan.Proofs.Kernel.Coverage

/-!
# Proofs/Kernel/Masks — a key and its words say the same

No two features have the same place, so a key is a set of bits and nothing is lost in its words:

* `Feature.place_injective` — places are the features' own;
* `Key.mem_iff_testBit` — a key has a feature iff the bit of its place is set;
* `Key.supports_iff_ldiff` — a key covers another iff no word of the other has a bit it has not;
* `Key.mask_enableAll`, `Key.mask_merge`, `Key.mask_freeInputWeights` — what becomes of the words
  as keys are built, joined and cleared.
-/

namespace NetPlan.Kernel

/-! ## Places -/

namespace Feature

/-- Every feature, family by family. -/
def all : List Feature :=
  Named.all.map inputType ++ Named.all.map outputType ++ Named.all.map inputWeightType
    ++ Named.all.map outputWeightType
    ++ [differentTypes, offset, pitches, batching, biasPerFeature, biasPerOutput, noBias,
      activationOperand, split, dilation, coefficients, subtract, subgroups]
    ++ Named.all.map poolKind ++ Named.all.map poolRounding ++ Named.all.map poolDivider
    ++ Named.all.map softmaxAxis ++ Named.all.map concatAxis
    ++ Named.all.map inputLayout ++ Named.all.map outputLayout
    ++ Named.all.map inputWeightLayout ++ Named.all.map outputWeightLayout

theorem mem_all (f : Feature) : f ∈ all := by
  rcases f with e | e | e | e | _ | _ | _ | _ | _ | _ | _ | _ | k | r | d | _ | _ | a | a | _ | _ | _
    | l | l | l | l
  case inputType | outputType | inputWeightType | outputWeightType => cases e <;> decide
  case poolKind => cases k <;> decide
  case poolRounding => cases r <;> decide
  case poolDivider => cases d <;> decide
  case softmaxAxis | concatAxis => cases a <;> decide
  case inputLayout | outputLayout | inputWeightLayout | outputWeightLayout => cases l <;> decide
  all_goals decide

theorem nodup_place_all : (all.map place).Nodup := by decide +kernel

/-- **Every feature has a place of its own.** -/
theorem place_injective : Function.Injective place := fun f g =>
  List.inj_on_of_nodup_map nodup_place_all (mem_all f) (mem_all g)

/-- The arrangements of the input weights have a word of their own. -/
theorem isInputWeightLayout_iff (f : Feature) :
    f.isInputWeightLayout = true ↔ f.place.1 = .inputWeightLayouts := by
  have hall : ∀ f ∈ all, f.isInputWeightLayout = true ↔ f.place.1 = .inputWeightLayouts := by
    decide +kernel
  exact hall f (mem_all f)

end Feature

/-! ## Keys as sets of bits -/

namespace Key

variable {k l : Key} {f : Feature} {word : KeyWord}

/-- The bits so far, and those of the features to come. -/
theorem testBit_foldl_iff (word : KeyWord) (bit : Nat) (fs : List Feature) (m : Nat) :
    (fs.foldl (fun mask f => if f.place.1 = word then mask ||| Nat.pow 2 f.place.2 else mask)
      m).testBit bit = true ↔ m.testBit bit = true ∨ ∃ f ∈ fs, f.place = (word, bit) := by
  induction fs generalizing m with
  | nil => simp
  | cons f fs ih =>
    have hstep : (if f.place.1 = word then m ||| Nat.pow 2 f.place.2 else m).testBit bit = true ↔
        m.testBit bit = true ∨ f.place = (word, bit) := by
      split
      case isTrue h => simp [Nat.testBit_or, Nat.testBit_two_pow, Prod.ext_iff, h]
      case isFalse h => simp [Prod.ext_iff, h]
    rw [List.foldl_cons, ih, hstep]
    simp only [List.mem_cons, exists_eq_or_imp, or_assoc]

/-- **The bits of a word are the places of the features.** -/
theorem testBit_mask_iff (k : Key) (word : KeyWord) (bit : Nat) :
    (k.mask word).testBit bit = true ↔ ∃ f ∈ k.features, f.place = (word, bit) := by
  simpa [mask] using testBit_foldl_iff word bit k.features 0

/-- **A key has a feature iff the bit of its place is set.** -/
theorem mem_iff_testBit : f ∈ k.features ↔ (k.mask f.place.1).testBit f.place.2 = true := by
  rw [testBit_mask_iff]
  refine ⟨fun hf => ⟨f, hf, rfl⟩, fun ⟨g, hg, hplace⟩ => ?_⟩
  rwa [← Feature.place_injective hplace]

/-- **A key covers another iff no word of the other has a bit that it has not.** -/
theorem supports_iff_ldiff :
    k.supports l = true ↔ ∀ word, (l.mask word).ldiff (k.mask word) = 0 := by
  rw [supports_iff]
  constructor
  · refine fun h word => Nat.zero_of_testBit_eq_false fun bit => ?_
    rw [Nat.testBit_ldiff]
    cases hl : (l.mask word).testBit bit with
    | false => rfl
    | true =>
      obtain ⟨f, hf, hplace⟩ := (testBit_mask_iff l word bit).mp hl
      rw [(testBit_mask_iff k word bit).mpr ⟨f, h f hf, hplace⟩]
      rfl
  · intro h f hf
    have hbit := congrArg (Nat.testBit · f.place.2) (h f.place.1)
    rw [Nat.testBit_ldiff, mem_iff_testBit.mp hf] at hbit
    simpa [mem_iff_testBit] using hbit

/-! ## Words of keys that are built from others -/

/-- Words are equal if they have the places of the same features. -/
theorem mask_eq_iff {m : Nat} : k.mask word = m ↔
    ∀ bit, m.testBit bit = true ↔ ∃ f ∈ k.features, f.place = (word, bit) := by
  simp only [← testBit_mask_iff]
  exact ⟨fun h bit => by rw [h],
    fun h => Nat.eq_of_testBit_eq fun bit => Bool.eq_iff_iff.mpr (h bit).symm⟩

@[simp] theorem mask_empty (word : KeyWord) : empty.mask word = 0 := rfl

/-- The words of a union are the unions of the words. -/
theorem mask_append (fs gs : List Feature) (word : KeyWord) :
    mask ⟨fs ++ gs⟩ word = mask ⟨fs⟩ word ||| mask ⟨gs⟩ word := by
  rw [mask_eq_iff]
  intro bit
  simp only [Nat.testBit_or, Bool.or_eq_true, testBit_mask_iff, List.mem_append, or_and_right,
    exists_or]

@[simp] theorem mask_enableAll (k : Key) (fs : List Feature) (word : KeyWord) :
    (k.enableAll fs).mask word = k.mask word ||| mask ⟨fs⟩ word := mask_append k.features fs word

@[simp] theorem mask_merge (k l : Key) (word : KeyWord) :
    (k.merge l).mask word = k.mask word ||| l.mask word := mask_append k.features l.features word

/-- **One word is cleared**, all others stay. -/
theorem mask_freeInputWeights (k : Key) (word : KeyWord) :
    k.freeInputWeights.mask word = if word = .inputWeightLayouts then 0 else k.mask word := by
  have hmem : ∀ f, f ∈ k.freeInputWeights.features ↔
      f ∈ k.features ∧ ¬ f.place.1 = .inputWeightLayouts := fun f => by
    rw [← f.isInputWeightLayout_iff]
    simp [freeInputWeights]
  rw [mask_eq_iff]
  intro bit
  simp only [hmem]
  split
  case isTrue hword =>
    refine ⟨fun h => by simp at h, fun ⟨f, ⟨_, hne⟩, hplace⟩ => absurd ?_ hne⟩
    rw [hplace, hword]
  case isFalse hword =>
    rw [testBit_mask_iff]
    refine exists_congr fun f => and_congr_left fun hplace => (and_iff_left ?_).symm
    rw [hplace]
    exact hword

end Key

end NetPlan.Kernel
