import NetPlan.Proofs.Kernel.Masks
import NetPlan.Proofs.Kernel.Offered

/-!
# Proofs/Kernel/Needs — a key covers a request iff it has all that the request needs

What a request needs is read off the request: its data tensors, its weights and bias, and what its
kind adds, feature by feature.  The key of a request, built kind by kind, says the same, and so do
the words of the key:

* `Operands.mem_features_iff`, `Filter.mem_features_iff`, `Work.mem_features_iff` — the features of
  work are what it needs;
* `Options.mem_requestKey_iff`, `Options.mask_requestKey` — the key of a request under options, as
  features and as words;
* `supports_iff_enabled` — a key that was built by calls covers a request iff each need of the
  request was enabled, so a plan comes from an implementation that lacks nothing of it.
-/

namespace NetPlan

theorem Shape.isZero_iff {s : Shape} : s.isZero = true ↔ ∀ a, s.get a = 0 := by
  obtain ⟨b, f, x, y⟩ := s
  constructor
  · intro h a
    rw [of_decide_eq_true h]
    cases a <;> rfl
  · intro h
    obtain rfl : b = 0 := h .batch
    obtain rfl : f = 0 := h .feature
    obtain rfl : x = 0 := h .x
    obtain rfl : y = 0 := h .y
    rfl

theorem Padding.isNone_iff {p : Padding} : p.isNone = true ↔ ∀ a, p.total a = 0 := by
  rw [isNone, Bool.and_eq_true, Shape.isZero_iff, Shape.isZero_iff, ← forall_and]
  exact forall_congr' fun a => Nat.add_eq_zero_iff.symm

/-- A tensor is padded iff it has an edge along some axis. -/
theorem DataTensor.isPadded_iff {t : DataTensor} :
    t.isPadded = true ↔ ∃ a, 0 < t.padding.total a := by
  rw [isPadded, Bool.not_eq_true', ← Bool.not_eq_true, Padding.isNone_iff]
  simp [Nat.pos_iff_ne_zero]

namespace Kernel

/-! ## Data tensors -/

theorem mem_tensorFeatures_iff {t : DataTensor} {f : Feature} : f ∈ tensorFeatures t ↔
    (f = .batching ∧ 1 < t.size.batch) ∨ (f = .pitches ∧ t.isPadded = true) ∨
      (f = .offset ∧ t.offset ≠ 0) := by
  simp [tensorFeatures, and_comm]

namespace Operands

/-- The data tensors, the result last. -/
def tensors (o : Operands) : List DataTensor := o.inputs ++ [o.output]

/-- What the data tensors need of a kernel. -/
def Needs (o : Operands) : Feature → Prop
  | .inputType e => ∃ t ∈ o.inputs, e = t.element
  | .inputLayout l => ∃ t ∈ o.inputs, l = t.layout
  | .outputType e => e = o.output.element
  | .outputLayout l => l = o.output.layout
  | .differentTypes => ∃ t ∈ o.tensors, ∃ u ∈ o.tensors, t.element ≠ u.element
  | .batching => ∃ t ∈ o.tensors, 1 < t.size.batch
  | .pitches => ∃ t ∈ o.tensors, ∃ a, 0 < t.padding.total a
  | .offset => ∃ t ∈ o.tensors, t.offset ≠ 0
  | _ => False

theorem exists_tensors_iff {o : Operands} {P : DataTensor → Prop} :
    (∃ t ∈ o.tensors, P t) ↔ (∃ t ∈ o.inputs, P t) ∨ P o.output := by
  simp [tensors, or_and_right, exists_or]

/-- Where two tensors differ, an input differs from the output. -/
theorem exists_ne_iff {o : Operands} :
    (∃ t ∈ o.tensors, ∃ u ∈ o.tensors, t.element ≠ u.element) ↔
      ∃ t ∈ o.inputs, t.element ≠ o.output.element := by
  constructor
  · intro ⟨t, ht, u, hu, hne⟩
    by_contra hsame
    have hall : ∀ v ∈ o.tensors, v.element = o.output.element := by
      simpa [tensors, or_imp, forall_and] using hsame
    exact hne ((hall t ht).trans (hall u hu).symm)
  · exact fun ⟨t, ht, hne⟩ => ⟨t, by simp [tensors, ht], o.output, by simp [tensors], hne⟩

/-- **The features of data tensors are what they need.** -/
theorem mem_features_iff {o : Operands} {f : Feature} : f ∈ o.features ↔ o.Needs f := by
  simp only [features, List.mem_append, List.mem_flatMap, mem_tensorFeatures_iff]
  cases f
  case differentTypes => simp [Needs, exists_ne_iff]
  all_goals simp [Needs, exists_tensors_iff, DataTensor.isPadded_iff]

end Operands

/-! ## Weights and bias -/

namespace Filter

/-- A bias with one value per feature of the result. -/
def PerFeature (bias output : DataTensor) : Prop :=
  bias.size.feature = output.size.feature ∧ bias.count = bias.size.feature

/-- What weights and bias need of a kernel that writes to `output`. -/
def Needs (g : Filter) (output : DataTensor) : Feature → Prop
  | .inputWeightType e => e = g.weights.element
  | .inputWeightLayout l => l = g.weights.layout
  | .noBias => g.bias = []
  | .biasPerFeature => ∃ b ∈ g.bias.head?, PerFeature b output
  | .biasPerOutput => ∃ b ∈ g.bias.head?, ¬ PerFeature b output
  | _ => False

/-- **The features of weights and bias are what they need.** -/
theorem mem_features_iff {g : Filter} {output : DataTensor} {f : Feature} :
    f ∈ g.features output ↔ g.Needs output f := by
  obtain ⟨weights, bias⟩ := g
  cases bias with
  | nil => cases f <;> simp [features, biasFeature, Needs]
  | cons b rest =>
    have hbias : f = biasFeature ⟨weights, b :: rest⟩ output ↔
        (f = .biasPerFeature ∧ PerFeature b output) ∨
          (f = .biasPerOutput ∧ ¬ PerFeature b output) := by
      dsimp only [biasFeature, PerFeature]
      split <;> simp [*]
    simp only [features, List.mem_cons, List.not_mem_nil, or_false, hbias]
    cases f <;> simp [Needs]

end Filter

/-! ## Work of any kind -/

variable {f : Feature}

theorem ConvolutionWork.mem_features_iff {w : ConvolutionWork} : f ∈ w.features ↔
    w.operands.Needs f ∨ w.filter.Needs w.operands.output f ∨ (f = .split ∧ 1 < w.split) ∨
      (f = .dilation ∧ w.dilation ≠ Planar.one) := by
  simp [features, Operands.mem_features_iff, Filter.mem_features_iff, and_comm]

namespace Work

/-- What work needs for being of its kind. -/
def NeedsForKind (f : Feature) : Work → Prop
  | .convolution w | .fusedConvBnScale w _ =>
    (f = .split ∧ 1 < w.split) ∨ (f = .dilation ∧ w.dilation ≠ Planar.one)
  | .fullyConnected _ | .batchNorm _ _ => False
  | .pooling w => f = .poolKind w.kind ∨ f = .poolRounding w.rounding ∨ f = .poolDivider w.divider
  | .activation o => f = .activationOperand ∧ 1 < o.inputs.length
  | .eltwise w => f = .coefficients ∧ w.coefficients ≠ []
  | .reorder w => f = .subtract ∧ w.subtract ≠ []
  | .weightsReorder source target =>
    f = .inputWeightType source.element ∨ f = .outputWeightType target.element ∨
      f = .inputWeightLayout source.layout ∨ f = .outputWeightLayout target.layout ∨
      (f = .differentTypes ∧ source.element ≠ target.element)
  | .softmax _ axis => f = .softmaxAxis axis
  | .concatenation _ axis => f = .concatAxis axis
  | .scale o => (f = .biasPerFeature ∧ 2 < o.inputs.length) ∨ (f = .noBias ∧ o.inputs.length ≤ 2)

/-- What work needs of a kernel: by its data tensors, by its weights and bias, by its kind. -/
def Needs (w : Work) (f : Feature) : Prop :=
  (∃ o ∈ w.operands?, o.Needs f) ∨
    (∃ o ∈ w.operands?, ∃ g ∈ w.filter?, g.Needs o.output f) ∨ w.NeedsForKind f

/-- **The features of work are what it needs.** -/
theorem mem_features_iff {w : Work} : f ∈ w.features ↔ w.Needs f := by
  cases w
  case convolution | fusedConvBnScale =>
    simp [features, ConvolutionWork.mem_features_iff, Needs, NeedsForKind, operands?, filter?]
  case fullyConnected =>
    simp [features, Operands.mem_features_iff, Filter.mem_features_iff, Needs, NeedsForKind,
      operands?, filter?]
  case scale o =>
    have hbias : o.inputs.length ≤ 2 ↔ ¬ 2 < o.inputs.length := Nat.not_lt.symm
    by_cases h : 2 < o.inputs.length <;>
      simp [features, Operands.mem_features_iff, Needs, NeedsForKind, operands?, filter?, hbias, h]
  all_goals
    simp [features, Operands.mem_features_iff, Needs, NeedsForKind, operands?, filter?, and_comm]

end Work

/-! ## Keys that are built -/

/-- The key of an implementation that enables features call by call. -/
def Key.built (calls : List (List Feature)) : Key := calls.foldl enableAll empty

theorem Key.foldl_enableAll (calls : List (List Feature)) (k : Key) :
    calls.foldl enableAll k = ⟨k.features ++ calls.flatten⟩ := by
  induction calls generalizing k with
  | nil => simp
  | cons call calls ih => simp [ih, enableAll]

theorem Key.mem_built_iff {calls : List (List Feature)} :
    f ∈ (built calls).features ↔ ∃ call ∈ calls, f ∈ call := by
  simp [built, foldl_enableAll, empty]

/-- The words are joined call by call. -/
theorem Key.mask_built (calls : List (List Feature)) (word : KeyWord) :
    (built calls).mask word = calls.foldl (fun m call => m ||| mask ⟨call⟩ word) 0 := by
  have hrun : ∀ (calls : List (List Feature)) (k : Key), (calls.foldl enableAll k).mask word =
      calls.foldl (fun m call => m ||| mask ⟨call⟩ word) (k.mask word) := by
    intro calls
    induction calls with
    | nil => exact fun _ => rfl
    | cons call calls ih => intro k; simp [ih]
  exact hrun calls empty

/-! ## Requests -/

namespace Options

/-- What a request needs under options: what its work needs and what is required beyond it, where
the arrangement of its weights counts only if it cannot be changed. -/
def Needs (o : Options) (r : Request) (f : Feature) : Prop :=
  (r.work.Needs f ∨ f ∈ o.required.features) ∧
    (o.allowWeightsReorder = true → f.isInputWeightLayout = false)

/-- **The features of a request are what it needs.** -/
theorem mem_requestKey_iff {o : Options} {r : Request} :
    f ∈ (o.requestKey r).features ↔ o.Needs r f := by
  have hmerge : f ∈ (r.work.key.merge o.required).features ↔
      r.work.Needs f ∨ f ∈ o.required.features := by
    rw [← Work.mem_features_iff]
    exact List.mem_append
  unfold requestKey Needs
  cases o.allowWeightsReorder with
  | false => simp [hmerge]
  | true => simp [hmerge, Key.freeInputWeights]

/-- The words of a request: those of its work and of what is required, joined, and one cleared if
the weights can be rearranged. -/
def requestMask (o : Options) (r : Request) (word : KeyWord) : Nat :=
  if o.allowWeightsReorder = true ∧ word = .inputWeightLayouts then 0
  else r.work.key.mask word ||| o.required.mask word

theorem mask_requestKey (o : Options) (r : Request) (word : KeyWord) :
    (o.requestKey r).mask word = o.requestMask r word := by
  unfold requestKey requestMask
  cases o.allowWeightsReorder <;> simp [Key.mask_freeInputWeights]

/-- What its data tensors need is needed. -/
theorem needs_of_operands {o : Options} {r : Request} {data : Operands}
    (hdata : r.work.operands? = some data) (hf : data.Needs f)
    (hfree : f.isInputWeightLayout = false) : o.Needs r f :=
  ⟨Or.inl (Or.inl ⟨data, hdata, hf⟩), fun _ => hfree⟩

end Options

/-- **A key covers a request iff all that the request needs was enabled**, as the words of both say;
so what is selected comes from an implementation that has all that the request needs.  If that one
does not enable pitches, offsets or batches, the data has no padding, starts where its buffer does or
is one batch. -/
theorem supports_iff_enabled (o : Options) (r : Request) (calls : List (List Feature)) :
    ((Key.built calls).supports (o.requestKey r) = true ↔
      ∀ f, o.Needs r f → ∃ call ∈ calls, f ∈ call) ∧
    ((Key.built calls).supports (o.requestKey r) = true ↔ ∀ word,
      (o.requestMask r word).ldiff (calls.foldl (fun m call => m ||| Key.mask ⟨call⟩ word) 0) = 0) ∧
    ∀ (s : Selector) (plan : Plan) (session session' : Session),
      (s.select r o).run.run session = (.ok plan, session') →
      ∃ i ∈ s.registry.implementations, i.kind = r.kind ∧ i.name = plan.implementation ∧
        (∃ given, i.Gives r o given ∧ given.launches = plan.launches) ∧
        (∀ f, f ∉ i.key.features → ¬ o.Needs r f) ∧
        ∀ data, r.work.operands? = some data → ∀ t ∈ data.tensors,
          (.pitches ∉ i.key.features → ∀ a, t.padding.total a = 0) ∧
          (.offset ∉ i.key.features → t.offset = 0) ∧
          (.batching ∉ i.key.features → t.size.batch ≤ 1) := by
  refine ⟨?_, ?_, fun s plan session session' hrun => ?_⟩
  · simp only [Key.supports_iff, Options.mem_requestKey_iff, Key.mem_built_iff]
  · simp only [Key.supports_iff_ldiff, Options.mask_requestKey, Key.mask_built]
  · obtain ⟨-, i, hi, given, hgives, -, hplan⟩ := Selector.selects_select session plan session' hrun
    obtain ⟨hkind, haccepts⟩ := List.mem_filter.mp hi
    obtain ⟨hregistered, hkind⟩ := List.mem_filter.mp hkind
    have hkey := Key.supports_iff.mp (Bool.and_eq_true_iff.mp haccepts).1
    have hlacks : ∀ f, f ∉ i.key.features → ¬ o.Needs r f :=
      fun f hf hneeds => hf (hkey f (Options.mem_requestKey_iff.mpr hneeds))
    refine ⟨i, hregistered, of_decide_eq_true hkind, by rw [hplan], ⟨given, hgives, by rw [hplan]⟩,
      hlacks, fun data hdata t ht => ⟨fun hpitches a => ?_, fun hoffset => ?_, fun hbatching => ?_⟩⟩
    · by_contra hpadded
      exact hlacks _ hpitches
        (Options.needs_of_operands hdata ⟨t, ht, a, Nat.pos_of_ne_zero hpadded⟩ rfl)
    · by_contra hne
      exact hlacks _ hoffset (Options.needs_of_operands hdata ⟨t, ht, hne⟩ rfl)
    · by_contra hmany
      exact hlacks _ hbatching (Options.needs_of_operands hdata ⟨t, ht, not_le.mp hmany⟩ rfl)

/-- Two batches of two elements, the negative ones made zero. -/
def rectified : Request :=
  let t : DataTensor := ⟨.f32, .bf, ⟨2, 2, 1, 1⟩, .none⟩
  ⟨"r", .activation ⟨⟨.relu, .zero, .zero⟩, [t], t⟩⟩

/-- The vectorized kernel is selected, which offers batches and no pitches: there is no padding. -/
theorem supports_iff_enabled_rectified :
    (∀ f, Options.default.Needs rectified f →
      ∃ call ∈ [floatTypes, allLayouts, [.offset], [.batching]], f ∈ call) ∧
    ∃ plan session', ((Selector.builtin .default).select rectified .default).run.run ⟨.unset, []⟩
        = (.ok plan, session') ∧ plan.implementation = Builtin.activationOptName ∧
      ∃ i ∈ Registry.builtin.implementations, i.name = plan.implementation ∧
        .pitches ∉ i.key.features ∧ ∀ data, rectified.work.operands? = some data →
          ∀ t ∈ data.tensors, ∀ a, t.padding.total a = 0 := by
  obtain ⟨hneeds, -, hselect⟩ := supports_iff_enabled .default rectified
    [floatTypes, allLayouts, [.offset], [.batching]]
  refine ⟨hneeds.mp (by decide +kernel), ?_⟩
  have hname : (((Selector.builtin .default).select rectified .default).run.run
      ⟨.unset, []⟩).1.toOption.map (·.implementation) = some Builtin.activationOptName := by
    decide +kernel
  rcases hrun : ((Selector.builtin .default).select rectified .default).run.run ⟨.unset, []⟩
    with ⟨e | plan, session'⟩
  · rw [hrun] at hname
    cases hname
  · rw [hrun] at hname
    have hopt : plan.implementation = Builtin.activationOptName := Option.some.inj hname
    obtain ⟨i, hi, -, hi', -, -, hdata⟩ := hselect _ plan _ session' hrun
    have hlacks : ∀ i ∈ Registry.builtin.implementations, i.name = Builtin.activationOptName →
        .pitches ∉ i.key.features := by decide +kernel
    have hpitches := hlacks i hi (hi'.trans hopt)
    exact ⟨plan, session', rfl, hopt, i, hi, hi', hpitches,
      fun data hdata' t ht => (hdata data hdata' t ht).1 hpitches⟩

end Kernel

end NetPlan
