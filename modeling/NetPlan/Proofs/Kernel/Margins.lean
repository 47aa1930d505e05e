import NetPlan.Proofs.Kernel.Granted
import NetPlan.Proofs.Kernel.Needs
import NetPlan.Proofs.Kernel.Reach
import NetPlan.Proofs.Kernel.Uncovered

/-!
# Proofs/Kernel/Margins — kernels and the padding of their tensors

More padding around the tensors of a request changes none of the sizes that kernels check and
launch.  So a request needs no more of a kernel with it than that tensors may be padded, and most
kernels plan it as they do without.

* `Work.Widens.needs` — work with more padding needs no more than padded tensors;
* `Selector.accepts_widened` — so a kernel that offers these accepts it;
* `Planner.Bears` — a planner that has a plan for work has one of as many launches for the work with
  more padding, as the kernels here do one by one (`bears_convolutionRef`, …).
-/

namespace NetPlan

open Kernel Kernel.Builtin

/-! ## Tensors -/

/-- Within no padding there is none. -/
theorem Padding.Within.eq_of_isNone {p q : Padding} (h : p.Within q) (hq : q.isNone = true) :
    p = q := by
  refine h.antisymm fun a => ?_
  have htotal := Padding.isNone_iff.mp hq a
  rw [total] at htotal
  omega

namespace DataTensor

/-- The same data with at least the padding. -/
structure Widens (t t' : DataTensor) : Prop where
  moved : ∃ padding, t' = { t with padding }
  padding : t.padding.Within t'.padding

variable {t t' : DataTensor}

theorem Widens.element (h : t.Widens t') : t'.element = t.element := by
  obtain ⟨_, rfl⟩ := h.moved
  rfl

theorem Widens.layout (h : t.Widens t') : t'.layout = t.layout := by
  obtain ⟨_, rfl⟩ := h.moved
  rfl

theorem Widens.size (h : t.Widens t') : t'.size = t.size := by
  obtain ⟨_, rfl⟩ := h.moved
  rfl

/-- What does not depend on the padding is the same of all tensors of a list. -/
theorem map_of_widens {β : Type} {f : DataTensor → β}
    (hf : ∀ (t : DataTensor) padding, f { t with padding } = f t) {ts ts' : List DataTensor}
    (h : List.Forall₂ Widens ts ts') : ts'.map f = ts.map f := by
  induction h with
  | nil => rfl
  | cons ht _ ih =>
    obtain ⟨padding, rfl⟩ := ht.moved
    rw [List.map_cons, List.map_cons, hf, ih]

end DataTensor

/-- A buffer is a tensor if its format is one of data. -/
theorem Layout.dataTensor_eq_ok_iff {l : Layout} {t : DataTensor} : l.dataTensor = .ok t ↔
    ∃ d, l.format.dataLayout? = some d ∧ t = ⟨l.element, d, l.size, l.padding⟩ := by
  unfold dataTensor
  cases l.format.dataLayout? <;> simp [eq_comm]

/-- A buffer with more padding is a tensor with more padding. -/
theorem Layout.Widens.dataTensor {l l' : Layout} {t : DataTensor} (h : l.Widens l')
    (ht : l.dataTensor = .ok t) : ∃ t', l'.dataTensor = .ok t' ∧ t.Widens t' := by
  obtain ⟨d, hd, rfl⟩ := dataTensor_eq_ok_iff.mp ht
  refine ⟨_, dataTensor_eq_ok_iff.mpr ⟨d, h.format ▸ hd, rfl⟩, ⟨l'.padding, ?_⟩, h.padding⟩
  rw [h.element, h.size]

namespace Kernel

/-! ## Operands -/

/-- The same operands with at least the padding. -/
structure Operands.Widens (o o' : Operands) : Prop where
  activation : o'.activation = o.activation
  inputs : List.Forall₂ DataTensor.Widens o.inputs o'.inputs
  output : o.output.Widens o'.output

namespace Operands.Widens

variable {o o' : Operands} {f : Feature}

/-- Inputs and output alike. -/
theorem tensors (h : o.Widens o') : List.Forall₂ DataTensor.Widens o.tensors o'.tensors :=
  List.rel_append h.inputs (.cons h.output .nil)

/-- **More padding needs no more than padded tensors.** -/
theorem needs (h : o.Widens o') (hf : o'.Needs f) : o.Needs f ∨ f ∈ padded := by
  have hinput : ∀ t' ∈ o'.inputs, ∃ t ∈ o.inputs, t.Widens t' := fun t' ht' =>
    exists_mem_of_forall₂ h.inputs.flip t' ht'
  have htensor : ∀ t' ∈ o'.tensors, ∃ t ∈ o.tensors, t.Widens t' := fun t' ht' =>
    exists_mem_of_forall₂ h.tensors.flip t' ht'
  cases f with
  | inputType e =>
    obtain ⟨t', ht', rfl⟩ := hf
    obtain ⟨t, ht, hw⟩ := hinput t' ht'
    exact Or.inl ⟨t, ht, hw.element⟩
  | inputLayout l =>
    obtain ⟨t', ht', rfl⟩ := hf
    obtain ⟨t, ht, hw⟩ := hinput t' ht'
    exact Or.inl ⟨t, ht, hw.layout⟩
  | outputType e => exact Or.inl (hf.trans h.output.element)
  | outputLayout l => exact Or.inl (hf.trans h.output.layout)
  | differentTypes =>
    obtain ⟨t', ht', u', hu', hne⟩ := hf
    obtain ⟨t, ht, hw⟩ := htensor t' ht'
    obtain ⟨u, hu, hw'⟩ := htensor u' hu'
    rw [hw.element, hw'.element] at hne
    exact Or.inl ⟨t, ht, u, hu, hne⟩
  | batching =>
    obtain ⟨t', ht', hbatch⟩ := hf
    obtain ⟨t, ht, hw⟩ := htensor t' ht'
    rw [hw.size] at hbatch
    exact Or.inl ⟨t, ht, hbatch⟩
  | pitches | offset => exact Or.inr (by decide)
  | _ => exact Or.inl hf

end Operands.Widens

/-- What weights and bias need goes by the size of the output. -/
theorem Filter.needs_of_widens {t t' : DataTensor} (h : t.Widens t') {g : Filter} {f : Feature}
    (hf : g.Needs t' f) : g.Needs t f := by
  have hper : ∀ b, PerFeature b t' ↔ PerFeature b t := fun b => by
    rw [PerFeature, PerFeature, h.size]
  cases f with
  | biasPerFeature =>
    obtain ⟨b, hb, hfits⟩ := hf
    exact ⟨b, hb, (hper b).mp hfits⟩
  | biasPerOutput =>
    obtain ⟨b, hb, hfits⟩ := hf
    exact ⟨b, hb, fun hfits' => hfits ((hper b).mpr hfits')⟩
  | _ => exact hf

/-! ## Work -/

namespace Work

/-- The work with other operands; a weights reorder has none. -/
def withOperands (o : Operands) : Work → Work
  | .convolution w => .convolution { w with operands := o }
  | .fullyConnected w => .fullyConnected { w with operands := o }
  | .pooling w => .pooling { w with operands := o }
  | .activation _ => .activation o
  | .eltwise w => .eltwise { w with operands := o }
  | .reorder w => .reorder { w with operands := o }
  | .weightsReorder source target => .weightsReorder source target
  | .softmax _ axis => .softmax o axis
  | .concatenation _ axis => .concatenation o axis
  | .batchNorm _ epsilon => .batchNorm o epsilon
  | .scale _ => .scale o
  | .fusedConvBnScale w epsilon => .fusedConvBnScale { w with operands := o } epsilon

/-- The same work on operands with at least the padding. -/
structure Widens (w w' : Work) : Prop where
  operands : ∃ o o', w.operands? = some o ∧ o.Widens o' ∧ w' = w.withOperands o'

variable {w w' : Work} {o o' : Operands} {f : Feature}

@[simp] theorem kind_withOperands (w : Work) (o : Operands) : (w.withOperands o).kind = w.kind := by
  cases w <;> rfl

@[simp] theorem filter?_withOperands (w : Work) (o : Operands) :
    (w.withOperands o).filter? = w.filter? := by
  cases w <;> rfl

/-- Work on other operands has these. -/
theorem operands?_withOperands (hw : w.operands? = some o) :
    (w.withOperands o').operands? = some o' := by
  cases w with
  | weightsReorder => cases hw
  | _ => rfl

/-- What a kind of work needs goes by the number of its inputs at most. -/
theorem needsForKind_withOperands (hw : w.operands? = some o)
    (hlength : o'.inputs.length = o.inputs.length) :
    (w.withOperands o').NeedsForKind f ↔ w.NeedsForKind f := by
  cases w with
  | activation | scale =>
    cases hw
    simp only [withOperands, NeedsForKind, hlength]
  | _ => rfl

/-- **Work with more padding needs no more than padded tensors.** -/
theorem Widens.needs (h : w.Widens w') (hf : w'.Needs f) : w.Needs f ∨ f ∈ padded := by
  obtain ⟨o, o', hw, ho, rfl⟩ := h.operands
  rcases hf with ⟨_, hoperands, hf⟩ | ⟨_, hoperands, g, hg, hf⟩ | hf
  · obtain rfl := Option.some.inj ((operands?_withOperands hw).symm.trans hoperands)
    exact (ho.needs hf).imp_left fun hf => Or.inl ⟨o, hw, hf⟩
  · obtain rfl := Option.some.inj ((operands?_withOperands hw).symm.trans hoperands)
    rw [filter?_withOperands] at hg
    exact Or.inl (Or.inr (Or.inl ⟨o, hw, g, hg, Filter.needs_of_widens ho.output hf⟩))
  · exact Or.inl (Or.inr (Or.inr ((needsForKind_withOperands hw ho.inputs.length_eq.symm).mp hf)))

end Work

end Kernel

/-! ## Acceptance -/

/-- No work needs sub-groups; only kernels do. -/
theorem Kernel.Work.not_needs_subgroups (w : Work) : ¬ w.Needs .subgroups := by
  rintro (⟨o, -, hf⟩ | ⟨o, -, g, -, hf⟩ | hf)
  · exact hf
  · exact hf
  · cases w <;> simp [Work.NeedsForKind] at hf

namespace Selector

variable {s : Selector} {k : OpKind} {layer : String} {w w' : Work} {i j : Implementation}

/-- **A kernel that offers as much and padded tensors accepts more padding.**  Subgroups are
offered, but no work needs them. -/
theorem accepts_widened (hw : w.Widens w') (h : s.accepts ⟨layer, w⟩ k.options i = true)
    (hkey : ∀ f ∈ i.key.features, f = .subgroups ∨ f ∈ j.key.features)
    (hpadded : ∀ f ∈ padded, f ∈ j.key.features) (hrun : s.device.canRun j.key = true) :
    s.accepts ⟨layer, w'⟩ k.options j = true := by
  rw [accepts, Bool.and_eq_true_iff, Key.supports_iff] at h ⊢
  refine ⟨fun f hf => ?_, hrun⟩
  obtain ⟨hneeds | hrequired, hfree⟩ := Options.mem_requestKey_iff.mp hf
  · rcases hw.needs hneeds with hneeds | hf
    · have hoffered := h.1 f (Options.mem_requestKey_iff.mpr ⟨Or.inl hneeds, hfree⟩)
      refine (hkey f hoffered).resolve_left fun hsubgroups => ?_
      exact w.not_needs_subgroups (hsubgroups ▸ hneeds)
    · exact hpadded f hf
  · cases hrequired

/-- A device refuses nothing but half precision. -/
theorem deviceError?_eq_none_iff {r : Request} : s.deviceError? r = none ↔
    ∀ o, r.work.operands? = some o → ∀ t ∈ o.tensors, t.element = .f16 →
      s.device.halfPrecision = true := by
  unfold deviceError?
  cases r.work.operands? with
  | none => simp
  | some o =>
    have hany : (o.inputs ++ [o.output]).any (·.element = .f16) = true ↔
        ∃ t ∈ o.tensors, t.element = .f16 := by
      simp [Operands.tensors]
    cases hhalf : s.device.halfPrecision with
    | true => simp
    | false =>
      simp only [Bool.not_false, Bool.and_true, hany, Option.some.injEq, forall_eq',
        Bool.false_eq_true, imp_false]
      split
      case isTrue h =>
        obtain ⟨t, ht, helement⟩ := h
        exact iff_of_false (Option.some_ne_none _) fun h' => h' t ht helement
      case isFalse h => exact iff_of_true rfl fun t ht helement => h ⟨t, ht, helement⟩

/-- The same tensors are in half precision. -/
theorem deviceError?_widened (hw : w.Widens w') (h : s.deviceError? ⟨layer, w⟩ = none) :
    s.deviceError? ⟨layer, w'⟩ = none := by
  obtain ⟨o, o', hoperands, ho, rfl⟩ := hw.operands
  refine deviceError?_eq_none_iff.mpr fun _ ho' t' ht' helement => ?_
  obtain rfl := Option.some.inj ((Work.operands?_withOperands hoperands).symm.trans ho')
  obtain ⟨t, ht, hwiden⟩ := exists_mem_of_forall₂ ho.tensors.flip t' ht'
  rw [hwiden.element] at helement
  exact deviceError?_eq_none_iff.mp h o hoperands t ht helement

end Selector

/-! ## Plans -/

namespace Kernel

/-- As many launches. -/
def Plan.AsMany (plan again : Plan) : Prop := again.launches.length = plan.launches.length

/-- A planner that has a plan for some work has one of as many launches for that work with more
padding. -/
def Planner.Bears (planner : Planner) : Prop :=
  ∀ layer w w' o, w.Widens w' →
    Follows (List.Forall₂ Plan.AsMany) (planner ⟨layer, w⟩ o) (planner ⟨layer, w'⟩ o)

section Launches

variable {kind kind' : Kind} {name name' layer layer' : String} {defines defines' : Defines}
  {groups groups' : WorkGroups} {arguments arguments' : List Argument} {cost cost' : Single}

/-- A launch that is partitioned where another is. -/
theorem follows_launch (h : groups.partitions = true → groups'.partitions = true) :
    Follows Plan.AsMany (singleLaunch kind name layer defines groups arguments cost)
      (singleLaunch kind' name' layer' defines' groups' arguments' cost') := by
  unfold singleLaunch
  by_cases hwhole : groups.partitions = true
  · rw [if_pos hwhole, if_pos (h hwhole)]
    exact follows_pure rfl
  · rw [if_neg hwhole]
    exact follows_error _ _

/-- Launches of the same groups are planned alike. -/
theorem follows_sameLaunch (hgroups : groups' = groups) :
    Follows Plan.AsMany (singleLaunch kind name layer defines groups arguments cost)
      (singleLaunch kind' name' layer' defines' groups' arguments' cost') :=
  follows_launch (hgroups ▸ id)

/-- So are plans of one launch. -/
theorem follows_sameLaunches (hgroups : groups' = groups) :
    Follows (List.Forall₂ Plan.AsMany)
      (do
        let plan ← singleLaunch kind name layer defines groups arguments cost
        return [plan])
      (do
        let plan ← singleLaunch kind' name' layer' defines' groups' arguments' cost'
        return [plan]) :=
  (follows_sameLaunch hgroups).bind fun _ _ h => follows_pure (.cons h .nil)

end Launches

section Widened

variable {o o' : Operands} (h : o.Widens o')
include h

/-- Padding takes no work items. -/
theorem perElement_widened : perElement o'.output = perElement o.output := by
  rw [perElement, perElement, h.output.size]

/-- Activations are checked for sizes alone. -/
theorem checkActivation_widened : checkActivation o' = checkActivation o := by
  obtain ⟨activation, inputs, output⟩ := o
  obtain ⟨activation', inputs', output'⟩ := o'
  obtain ⟨hactivation, hinputs, houtput⟩ := h
  obtain rfl : activation' = activation := hactivation
  obtain ⟨_, rfl⟩ := houtput.moved
  cases hinputs with
  | nil => rfl
  | cons hfirst hrest =>
    obtain ⟨_, rfl⟩ := hfirst.moved
    cases hrest with
    | nil => rfl
    | cons hsecond _ =>
      obtain ⟨_, rfl⟩ := hsecond.moved
      rfl

end Widened

/-! ### Checks -/

/-- Checks that refuse less. -/
theorem follows_refuse {α β γ δ : Type} {S : γ → δ → Prop} {c c' : Prop} [Decidable c] [Decidable c']
    {e e' : Refusal} {f : α → Except Refusal γ} {g : β → Except Refusal δ} {x : Except Refusal γ}
    {y : Except Refusal δ} (hc : c' → c) (h : Follows S x y) :
    Follows S (if c then throw e >>= f else x) (if c' then throw e' >>= g else y) := by
  by_cases hc' : c'
  · rw [if_pos (hc hc')]
    exact follows_error _ _
  · rw [if_neg hc']
    split
    · exact follows_error _ _
    · exact h

/-- A check follows itself. -/
theorem follows_unit {ε : Type} {x : Except ε Unit} : Follows (fun _ _ => True) x x :=
  fun a h => ⟨a, h, trivial⟩

/-- A loop over tensors that does not look at their padding. -/
theorem forIn_of_widens {ε β : Type} {ts ts' : List DataTensor}
    {body : DataTensor → β → Except ε (ForInStep β)}
    (hbody : ∀ (t : DataTensor) padding, body { t with padding } = body t)
    (h : List.Forall₂ DataTensor.Widens ts ts') : ∀ b : β, forIn ts' b body = forIn ts b body := by
  induction h with
  | nil => exact fun _ => rfl
  | cons ht _ ih =>
    intro b
    obtain ⟨padding, rfl⟩ := ht.moved
    rw [List.forIn_cons, List.forIn_cons, hbody]
    exact congrArg (body _ b >>= ·) (funext fun step => by
      cases step with
      | done => rfl
      | yield b => exact ih b)

/-- Combinations are checked for sizes alone. -/
theorem follows_checkEltwise {w : EltwiseWork} {o' : Operands} (h : w.operands.Widens o') :
    Follows (fun _ _ => True) (checkEltwise w) (checkEltwise { w with operands := o' }) := by
  have hlength : o'.inputs.length = w.operands.inputs.length := h.inputs.length_eq.symm
  have hfind : (o'.inputs.find? (·.count ≠ o'.output.count)).map DataTensor.count
      = (w.operands.inputs.find? (·.count ≠ w.operands.output.count)).map DataTensor.count := by
    have hcount : o'.output.count = w.operands.output.count := by
      rw [DataTensor.count, h.output.size, DataTensor.count]
    have hmap := congrArg (List.find? (· ≠ w.operands.output.count))
      (DataTensor.map_of_widens (f := DataTensor.count) (fun _ _ => rfl) h.inputs)
    rw [List.find?_map, List.find?_map] at hmap
    rw [hcount]
    exact hmap
  unfold checkEltwise
  dsimp only
  rw [hlength]
  refine follows_refuse id ?_
  cases hw : w.operands.inputs.find? (·.count ≠ w.operands.output.count) with
  | some t => exact follows_error _ _
  | none =>
    rw [hw, Option.map_none, Option.map_eq_none_iff] at hfind
    rw [hfind]
    exact follows_unit

/-- Concatenations are checked for extents alone. -/
theorem checkConcatenation_widened {o o' : Operands} {axis : Axis} (h : o.Widens o') :
    checkConcatenation o' axis = checkConcatenation o axis := by
  have hempty : o'.inputs.isEmpty = o.inputs.isEmpty := by
    rw [Bool.eq_iff_iff, List.isEmpty_iff_length_eq_zero, List.isEmpty_iff_length_eq_zero,
      h.inputs.length_eq]
  have hextents : o'.inputs.map (·.extent axis) = o.inputs.map (·.extent axis) :=
    DataTensor.map_of_widens (fun _ _ => rfl) h.inputs
  obtain ⟨_, houtput⟩ := h.output.moved
  unfold checkConcatenation
  rw [hempty, hextents, h.activation, houtput, forIn_of_widens (fun _ _ => rfl) h.inputs]
  rfl

/-- Checks with a result that refuse alike. -/
theorem follows_unless {α β : Type} {S : α → β → Prop} {c : Prop} [Decidable c] {e e' : Refusal}
    {x : Except Refusal α} {y : Except Refusal β} (h : Follows S x y) :
    Follows S (if c then .error e else x) (if c then .error e' else y) := by
  split
  · exact follows_error _ _
  · exact h

/-- Pooling is checked for sizes alone. -/
theorem follows_checkPooling {w : PoolingWork} {o' : Operands} (h : w.operands.Widens o') :
    Follows DataTensor.Widens (checkPooling w) (checkPooling { w with operands := o' }) := by
  obtain ⟨⟨activation, inputs, output⟩, kind, rounding, divider, window, stride, padding⟩ := w
  obtain ⟨activation', inputs', output'⟩ := o'
  obtain ⟨hactivation, hinputs, houtput⟩ := h
  obtain ⟨_, rfl⟩ := houtput.moved
  cases hinputs with
  | nil => exact follows_error _ _
  | cons hinput hrest =>
  cases hrest with
  | cons => exact follows_error _ _
  | nil =>
    have hwidens := hinput
    obtain ⟨_, rfl⟩ := hinput.moved
    exact follows_unless (follows_unless (follows_unless (follows_pure hwidens)))

/-- Reorders are checked for sizes alone. -/
theorem follows_checkReorder {w : ReorderWork} {o' : Operands} (h : w.operands.Widens o') :
    Follows DataTensor.Widens (checkReorder w) (checkReorder { w with operands := o' }) := by
  obtain ⟨⟨activation, inputs, output⟩, subtract⟩ := w
  obtain ⟨activation', inputs', output'⟩ := o'
  obtain ⟨hactivation, hinputs, houtput⟩ := h
  obtain ⟨_, rfl⟩ := houtput.moved
  cases hinputs with
  | nil => exact follows_error _ _
  | cons hinput hrest =>
  cases hrest with
  | cons => exact follows_error _ _
  | nil =>
    have hwidens := hinput
    obtain ⟨_, rfl⟩ := hinput.moved
    exact follows_unless (follows_unless (follows_pure hwidens))

/-- Softmaxes are checked for sizes alone. -/
theorem follows_checkSoftmax {o o' : Operands} (h : o.Widens o') :
    Follows DataTensor.Widens (checkSoftmax o) (checkSoftmax o') := by
  obtain ⟨activation, inputs, output⟩ := o
  obtain ⟨activation', inputs', output'⟩ := o'
  obtain ⟨hactivation, hinputs, houtput⟩ := h
  obtain rfl : activation' = activation := hactivation
  obtain ⟨_, rfl⟩ := houtput.moved
  cases hinputs with
  | nil => exact follows_error _ _
  | cons hinput hrest =>
  cases hrest with
  | cons => exact follows_error _ _
  | nil =>
    have hwidens := hinput
    obtain ⟨_, rfl⟩ := hinput.moved
    exact follows_unless (follows_unless (follows_pure hwidens))

/-- Convolutions are checked for sizes alone. -/
theorem follows_checkConvolution {w : ConvolutionWork} {o' : Operands} (h : w.operands.Widens o') :
    Follows DataTensor.Widens (checkConvolution w) (checkConvolution { w with operands := o' }) := by
  obtain ⟨⟨activation, inputs, output⟩, filter, window, stride, dilation, padding, split⟩ := w
  obtain ⟨activation', inputs', output'⟩ := o'
  obtain ⟨hactivation, hinputs, houtput⟩ := h
  obtain ⟨_, rfl⟩ := houtput.moved
  cases hinputs with
  | nil => exact follows_error _ _
  | cons hinput hrest =>
  cases hrest with
  | cons => exact follows_error _ _
  | nil =>
    have hwidens := hinput
    obtain ⟨_, rfl⟩ := hinput.moved
    exact follows_unless (follows_unless (follows_unless (follows_unless
      (follows_unless (follows_unless (follows_pure hwidens))))))

/-- Windows that stay inside the padding stay inside more of it. -/
theorem follows_checkPaddedInput {w : ConvolutionWork} {o' : Operands} {t t' : DataTensor}
    (h : w.operands.Widens o') (ht : t.Widens t') :
    Follows (fun _ _ => True) (checkPaddedInput w t)
      (checkPaddedInput { w with operands := o' } t') := fun _ hok => by
  obtain ⟨hx, hy⟩ := edges_of_checkPaddedInput () hok
  obtain ⟨_, houtput⟩ := h.output.moved
  obtain ⟨_, hinput⟩ := ht.moved
  have hcovers : ∀ a need, (edgesOf t a).covers need = true → (edgesOf t' a).covers need = true :=
    fun a need hneed => by
      rw [Edges.covers, Bool.and_eq_true, decide_eq_true_eq, decide_eq_true_eq] at hneed ⊢
      exact ⟨hneed.1.trans (ht.padding a).1, hneed.2.trans (ht.padding a).2⟩
  refine ⟨(), checkPaddedInput_eq_ok ?_ ?_, trivial⟩
  · rw [requiredEdgesX, houtput, ht.size]
    exact hcovers .x _ hx
  · rw [requiredEdgesY, houtput, ht.size]
    exact hcovers .y _ hy

/-! ### Convolutions -/

section Convolutions

variable {w w' : ConvolutionWork} {name name' layer layer' : String} {extra extra' : Defines}
  {groups groups' : WorkGroups} {cost cost' : Single} {change change' : Option WeightsChange}

/-- A convolution that is partitioned where another is. -/
theorem follows_convolutionLaunch (h : groups.partitions = true → groups'.partitions = true) :
    Follows Plan.AsMany (convolutionPlan w name layer extra groups cost change)
      (convolutionPlan w' name' layer' extra' groups' cost' change') :=
  (follows_launch h).bind fun _ _ h => follows_pure h

/-- Convolutions of the same groups are planned alike. -/
theorem follows_sameConvolution (hgroups : groups' = groups) :
    Follows Plan.AsMany (convolutionPlan w name layer extra groups cost change)
      (convolutionPlan w' name' layer' extra' groups' cost' change') :=
  follows_convolutionLaunch (hgroups ▸ id)

/-- So are plans of one convolution. -/
theorem follows_sameConvolutions (hgroups : groups' = groups) :
    Follows (List.Forall₂ Plan.AsMany)
      (do
        let plan ← convolutionPlan w name layer extra groups cost change
        return [plan])
      (do
        let plan ← convolutionPlan w' name' layer' extra' groups' cost' change'
        return [plan]) :=
  (follows_sameConvolution hgroups).bind fun _ _ h => follows_pure (.cons h .nil)

end Convolutions

theorem bears_convolutionRef : convolutionRef.plan.Bears := by
  rintro layer w w' options ⟨o, o', hw, ho, rfl⟩
  cases w with
  | convolution w =>
    cases hw
    refine (follows_checkConvolution ho).bind fun t t' ht => ?_
    obtain ⟨_, rfl⟩ := ht.moved
    refine follows_bind (weightsChange? ..) fun _ _ => follows_sameConvolutions ?_
    rw [convolutionGroups, convolutionGroups, ho.output.size]
  | _ => exact follows_error _ _

theorem bears_convolutionGemm : convolutionGemm.plan.Bears := by
  rintro layer w w' options ⟨o, o', hw, ho, rfl⟩
  cases w with
  | convolution w =>
    cases hw
    refine (follows_checkConvolution ho).bind fun t t' ht =>
      (follows_checkPaddedInput ho ht).bind fun _ _ _ => ?_
    obtain ⟨_, rfl⟩ := ht.moved
    refine follows_bind (weightsChange? ..) fun _ _ => follows_sameConvolutions ?_
    rw [ho.output.size]
  | _ => exact follows_error _ _

theorem bears_convolutionBatch : convolutionBatch.plan.Bears := by
  rintro layer w w' options ⟨o, o', hw, ho, rfl⟩
  cases w with
  | convolution w =>
    cases hw
    refine (follows_checkConvolution ho).bind fun t t' ht => ?_
    obtain ⟨_, rfl⟩ := ht.moved
    dsimp only [Work.withOperands]
    rw [ho.output.size]
    refine follows_guard _ (follows_bind (BatchStyle.of? ..) fun _ _ =>
      follows_bind (weightsChange? ..) fun _ _ => follows_sameConvolutions rfl)
  | _ => exact follows_error _ _

theorem bears_convolutionBlock : convolutionBlock.plan.Bears := by
  rintro layer w w' options ⟨o, o', hw, ho, rfl⟩
  cases w with
  | convolution w =>
    cases hw
    have hcheck : Follows (fun a a' => a.1 = w ∧ a'.1 = { w with operands := o' } ∧ a.2.Widens a'.2)
        (checkBlock ⟨layer, .convolution w⟩)
        (checkBlock ⟨layer, .convolution { w with operands := o' }⟩) :=
      (follows_checkConvolution ho).bind fun t t' ht =>
        (follows_checkPaddedInput ho ht).bind fun _ _ _ => follows_pure ⟨rfl, rfl, ht⟩
    refine hcheck.bind fun ⟨v, t⟩ ⟨v', t'⟩ ⟨hv, hv', ht⟩ => ?_
    dsimp only at hv hv' ht
    subst hv hv'
    obtain ⟨_, rfl⟩ := ht.moved
    have hblock : defaultBlock { v with operands := o' } = defaultBlock v := by
      rw [defaultBlock, defaultBlock, ho.output.size]
    dsimp only
    rw [hblock]
    refine (follows_bind (Refusal.need _) fun _ _ => follows_bind (Refusal.need _) fun _ _ =>
      follows_bind (weightsChange? ..) fun _ _ => follows_sameConvolution ?_).bind
        fun _ _ h => follows_pure (.cons h .nil)
    rw [ho.output.size]
  | _ => exact follows_error _ _

/-- Parameters are counted without their padding. -/
theorem checkAllPerFeature_widened {features : Nat} {names : List String} {ts ts' : List DataTensor}
    (h : List.Forall₂ DataTensor.Widens ts ts') :
    checkAllPerFeature features (names.zip ts') = checkAllPerFeature features (names.zip ts) := by
  induction h generalizing names with
  | nil => rfl
  | cons ht _ ih =>
    cases names with
    | nil => rfl
    | cons name names =>
      obtain ⟨_, rfl⟩ := ht.moved
      rw [List.zip_cons_cons, List.zip_cons_cons, checkAllPerFeature, checkAllPerFeature, ih]
      rfl

/-- The convolution is checked with its data alone. -/
theorem bears_fusedRef : fusedRef.plan.Bears := by
  rintro layer w w' options ⟨o, o', hw, ho, rfl⟩
  cases w with
  | fusedConvBnScale w epsilon =>
    obtain ⟨⟨activation, inputs, output⟩, filter, window, stride, dilation, padding, split⟩ := w
    cases hw
    obtain ⟨activation', inputs', output'⟩ := o'
    obtain ⟨hactivation, hinputs, houtput⟩ := ho
    cases hinputs with
    | nil => exact follows_error _ _
    | @cons t t' rest rest' ht hrest =>
      have hconv : Operands.Widens ⟨activation, [t], output⟩ ⟨activation', [t'], output'⟩ :=
        ⟨hactivation, .cons ht .nil, houtput⟩
      rw [show fusedRef.plan = planFused from rfl]
      unfold planFused
      dsimp only [Work.withOperands]
      rw [← hrest.length_eq]
      refine follows_guard _ ((follows_checkConvolution hconv).bind fun _ _ _ => ?_)
      rw [checkAllPerFeature_widened hrest, houtput.size]
      refine follows_bind _ fun _ _ => ?_
      obtain ⟨_, rfl⟩ := ht.moved
      refine follows_bind (weightsChange? ..) fun _ _ => (follows_sameLaunch ?_).bind
        fun _ _ h => follows_pure (.cons h .nil)
      rw [convolutionGroups, convolutionGroups]
      exact congrArg (fun size : Shape => (⟨⟨size.feature * size.batch, size.x, size.y⟩,
        ⟨divisorUpTo32 (size.feature * size.batch), 1, 1⟩⟩ : WorkGroups)) houtput.size
  | _ => exact follows_error _ _

/-! ### Pooling -/

section Pooling

variable {name layer : String} {defines defines' : Defines} {groups groups' : WorkGroups}
  {cost cost' : Single}

/-- Pooling of the same groups is planned alike. -/
theorem follows_samePooling (hgroups : groups' = groups) :
    Follows (List.Forall₂ Plan.AsMany) (poolingPlan name layer defines groups cost)
      (poolingPlan name layer defines' groups' cost') :=
  (follows_sameLaunch hgroups).bind fun _ _ h => follows_pure (.cons h .nil)

end Pooling

theorem bears_poolingRef : poolingRef.plan.Bears := by
  rintro layer w w' options ⟨o, o', hw, ho, rfl⟩
  cases w with
  | pooling w =>
    cases hw
    exact (follows_checkPooling ho).bind fun _ _ _ => follows_samePooling (perElement_widened ho)
  | _ => exact follows_error _ _

theorem bears_poolingAverage : poolingAverage.plan.Bears := by
  rintro layer w w' options ⟨o, o', hw, ho, rfl⟩
  cases w with
  | pooling w =>
    cases hw
    refine (follows_checkPooling ho).bind fun _ _ _ => ?_
    dsimp only [Work.withOperands]
    rw [ho.activation, ho.output.size]
    exact follows_guard _ (follows_samePooling rfl)
  | _ => exact follows_error _ _

theorem bears_poolingBlock : poolingBlock.plan.Bears := by
  rintro layer w w' options ⟨o, o', hw, ho, rfl⟩
  cases w with
  | pooling w =>
    cases hw
    refine (follows_checkPooling ho).bind fun t t' ht => ?_
    dsimp only [Work.withOperands]
    rw [leavesInput, leavesInput, ho.output.size, ht.size]
    exact follows_guard _ (follows_samePooling rfl)
  | _ => exact follows_error _ _

/-! ### Other data -/

theorem bears_activationRef : activationRef.plan.Bears := by
  rintro layer w w' options ⟨o, o', hw, ho, rfl⟩
  cases w with
  | activation o =>
    cases hw
    change Follows _ (checkActivation o >>= _) (checkActivation o' >>= _)
    rw [checkActivation_widened ho]
    exact follows_bind _ fun _ _ => follows_sameLaunches (perElement_widened ho)
  | _ => exact follows_error _ _

theorem bears_eltwiseRef : eltwiseRef.plan.Bears := by
  rintro layer w w' options ⟨o, o', hw, ho, rfl⟩
  cases w with
  | eltwise w =>
    cases hw
    exact (follows_checkEltwise ho).bind fun _ _ _ => follows_sameLaunches (perElement_widened ho)
  | _ => exact follows_error _ _

theorem bears_reorderRef : reorderRef.plan.Bears := by
  rintro layer w w' options ⟨o, o', hw, ho, rfl⟩
  cases w with
  | reorder w =>
    cases hw
    refine (follows_checkReorder ho).bind fun t t' ht => follows_sameLaunches ?_
    rw [ht.size]
  | _ => exact follows_error _ _

theorem bears_reorderFast : reorderFast.plan.Bears := by
  rintro layer w w' options ⟨o, o', hw, ho, rfl⟩
  cases w with
  | reorder w =>
    cases hw
    refine (follows_checkReorder ho).bind fun _ _ _ => follows_sameLaunches ?_
    rw [DataTensor.count, DataTensor.count, ho.output.size]
  | _ => exact follows_error _ _

theorem bears_softmaxRef : softmaxRef.plan.Bears := by
  rintro layer w w' options ⟨o, o', hw, ho, rfl⟩
  cases w with
  | softmax o axis =>
    cases hw
    refine (follows_checkSoftmax ho).bind fun t t' ht => follows_sameLaunches ?_
    rw [ht.size]
  | _ => exact follows_error _ _

/-- Padding takes no work items. -/
theorem perPlane_widened {o o' : Operands} (h : o.Widens o') :
    perPlane o'.output = perPlane o.output := by
  rw [perPlane, perPlane, h.output.size]

theorem bears_batchNormRef : batchNormRef.plan.Bears := by
  rintro layer w w' options ⟨o, o', hw, ho, rfl⟩
  cases w with
  | batchNorm o epsilon =>
    cases hw
    have hgroups := perPlane_widened ho
    obtain ⟨activation, inputs, output⟩ := o
    obtain ⟨activation', inputs', output'⟩ := o'
    obtain ⟨-, hinputs, -⟩ := ho
    rw [show batchNormRef.plan = planBatchNorm from rfl]
    unfold planBatchNorm
    cases hinputs with
    | nil => exact follows_error _ _
    | cons hinput hrest =>
    cases hrest with
    | nil => exact follows_error _ _
    | @cons mean mean' _ _ hmean hrest =>
    cases hrest with
    | nil => exact follows_error _ _
    | @cons variance variance' _ _ hvariance hrest =>
    cases hrest with
    | cons => exact follows_error _ _
    | nil =>
      obtain ⟨_, rfl⟩ := hinput.moved
      change Follows _ (checkAllPerFeature _ (["mean", "variance"].zip [mean, variance]) >>= _)
        (checkAllPerFeature _ (["mean", "variance"].zip [mean', variance']) >>= _)
      rw [checkAllPerFeature_widened (.cons hmean (.cons hvariance .nil))]
      exact follows_bind _ fun _ _ => follows_guard _ (follows_sameLaunches hgroups)
  | _ => exact follows_error _ _

theorem bears_scaleRef : scaleRef.plan.Bears := by
  rintro layer w w' options ⟨o, o', hw, ho, rfl⟩
  cases w with
  | scale o =>
    cases hw
    have hgroups := perPlane_widened ho
    obtain ⟨activation, inputs, output⟩ := o
    obtain ⟨activation', inputs', output'⟩ := o'
    obtain ⟨-, hinputs, -⟩ := ho
    rw [show scaleRef.plan = planScale from rfl]
    unfold planScale
    cases hinputs with
    | nil => exact follows_error _ _
    | @cons t t' rest rest' hinput hrest =>
      have hempty : rest'.isEmpty = rest.isEmpty := by
        cases hrest <;> rfl
      obtain ⟨_, rfl⟩ := hinput.moved
      dsimp only [Work.withOperands]
      rw [hempty, ← hrest.length_eq, checkAllPerFeature_widened hrest]
      exact follows_guard _ (follows_bind _ fun _ _ => follows_sameLaunches hgroups)
  | _ => exact follows_error _ _

/-- The launch of each input is of the size of the input. -/
theorem follows_concatenationParts {layer : String} {o o' : Operands} {axis : Axis}
    {ts ts' : List DataTensor} (h : List.Forall₂ DataTensor.Widens ts ts') : ∀ index offset,
    Follows (List.Forall₂ Plan.AsMany) (concatenationParts layer o axis index offset ts)
      (concatenationParts layer o' axis index offset ts') := by
  induction h with
  | nil => exact fun _ _ => follows_pure .nil
  | cons ht _ ih =>
    intro index offset
    obtain ⟨_, rfl⟩ := ht.moved
    exact (follows_sameLaunch rfl).bind fun _ _ hpart => (ih _ _).bind fun _ _ hparts =>
      follows_pure (.cons hpart hparts)

theorem bears_concatenationRef : concatenationRef.plan.Bears := by
  rintro layer w w' options ⟨o, o', hw, ho, rfl⟩
  cases w with
  | concatenation o axis =>
    cases hw
    rw [show concatenationRef.plan = planConcatenation from rfl]
    unfold planConcatenation
    dsimp only [Work.withOperands]
    rw [checkConcatenation_widened ho]
    refine follows_bind _ fun _ _ =>
      (follows_concatenationParts ho.inputs 0 0).bind fun plans plans' hplans => ?_
    cases hplans with
    | nil => exact follows_error _ _
    | cons hfirst hrest =>
      refine follows_pure (.cons ?_ .nil)
      have hparts : ∀ {rest rest' : List Plan}, List.Forall₂ Plan.AsMany rest rest' →
          (rest'.flatMap (·.launches)).length = (rest.flatMap (·.launches)).length := by
        intro rest rest' h
        induction h with
        | nil => rfl
        | cons hpart _ ih =>
          rw [List.flatMap_cons, List.flatMap_cons, List.length_append, List.length_append, hpart, ih]
      rw [Plan.AsMany, List.length_append, List.length_append, hfirst, hparts hrest]
  | _ => exact follows_error _ _

end Kernel

end NetPlan
