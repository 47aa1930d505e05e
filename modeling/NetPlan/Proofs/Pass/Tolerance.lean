import NetPlan.Proofs.Kernel.Padded
import NetPlan.Proofs.Pass.Work

/-!
# Proofs/Pass/Tolerance — padding that leaves a node its kernel

What padding there may be around what a node reads and writes can be said without a word about
kernels (`Operation.Tolerates`): weights and the result of a matrix product are dense, and the
result has elements if the work is a reorder, or is a convolution that writes into padding, or a
matrix product that reads padding.

* `Node.tolerates_of_serves` — a node that a builtin kernel is found for has no other padding;
* `Node.serves_widened` — and if one is found with less padding, this is all it takes.
-/

namespace NetPlan

open Kernel

/-! ## Flat buffers -/

namespace Layout

variable {l l' : Layout} {t : DataTensor} {d : DataLayout}

/-- A dense buffer in planes is flat with the batch outside or inside. -/
theorem flatLayout?_eq_some_iff : l.flatLayout? = some d ↔ l.padding.isNone = true ∧
    ((l.format = .bfyx ∧ d = .bf) ∨ (l.format = .yxfb ∧ d = .fb)) := by
  unfold flatLayout?
  cases l.padding.isNone with
  | false => simp
  | true => cases l.format <;> simp [eq_comm]

theorem flatInput_eq_ok_iff : l.flatInput = .ok t ↔
    (∃ d, l.flatLayout? = some d ∧ t = DataTensor.dense l.element d
      ⟨l.size.batch, l.size.feature * l.size.x * l.size.y, 1, 1⟩) ∨
    l.flatLayout? = none ∧ l.dataTensor = .ok t := by
  unfold flatInput
  cases l.flatLayout? <;> simp [eq_comm]

theorem flatOutput_eq_ok_iff : l.flatOutput = .ok t ↔
    (∃ d, l.flatLayout? = some d ∧
      t = DataTensor.dense l.element d ⟨l.size.batch, l.size.feature, 1, 1⟩) ∨
    l.flatLayout? = none ∧ l.dataTensor = .ok t := by
  unfold flatOutput
  cases l.flatLayout? <;> simp [eq_comm]

/-- The rows of a matrix product come from planes with the batch outside or inside. -/
theorem format_of_flatInput (h : l.flatInput = .ok t)
    (hlayout : t.layout ∈ [DataLayout.bfyx, .bf, .yxfb, .fb]) :
    l.format = .bfyx ∨ l.format = .yxfb := by
  have hplanes : ∀ f : Format, ∀ d, f.dataLayout? = some d → d ∈ [DataLayout.bfyx, .bf, .yxfb, .fb] →
      f = .bfyx ∨ f = .yxfb := by
    intro f d hd hmem
    cases f <;> cases hd <;>
      first | exact Or.inl rfl | exact Or.inr rfl | exact absurd hmem (by decide)
  rcases flatInput_eq_ok_iff.mp h with ⟨d, hd, -⟩ | ⟨-, h⟩
  · exact (flatLayout?_eq_some_iff.mp hd).2.imp And.left And.left
  · obtain ⟨d, hd, rfl⟩ := dataTensor_eq_ok_iff.mp h
    exact hplanes _ d hd hlayout

/-- Rows with padding around them are left in planes. -/
theorem isPadded_of_flatInput (h : l.flatInput = .ok t) (hpadded : l.padding.isNone = false) :
    t.isPadded = true := by
  rcases flatInput_eq_ok_iff.mp h with ⟨d, hd, -⟩ | ⟨-, h⟩
  · rw [(flatLayout?_eq_some_iff.mp hd).1] at hpadded
    cases hpadded
  · obtain ⟨d, -, rfl⟩ := dataTensor_eq_ok_iff.mp h
    rw [DataTensor.isPadded, hpadded, Bool.not_false]

/-- **The rows are there in planes too**, if there is padding around them. -/
theorem flatInput_widened (h : l.Widens l') (ht : l.flatInput = .ok t)
    (hformat : l.format = .bfyx ∨ l.format = .yxfb) :
    ∃ t', l'.flatInput = .ok t' ∧ (t' = t ∨ l'.padding.isNone = false ∧ Planes t t') := by
  cases hdense : l'.padding.isNone with
  | true =>
    rw [h.eq_of_dense hdense]
    exact ⟨t, ht, Or.inl rfl⟩
  | false =>
    have hflat : l'.flatLayout? = none := by
      rw [flatLayout?, hdense]
      rfl
    have hline : t.size.feature * t.size.x * t.size.y
        = l.size.feature * l.size.x * l.size.y := by
      rcases flatInput_eq_ok_iff.mp ht with ⟨d, -, rfl⟩ | ⟨-, ht⟩
      · simp [DataTensor.dense]
      · obtain ⟨d, -, rfl⟩ := dataTensor_eq_ok_iff.mp ht
        rfl
    have hplanes : ∀ d, l'.format.dataLayout? = some d → d = .bfyx ∨ d = .yxfb →
        ∃ t', l'.flatInput = .ok t' ∧ (t' = t ∨ false = false ∧ Planes t t') := fun d hd hd' =>
      ⟨_, flatInput_eq_ok_iff.mpr (Or.inr ⟨hflat, dataTensor_eq_ok_iff.mpr ⟨d, hd, rfl⟩⟩),
        Or.inr ⟨rfl, h.element.trans (Node.element_of_flatInput ht).symm, hd',
          by rw [hline, ← h.size]⟩⟩
    rcases hformat with hformat | hformat
    · exact hplanes .bfyx (by rw [h.format, hformat]; rfl) (Or.inl rfl)
    · exact hplanes .yxfb (by rw [h.format, hformat]; rfl) (Or.inr rfl)

/-- A flat result is that of a dense buffer; with the batch inside its planes have the batch inside.
-/
theorem dense_of_flatOutput (h : l.flatOutput = .ok t) (hflat : t.layout = .bf ∨ t.layout = .fb) :
    l.padding.isNone = true ∧ (t.layout = .fb → l.format = .yxfb) := by
  rcases flatOutput_eq_ok_iff.mp h with ⟨d, hd, rfl⟩ | ⟨-, h⟩
  · obtain ⟨hdense, hformat⟩ := flatLayout?_eq_some_iff.mp hd
    refine ⟨hdense, fun hfb => ?_⟩
    obtain rfl : d = .fb := hfb
    exact (hformat.resolve_left fun hbf => nomatch hbf.2).1
  · obtain ⟨d, hd, rfl⟩ := dataTensor_eq_ok_iff.mp h
    obtain ⟨hbf, hfb⟩ := l.format.dataLayout?_ne
    rcases hflat with rfl | rfl
    · exact absurd hd hbf
    · exact absurd hd hfb

theorem size_of_flatOutput (h : l.flatOutput = .ok t) :
    t.size.batch = l.size.batch ∧ t.size.feature = l.size.feature := by
  rcases flatOutput_eq_ok_iff.mp h with ⟨d, -, rfl⟩ | ⟨-, h⟩
  · exact ⟨rfl, rfl⟩
  · obtain ⟨d, -, rfl⟩ := dataTensor_eq_ok_iff.mp h
    exact ⟨rfl, rfl⟩

theorem count_of_flatOutput (h : l.flatOutput = .ok t) (hcount : l.count ≠ 0) : t.count ≠ 0 := by
  rcases flatOutput_eq_ok_iff.mp h with ⟨d, -, rfl⟩ | ⟨-, h⟩
  · obtain ⟨hbatch, hfeature, -⟩ := count_ne_zero_iff.mp hcount
    exact count_ne_zero_iff.mpr ⟨hbatch, hfeature, one_ne_zero, one_ne_zero⟩
  · obtain ⟨d, -, rfl⟩ := dataTensor_eq_ok_iff.mp h
    exact hcount

end Layout

/-! ## Matrix products -/

namespace Node

variable {n : Node} {inputs inputs' : List Layout} {output output' : Layout}

theorem exists_fullyConnected_of_kind (hk : n.kind = .fullyConnected) :
    ∃ f, n.operation = .fullyConnected f := by
  unfold kind at hk
  cases hop : n.operation <;> rw [hop] at hk <;> cases hk
  exact ⟨_, rfl⟩

/-- **The work of a matrix product** is for rows, a flat result, weights and maybe biases. -/
theorem productWork_iff (hk : n.kind = .fullyConnected) {w : Work} :
    n.work? inputs output = .ok (some w) ↔
      ∃ l t u weights v, inputs[0]? = some l ∧ l.flatInput = .ok t ∧ output.flatOutput = .ok u ∧
        inputs[1]? = some weights ∧ weights.weightTensor = .ok v ∧ w = .fullyConnected
          ⟨⟨n.activation, [t], u⟩, ⟨v, (Layout.biasTensor? (inputs.drop 2)).toList⟩⟩ := by
  obtain ⟨f, hop⟩ := exists_fullyConnected_of_kind hk
  have hwork : n.work? inputs output = .ok (some w) ↔ n.fullyConnectedWork inputs output = .ok w := by
    rw [work?, hop]
    change some <$> n.fullyConnectedWork inputs output = .ok (some w) ↔ _
    cases n.fullyConnectedWork inputs output <;> simp
  rw [hwork]
  unfold fullyConnectedWork
  simp only [bind_eq_ok_iff, inputAt_eq_ok_iff, blame_eq_ok_iff]
  constructor
  · rintro ⟨-, -, l, hl, t, ht, u, hu, weights, hweights, v, hv, hw⟩
    exact ⟨l, t, u, weights, v, hl, ht, hu, hweights, hv, (Except.ok.inj hw).symm⟩
  · rintro ⟨l, t, u, weights, v, hl, ht, hu, hweights, hv, rfl⟩
    have hlength : 2 ≤ inputs.length := (List.getElem?_eq_some_iff.mp hweights).1
    exact ⟨(), expectInputs_eq_ok_iff.mpr hlength, l, hl, t, ht, u, hu, weights, hweights, v, hv, rfl⟩

/-- **With more padding around its rows a matrix product is the same**, but that the rows are in
planes. -/
theorem productWork_widened (hk : n.kind = .fullyConnected) {w : Work}
    (hin : List.Forall₂ Layout.Widens inputs inputs')
    (hweights : ∀ l, inputs'[1]? = some l → l.padding.isNone = true)
    (hformat : ∀ l, inputs[0]? = some l → l.format = .bfyx ∨ l.format = .yxfb)
    (h : n.work? inputs output = .ok (some w)) :
    n.work? inputs' output = .ok (some w) ∨ ∃ v t t' l', w = .fullyConnected v ∧
      v.operands.inputs = [t] ∧ Planes t t' ∧ inputs'[0]? = some l' ∧ l'.padding.isNone = false ∧
      n.work? inputs' output = .ok (some (.fullyConnected (v.withInput t'))) := by
  obtain ⟨l, t, u, weights, v, hl, ht, hu, hthere, hv, rfl⟩ := (productWork_iff hk).mp h
  obtain ⟨l', hl', hwiden⟩ := exists_getElem?_of_forall₂ hin hl
  obtain ⟨weights', hthere', hsame⟩ := exists_getElem?_of_forall₂ hin hthere
  obtain rfl := hsame.eq_of_dense (hweights _ hthere')
  obtain ⟨t', ht', hsame⟩ := Layout.flatInput_widened hwiden ht (hformat l hl)
  have hwork := (productWork_iff hk).mpr ⟨l', t', u, weights', v, hl', ht', hu, hthere', hv, rfl⟩
  rw [Layout.biasTensor?_widened (List.forall₂_drop 2 hin)] at hwork
  rcases hsame with rfl | ⟨hpadded, hplanes⟩
  · exact Or.inl hwork
  · exact Or.inr ⟨_, t, t', l', rfl, rfl, hplanes, hl', hpadded, hwork⟩

/-- The result of a matrix product has rows, and lies as what it reads. -/
theorem shape_of_fullyConnected {l : Layout} (hk : n.kind = .fullyConnected)
    (hout : n.outputLayout inputs = .ok output) (hl : inputs[0]? = some l) :
    output.format = (if l.format = .yxfb then .yxfb else .bfyx) ∧ output.size.x = 1 ∧
      output.size.y = 1 := by
  obtain ⟨f, hop⟩ := exists_fullyConnected_of_kind hk
  unfold outputLayout at hout
  rw [hop] at hout
  obtain ⟨-, -, hout⟩ := bind_eq_ok_iff.mp hout
  obtain ⟨input, hinput, hout⟩ := bind_eq_ok_iff.mp hout
  obtain ⟨weights, -, hout⟩ := bind_eq_ok_iff.mp hout
  obtain rfl := Option.some.inj (hl.symm.trans (inputAt_eq_ok hinput))
  exact Except.ok.inj hout ▸ ⟨rfl, rfl, rfl⟩

end Node

/-! ## Padding and kernels -/

/-- No kernel launches anything for these unless the result has elements. -/
def Operation.NeedsElements (op : Operation) (inputs : List Layout) (output : Layout) : Prop :=
  match op with
  | .convolution _ => output.padding.isNone = false
  | .fullyConnected _ => ∃ l, inputs[0]? = some l ∧ l.padding.isNone = false
  | .reorder r => r.format.isWeights = false
  | _ => False

/-- There is padding only where it leaves a kernel: none in weights, none around the result of a
matrix product, and none where a kernel needs elements that are not there. -/
structure Operation.Tolerates (op : Operation) (inputs : List Layout) (output : Layout) : Prop
    extends op.WeighsDense inputs output where
  product : op.kind = .fullyConnected → output.padding.isNone = true
  filled : op.NeedsElements inputs output → output.count ≠ 0

namespace Node

variable {n : Node} {inputs inputs' : List Layout} {output output' : Layout}

section Served

variable {s : Selector} {layer : String} {o : Options} {w : Work} (hregistry : s.registry = .builtin)
  (hout : n.outputLayout inputs = .ok output) (hwork : n.work? inputs output = .ok (some w))
  (hserves : s.Serves ⟨layer, w⟩ o)
include hregistry hout hwork hserves

/-- A matrix product that is served has a dense result, and one with elements if its rows are
padded. -/
theorem product_of_serves (hk : n.kind = .fullyConnected) : output.padding.isNone = true ∧
    ((∃ l, inputs[0]? = some l ∧ l.padding.isNone = false) → output.count ≠ 0) := by
  obtain ⟨l, t, u, _, v, hl, ht, hu, -, -, rfl⟩ := (productWork_iff hk).mp hwork
  refine ⟨(Layout.dense_of_flatOutput hu (hserves.output_fullyConnected hregistry)).1,
    fun ⟨l', hl', hpadded⟩ => ?_⟩
  obtain rfl := Option.some.inj (hl.symm.trans hl')
  obtain ⟨-, hx, hy⟩ := shape_of_fullyConnected hk hout hl
  obtain ⟨hbatch, hfeature⟩ := hserves.filled_fullyConnected hregistry (List.mem_singleton_self t)
    (Layout.isPadded_of_flatInput ht hpadded)
  obtain ⟨hsame, hsame'⟩ := Layout.size_of_flatOutput hu
  refine count_ne_zero_iff.mpr ⟨hsame ▸ hbatch, hsame' ▸ hfeature, ?_, ?_⟩
  · rw [hx]
    exact one_ne_zero
  · rw [hy]
    exact one_ne_zero

/-- **Padding that a node is served with is tolerated.** -/
theorem tolerates_of_serves : n.operation.Tolerates inputs output := by
  refine ⟨weighsDense_of_work? hwork, fun hk =>
    (product_of_serves hregistry hout hwork hserves hk).1, fun hneeds => ?_⟩
  cases hop : n.operation with
  | fullyConnected c =>
    rw [hop] at hneeds
    exact (product_of_serves hregistry hout hwork hserves (by rw [kind, hop]; rfl)).2 hneeds
  | convolution c =>
    rw [hop] at hneeds
    have hworks := works_of_work? _ hwork w rfl
    rw [work?, hop] at hwork
    obtain ⟨_, -, hwork⟩ := bind_eq_ok_iff.mp hwork
    obtain ⟨v, -, hwork⟩ := bind_eq_ok_iff.mp hwork
    cases hwork
    obtain ⟨hsize, hpadding⟩ := dataTensor_eq_ok (hworks.convolution v rfl).2
    have hpadded : v.operands.output.isPadded = true := by
      rw [DataTensor.isPadded, hpadding, show output.padding.isNone = false from hneeds,
        Bool.not_false]
    rw [Layout.count, ← hsize]
    exact hserves.filled_convolution hregistry hpadded
  | reorder r =>
    rw [hop] at hneeds
    have hv := (reorderWork_iff hop).mp hwork
    unfold reorderWork at hv
    rw [if_neg (by rw [show r.format.isWeights = false from hneeds]; exact Bool.false_ne_true)] at hv
    obtain ⟨operands, ho, hv⟩ := bind_eq_ok_iff.mp hv
    cases hv
    rw [Layout.count, ← (dataTensor_eq_ok (output_of_operands _ ho)).1]
    exact hserves.filled_reorder hregistry
  | _ =>
    rw [hop] at hneeds
    exact hneeds.elim

end Served

section Widened

variable {s : Selector} {layer : String} {w : Work} (hregistry : s.registry = .builtin)
  (hoverrides : s.overrides = .none) (hin : List.Forall₂ Layout.Widens inputs inputs')
  (hwide : output.Widens output') (hwork : n.work? inputs output = .ok (some w))
  (hserves : s.Serves ⟨layer, w⟩ n.kind.options) (htolerates : n.operation.Tolerates inputs' output')
include hregistry hoverrides hin hwide hwork hserves htolerates

/-- A matrix product that is served is served with more padding around its rows. -/
theorem product_serves_widened (hk : n.kind = .fullyConnected)
    (hout : n.outputLayout inputs = .ok output) :
    ∃ w', n.work? inputs' output' = .ok (some w') ∧ s.Serves ⟨layer, w'⟩ n.kind.options := by
  obtain ⟨f, hop⟩ := exists_fullyConnected_of_kind hk
  rw [hop] at htolerates
  obtain rfl := hwide.eq_of_dense (htolerates.product rfl)
  have hformat : ∀ l, inputs[0]? = some l → l.format = .bfyx ∨ l.format = .yxfb := fun l hl => by
    obtain ⟨l', t, u, _, v, hl', ht, hu, -, -, rfl⟩ := (productWork_iff hk).mp hwork
    obtain rfl := Option.some.inj (hl.symm.trans hl')
    rcases hserves.layout_fullyConnected hregistry (List.mem_singleton_self t) with hlayout | hlayout
    · exact Layout.format_of_flatInput ht hlayout
    · -- the result lies as the rows do
      have hformat := (shape_of_fullyConnected hk hout hl).1
      rw [(Layout.dense_of_flatOutput hu (Or.inr hlayout)).2 hlayout] at hformat
      split at hformat
      case isTrue h => exact Or.inr h
      case isFalse => cases hformat
  have hdense := htolerates.reads 1 (List.mem_singleton_self 1)
  rcases productWork_widened hk hin hdense hformat hwork with
    hsame | ⟨v, t, t', l', rfl, hinputs, hplanes, hl', hpadded, hwork'⟩
  · exact ⟨w, hsame, hserves⟩
  · refine ⟨_, hwork', ?_⟩
    have hcount : v.operands.output.count ≠ 0 := by
      obtain ⟨_, _, u, _, _, -, -, hu, -, -, hw⟩ := (productWork_iff hk).mp hwork
      cases hw
      exact Layout.count_of_flatOutput hu (htolerates.filled ⟨l', hl', hpadded⟩)
    rw [hk] at hserves ⊢
    exact hserves.planes hinputs hplanes hregistry hoverrides hcount

/-- **A node that is served is served with more padding**, if it is tolerated. -/
theorem serves_widened (hout : n.outputLayout inputs = .ok output) :
    ∃ w', n.work? inputs' output' = .ok (some w') ∧ s.Serves ⟨layer, w'⟩ n.kind.options := by
  by_cases hk : n.kind = .fullyConnected
  · exact product_serves_widened hregistry hoverrides hin hwide hwork hserves htolerates hk hout
  obtain ⟨_, hwork', hsame⟩ :=
    follows_work? hin hwide hk htolerates.toWeighsDense (some w) hwork
  rcases hsame with rfl | ⟨_, w', hw, rfl, hw'⟩
  · exact ⟨w, hwork', hserves⟩
  cases hw
  have hworks := works_of_work? _ hwork w rfl
  have hworks' := works_of_work? _ hwork' w' rfl
  refine ⟨w', hwork', hserves.widened hregistry hoverrides hw' (fun h => hk (hworks.product h))
    hworks.softmax (fun h => ?_) fun v hv hpadded => ?_⟩
  · cases w with
    | convolution v => rw [(hworks.convolution v rfl).1]; rfl
    | _ => cases h
  · obtain ⟨hconv, hout'⟩ := hworks'.convolution v hv
    obtain ⟨hsize, hpadding⟩ := dataTensor_eq_ok hout'
    rw [DataTensor.count, hsize]
    refine htolerates.filled ?_
    rw [DataTensor.isPadded, hpadding, Bool.not_eq_true'] at hpadded
    cases hop : n.operation with
    | convolution c => exact hpadded
    | _ =>
      rw [kind, hop] at hconv
      cases hconv

end Widened

end Node

end NetPlan
