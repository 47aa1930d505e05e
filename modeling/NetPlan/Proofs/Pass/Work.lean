import NetPlan.Proofs.Kernel.Margins
import NetPlan.Proofs.Pass.Standing

/-!
# Proofs/Pass/Work — the work of nodes whose layouts grow

A node is bound once it passed its checks and its layouts were turned into work.  Both are a matter
of sizes for the most part.

* `Node.check_widened` — with more padding around what it reads a node passes the checks that it
  passed;
* `Node.follows_work?` — and has the same work with more padding, matrix products apart, if there is
  no padding in weights (`Operation.WeighsDense`);
* `Node.weighsDense_of_work?` — with padding in weights there is no work.
-/

namespace NetPlan

open Program Edit Kernel

/-! ## Checks -/

namespace Node

variable {n : Node} {inputs inputs' : List Layout}

/-- An input is found if it stands in its place. -/
theorem inputAt_eq_ok_iff {index : Nat} {l : Layout} :
    inputAt inputs index = .ok l ↔ inputs[index]? = some l := by
  unfold inputAt
  cases inputs[index]? <;> simp

/-- There are enough inputs. -/
theorem expectInputs_eq_ok_iff {k : Nat} : n.expectInputs inputs k = .ok () ↔ k ≤ inputs.length := by
  unfold expectInputs invalid
  split <;> simp <;> omega

/-- A refusal in front is not met. -/
theorem refuse_eq_ok_iff {α : Type} {c : Prop} [Decidable c] {problem : PrimitiveProblem}
    {f : PUnit → Except CompileError α} {a : α} :
    ((if c then (n.invalid problem : Except CompileError PUnit) >>= f else f ⟨⟩) = .ok a) ↔
      ¬ c ∧ f ⟨⟩ = .ok a := by
  split
  case isTrue h => exact iff_of_false (fun h' => nomatch h') fun h' => h'.1 h
  case isFalse h => exact (and_iff_right h).symm

/-- A refusal at the end is not met. -/
theorem refuse_last_iff {c : Prop} [Decidable c] {problem : PrimitiveProblem} :
    ((if c then (n.invalid problem : Except CompileError PUnit) else pure ⟨⟩) = .ok ⟨⟩) ↔ ¬ c := by
  split
  case isTrue h => exact iff_of_false (fun h' => nomatch h') fun h' => h' h
  case isFalse h => exact iff_of_true rfl h

/-- What a convolution is checked for: the shapes of its weights and biases, and its steps. -/
theorem checkConvolution_eq_ok_iff {c : Convolution} : n.checkConvolution c inputs = .ok () ↔
    c.split ≠ 0 ∧ (c.bias.isEmpty = true ∨ c.bias.length = c.split) ∧
    1 + c.split + c.bias.length ≤ inputs.length ∧ ∃ input weights, inputs[0]? = some input ∧
      inputs[1]? = some weights ∧ (∀ l ∈ (inputs.drop 1).take c.split, l.size = weights.size) ∧
      (∀ l ∈ inputs.drop (1 + c.split), l.count = weights.size.batch) ∧ c.stride.hasZero = false ∧
      c.dilation.hasZero = false ∧ (c.dilation = Planar.one ∨ input.size.batch ≤ 1) := by
  unfold checkConvolution
  simp only [refuse_eq_ok_iff, bind_eq_ok_iff, inputAt_eq_ok_iff, Unique.exists_iff,
    PUnit.default_eq_unit, expectInputs_eq_ok_iff]
  refine and_congr_right fun _ => and_congr (by simp [imp_iff_or_not, or_comm]) <|
    and_congr_right fun _ => exists_congr fun input => ?_
  rw [← exists_and_left]
  refine exists_congr fun weights => and_congr_right fun _ => and_congr_right fun _ =>
    and_congr (by simp) ?_
  cases hfind : (inputs.drop (1 + c.split)).find? (·.count ≠ weights.size.batch) with
  | some l =>
    refine iff_of_false (fun h => nomatch h) fun h => ?_
    have hcount : l.count ≠ weights.size.batch := by simpa using List.find?_some hfind
    exact hcount (h.1 l (List.mem_of_find?_eq_some hfind))
  | none =>
    have hall : ∀ l ∈ inputs.drop (1 + c.split), l.count = weights.size.batch := fun l hl => by
      simpa using List.find?_eq_none.mp hfind l hl
    rw [and_iff_right hall]
    simp only [refuse_eq_ok_iff, refuse_last_iff]
    simp [imp_iff_or_not, or_comm]

/-- When a matrix product passes its check. -/
theorem checkFullyConnected_eq_ok_iff {c : FullyConnected} :
    n.checkFullyConnected c inputs = .ok () ↔
      2 ≤ inputs.length ∧ ∃ input weights, inputs[0]? = some input ∧ inputs[1]? = some weights ∧
        input.size.feature * input.size.x * input.size.y
          = weights.size.feature * weights.size.x * weights.size.y ∧
        (c.bias.isSome = true → 3 ≤ inputs.length ∧
          ∃ bias, inputs[2]? = some bias ∧ bias.count = weights.size.batch) := by
  unfold checkFullyConnected
  simp only [refuse_eq_ok_iff, bind_eq_ok_iff, inputAt_eq_ok_iff, Unique.exists_iff,
    PUnit.default_eq_unit, expectInputs_eq_ok_iff]
  refine and_congr_right fun _ => exists_congr fun input => ?_
  rw [← exists_and_left]
  refine exists_congr fun weights => and_congr_right fun _ => and_congr_right fun _ =>
    and_congr not_not ?_
  split
  case isTrue h =>
    simp only [h, true_imp_iff, bind_eq_ok_iff, inputAt_eq_ok_iff, Unique.exists_iff,
      PUnit.default_eq_unit, expectInputs_eq_ok_iff, refuse_last_iff, not_not]
  case isFalse h => exact iff_of_true rfl fun h' => absurd h' h

/-- A node is checked by its task. -/
theorem check_task_iff : n.task.node.check inputs = .ok () ↔ n.check inputs = .ok () := by
  have hop : n.task.node.operation = n.operation.shape := rfl
  unfold check
  rw [hop]
  cases n.operation <;>
    simp [Operation.shape, Operation.mapSlots, Convolution.mapSlots, checkConvolution_eq_ok_iff,
      checkFullyConnected_eq_ok_iff, Convolution.split, invalid]

/-- Only some kinds are checked, but the others have nothing to check. -/
theorem check_kind (n : Node) (inputs : List Layout) : n.kind.check n inputs = n.check inputs := by
  have hunchecked : n.kind.isChecked = false → n.check inputs = .ok () := fun h => by
    unfold kind at h
    unfold check
    cases hop : n.operation <;> rw [hop] at h <;> first | rfl | cases h
  unfold OpKind.check OpKind.expect
  cases hk : n.kind.isChecked with
  | true =>
    rw [if_pos rfl, if_pos rfl]
    rfl
  | false => exact (hunchecked hk).symm

section Widened

variable (h : List.Forall₂ Layout.Widens inputs inputs')
include h

/-- An input is there as it was, but for its padding. -/
theorem exists_input_widened {index : Nat} {l : Layout} (hl : inputs[index]? = some l) :
    ∃ l', inputs'[index]? = some l' ∧ l'.size = l.size :=
  let ⟨l', hl', hwiden⟩ := exists_getElem?_of_forall₂ h hl
  ⟨l', hl', hwiden.size⟩

/-- What holds of all sizes holds with more padding. -/
theorem forall_size_widened {P : Shape → Prop} (hall : ∀ l ∈ inputs, P l.size) :
    ∀ l ∈ inputs', P l.size := fun l' hl' => by
  obtain ⟨l, hl, hwiden⟩ := exists_mem_of_forall₂ h.flip l' hl'
  rw [hwiden.size]
  exact hall l hl

/-- Convolutions are checked without their padding. -/
theorem checkConvolution_widened {c : Convolution} (hc : n.checkConvolution c inputs = .ok ()) :
    n.checkConvolution c inputs' = .ok () := by
  obtain ⟨hsplit, hbias, hlength, input, weights, hinput, hweights, hsizes, hcounts, hrest⟩ :=
    checkConvolution_eq_ok_iff.mp hc
  obtain ⟨input', hinput', hsize⟩ := exists_input_widened h hinput
  obtain ⟨weights', hweights', hsize'⟩ := exists_input_widened h hweights
  refine checkConvolution_eq_ok_iff.mpr ⟨hsplit, hbias, h.length_eq ▸ hlength, input', weights',
    hinput', hweights', ?_, ?_, ?_⟩
  · rw [hsize']
    exact forall_size_widened (P := (· = weights.size))
      (List.forall₂_take _ (List.forall₂_drop _ h)) hsizes
  · rw [hsize']
    exact forall_size_widened (P := fun size => size.count = _) (List.forall₂_drop _ h) hcounts
  · rwa [hsize]

/-- So are matrix products. -/
theorem checkFullyConnected_widened {c : FullyConnected}
    (hc : n.checkFullyConnected c inputs = .ok ()) : n.checkFullyConnected c inputs' = .ok () := by
  obtain ⟨hlength, input, weights, hinput, hweights, hproduct, hbias⟩ :=
    checkFullyConnected_eq_ok_iff.mp hc
  obtain ⟨input', hinput', hsize⟩ := exists_input_widened h hinput
  obtain ⟨weights', hweights', hsize'⟩ := exists_input_widened h hweights
  refine checkFullyConnected_eq_ok_iff.mpr ⟨h.length_eq ▸ hlength, input', weights', hinput',
    hweights', by rw [hsize, hsize', hproduct], fun hsome => ?_⟩
  obtain ⟨hlength, bias, hthere, hcount⟩ := hbias hsome
  obtain ⟨bias', hthere', hsize''⟩ := exists_input_widened h hthere
  refine ⟨h.length_eq ▸ hlength, bias', hthere', ?_⟩
  rw [Layout.count, hsize'', hsize']
  exact hcount

/-- **More padding passes the checks.** -/
theorem check_widened (hcheck : n.check inputs = .ok ()) : n.check inputs' = .ok () := by
  unfold check at hcheck ⊢
  cases hop : n.operation with
  | convolution c =>
    rw [hop] at hcheck
    exact checkConvolution_widened h hcheck
  | fusedConvBnScale f =>
    rw [hop] at hcheck
    exact checkConvolution_widened h hcheck
  | fullyConnected c =>
    rw [hop] at hcheck
    exact checkFullyConnected_widened h hcheck
  | eltwise e =>
    rw [hop] at hcheck
    dsimp only at hcheck ⊢
    rwa [← h.length_eq]
  | _ => rfl

end Widened

end Node

/-! ## Work with more padding -/

/-- Lists of steps that follow each other one by one. -/
theorem follows_mapM_forall₂ {ε α β γ δ : Type} {R : α → β → Prop} {S : γ → δ → Prop}
    {f : α → Except ε γ} {g : β → Except ε δ} (h : ∀ a b, R a b → Follows S (f a) (g b))
    {as : List α} {bs : List β} (hab : List.Forall₂ R as bs) :
    Follows (List.Forall₂ S) (as.mapM f) (bs.mapM g) := by
  induction hab with
  | nil =>
    rw [List.mapM_nil, List.mapM_nil]
    exact follows_pure .nil
  | cons hr _ ih =>
    rw [List.mapM_cons, List.mapM_cons]
    exact (h _ _ hr).bind fun _ _ hs => ih.bind fun _ _ hss => follows_pure (.cons hs hss)

/-- Buffers are not laid out flat. -/
theorem Format.dataLayout?_ne (f : Format) : f.dataLayout? ≠ some .bf ∧ f.dataLayout? ≠ some .fb := by
  cases f <;> decide

namespace Layout

variable {l l' : Layout}

/-- What is widened into a dense layout was that layout. -/
theorem Widens.eq_of_dense (h : l.Widens l') (hdense : l'.padding.isNone = true) : l' = l := by
  have hpadding := h.padding.eq_of_isNone hdense
  calc l' = l'.bare.withPadding l'.padding := rfl
    _ = l.bare.withPadding l.padding := by rw [h.bare, hpadding]
    _ = l := rfl

/-- Weights have no padding. -/
theorem isNone_of_weightTensor {w : WeightTensor} (h : l.weightTensor = .ok w) :
    l.padding.isNone = true := by
  unfold weightTensor at h
  split at h
  · cases h
  case isFalse hdense => simpa using hdense

/-- A bias is counted without its padding. -/
theorem biasTensor?_widened {ls ls' : List Layout} (h : List.Forall₂ Widens ls ls') :
    biasTensor? ls' = biasTensor? ls := by
  have hcounts : ls'.map Layout.count = ls.map Layout.count := by
    induction h with
    | nil => rfl
    | cons hl _ ih => rw [List.map_cons, List.map_cons, ih, count, hl.size, count]
  cases h with
  | nil => rfl
  | cons hl _ => rw [biasTensor?, biasTensor?, hcounts, hl.element]

end Layout

/-- The slots that are read as weights; of several groups the first counts. -/
def Operation.readAsWeights : Operation → List Nat
  | .convolution _ | .fullyConnected _ | .fusedConvBnScale _ => [1]
  | .reorder r => if r.format.isWeights then [0] else []
  | _ => []

/-- Whether the result is written as weights. -/
def Operation.writesWeights : Operation → Bool
  | .reorder r => r.format.isWeights
  | _ => false

/-- There is no padding in weights. -/
structure Operation.WeighsDense (op : Operation) (inputs : List Layout) (output : Layout) : Prop where
  reads : ∀ i ∈ op.readAsWeights, ∀ l, inputs[i]? = some l → l.padding.isNone = true
  writes : op.writesWeights = true → output.padding.isNone = true

namespace Node

variable {n : Node} {inputs inputs' data data' : List Layout} {output output' : Layout}

/-- Blaming changes no result. -/
theorem blame_eq_ok_iff {α : Type} {x : Except PrimitiveProblem α} {a : α} :
    n.blame x = .ok a ↔ x = .ok a :=
  ⟨blame_eq_ok, fun h => h ▸ rfl⟩

/-- Nor what follows. -/
theorem follows_blame {α β : Type} {R : α → β → Prop} {x : Except PrimitiveProblem α}
    {y : Except PrimitiveProblem β} (h : Follows R x y) : Follows R (n.blame x) (n.blame y) :=
  fun a ha => by
    obtain ⟨b, rfl, hab⟩ := h a (blame_eq_ok ha)
    exact ⟨b, rfl, hab⟩

/-- An input in its place, with more padding. -/
theorem follows_inputAt (h : List.Forall₂ Layout.Widens inputs inputs') (index : Nat) :
    Follows (fun l l' => l.Widens l' ∧ inputs'[index]? = some l') (inputAt inputs index)
      (inputAt inputs' index) := fun l hl => by
  obtain ⟨l', hl', hwiden⟩ := exists_getElem?_of_forall₂ h (inputAt_eq_ok hl)
  exact ⟨l', inputAt_eq_ok_iff.mpr hl', hwiden, hl'⟩

/-- There are as many inputs. -/
theorem follows_expectInputs (h : List.Forall₂ Layout.Widens inputs inputs') (atLeast : Nat) :
    Follows (fun _ _ => True) (n.expectInputs inputs atLeast) (n.expectInputs inputs' atLeast) := by
  rw [sameBare_expectInputs (bare_of_forall₂ h)]
  exact follows_unit

/-- Operands with more padding. -/
theorem follows_operands (h : List.Forall₂ Layout.Widens data data') (hout : output.Widens output') :
    Follows Operands.Widens (n.operands data output) (n.operands data' output') :=
  (follows_mapM_forall₂ (fun _ _ hl => follows_blame fun _ ht => hl.dataTensor ht) h).bind
    fun _ _ hts => (follows_blame fun _ ht => hout.dataTensor ht).bind fun _ _ ht =>
      follows_pure ⟨rfl, hts, ht⟩

/-- Weights that are dense have not changed. -/
theorem follows_weightTensor {l l' : Layout} (h : l.Widens l') (hdense : l'.padding.isNone = true) :
    Follows (fun w w' => w' = w) (n.blame l.weightTensor) (n.blame l'.weightTensor) := by
  rw [h.eq_of_dense hdense]
  exact fun w hw => ⟨w, hw, rfl⟩

section Work

variable (hin : List.Forall₂ Layout.Widens inputs inputs') (hout : output.Widens output')
include hin hout

/-- A convolution with more padding, if its weights have none. -/
theorem follows_convolutionWork (c : Convolution) (hdata : List.Forall₂ Layout.Widens data data')
    (hdense : ∀ l, inputs'[1]? = some l → l.padding.isNone = true) :
    Follows (fun w w' => w.operands.Widens w'.operands ∧ w' = { w with operands := w'.operands })
      (n.convolutionWork c data inputs output) (n.convolutionWork c data' inputs' output') := by
  refine (follows_expectInputs hin _).bind fun _ _ _ =>
    (follows_inputAt hin 1).bind fun l l' ⟨hl, hthere⟩ =>
    (follows_weightTensor hl (hdense l' hthere)).bind fun w w' hw =>
    (follows_operands hdata hout).bind fun o o' ho => follows_pure ⟨ho, ?_⟩
  rw [hw, Layout.biasTensor?_widened (List.forall₂_take _ (List.forall₂_drop _ hin))]

/-- A reorder with more padding, or one of weights as it was. -/
theorem follows_reorderWork {r : Reorder}
    (hdense : (Operation.reorder r).WeighsDense inputs' output') :
    Follows (fun w w' => w' = w ∨ w.Widens w') (n.reorderWork r inputs output)
      (n.reorderWork r inputs' output') := by
  unfold reorderWork
  split
  case isTrue hformat =>
    have hreads : 0 ∈ (Operation.reorder r).readAsWeights := by
      rw [Operation.readAsWeights, if_pos hformat]
      exact List.mem_singleton_self 0
    refine (follows_expectInputs hin 1).bind fun _ _ _ =>
      (follows_inputAt hin 0).bind fun l l' ⟨hl, hthere⟩ =>
      (follows_weightTensor hl (hdense.reads 0 hreads l' hthere)).bind fun w w' hw =>
      (follows_weightTensor hout (hdense.writes hformat)).bind fun v v' hv =>
      follows_pure (Or.inl ?_)
    rw [hw, hv]
  case isFalse =>
    exact (follows_operands hin hout).bind fun o o' ho => follows_pure (Or.inr ⟨o, o', rfl, ho, rfl⟩)

/-- A fused convolution with more padding, if its weights have none. -/
theorem follows_fusedWork {f : FusedConvBnScale}
    (hdense : (Operation.fusedConvBnScale f).WeighsDense inputs' output') :
    Follows Work.Widens (n.fusedWork f inputs output) (n.fusedWork f inputs' output') := by
  refine (follows_expectInputs hin _).bind fun _ _ _ =>
    (follows_inputAt hin 0).bind fun l l' ⟨hl, _⟩ =>
    (follows_convolutionWork hin hout f.conv (.cons hl (List.forall₂_drop _ hin))
      (hdense.reads 1 (List.mem_singleton_self 1))).bind fun w w' ⟨ho, hw⟩ => follows_pure ?_
  exact ⟨w.operands, w'.operands, rfl, ho, congrArg (Work.fusedConvBnScale · f.epsilon) hw⟩

/-- **With more padding the work is the same with more padding**, matrix products apart and if no
weights are padded. -/
theorem follows_work? (hk : n.kind ≠ .fullyConnected)
    (hdense : n.operation.WeighsDense inputs' output') :
    Follows (fun w w' => w' = w ∨ ∃ v v', w = some v ∧ w' = some v' ∧ v.Widens v')
      (n.work? inputs output) (n.work? inputs' output') := by
  have hsome : ∀ {x y : Except CompileError Work}, Follows (fun w w' => w' = w ∨ w.Widens w') x y →
      Follows (fun w w' => w' = w ∨ ∃ v v', w = some v ∧ w' = some v' ∧ v.Widens v') (some <$> x)
        (some <$> y) := fun h => by
    rw [map_eq_pure_bind, map_eq_pure_bind]
    exact h.bind fun w w' hw => follows_pure (hw.imp (congrArg some) fun hw => ⟨w, w', rfl, rfl, hw⟩)
  have hoperands : ∀ f : Operands → Work, (∀ o, (f o).operands? = some o) →
      (∀ o o', f o' = (f o).withOperands o') →
      Follows (fun w w' => w' = w ∨ ∃ v v', w = some v ∧ w' = some v' ∧ v.Widens v')
        (n.operands inputs output >>= fun o => pure (some (f o)))
        (n.operands inputs' output' >>= fun o => pure (some (f o))) := fun f hf hwith =>
    (follows_operands hin hout).bind fun o o' ho => follows_pure (Or.inr ⟨f o, f o', rfl, rfl,
      o, o', hf o, ho, hwith o o'⟩)
  unfold work?
  unfold kind at hk
  cases hop : n.operation with
  | inputLayout | data => exact follows_pure (Or.inl rfl)
  | convolution c =>
    rw [hop] at hdense
    refine (follows_inputAt hin 0).bind fun l l' ⟨hl, _⟩ =>
      (follows_convolutionWork hin hout c (.cons hl .nil)
        (hdense.reads 1 (List.mem_singleton_self 1))).bind fun w w' ⟨ho, hw⟩ => follows_pure ?_
    exact Or.inr ⟨_, _, rfl, rfl, w.operands, w'.operands, rfl, ho, congrArg Work.convolution hw⟩
  | fullyConnected c =>
    rw [hop] at hk
    exact absurd rfl hk
  | pooling c =>
    refine hsome ((follows_inputAt hin 0).bind fun l l' ⟨hl, _⟩ =>
      (follows_operands (.cons hl .nil) hout).bind fun o o' ho => follows_pure (Or.inr ?_))
    exact ⟨o, o', rfl, ho, rfl⟩
  | activation a =>
    refine (follows_operands hin hout).bind fun o o' ho => follows_pure (Or.inr ?_)
    exact ⟨_, _, rfl, rfl, _, { o' with activation := a.activation }, rfl,
      ⟨rfl, ho.inputs, ho.output⟩, rfl⟩
  | reorder r =>
    rw [hop] at hdense
    exact hsome (follows_reorderWork hin hout hdense)
  | fusedConvBnScale f =>
    rw [hop] at hdense
    exact hsome fun w hw => (follows_fusedWork hin hout hdense w hw).imp
      fun w' hw' => ⟨hw'.1, Or.inr hw'.2⟩
  | eltwise e =>
    exact hoperands (.eltwise ⟨·, e.mode, e.coefficients⟩) (fun _ => rfl) fun _ _ => rfl
  | softmax c => exact hoperands (.softmax · c.axis) (fun _ => rfl) fun _ _ => rfl
  | concatenation c => exact hoperands (.concatenation · c.axis) (fun _ => rfl) fun _ _ => rfl
  | batchNorm c => exact hoperands (.batchNorm · c.epsilon) (fun _ => rfl) fun _ _ => rfl
  | scale c => exact hoperands .scale (fun _ => rfl) fun _ _ => rfl

end Work

/-! ### Work by kind -/

/-- What is known of the work of a node. -/
structure Works (n : Node) (output : Layout) (w : Work) : Prop where
  product : w.kind = .fullyConnected → n.kind = .fullyConnected
  convolution : ∀ v, w = .convolution v → n.kind = .convolution ∧
    output.dataTensor = .ok v.operands.output
  softmax : ∀ o axis, w = .softmax o axis → ∀ t ∈ o.inputs, t.layout ≠ .bf

/-- Work that is none of these. -/
theorem works_of_kind {w : Work}
    (h : [Kind.fullyConnected, .convolution, .softmax].contains w.kind = false) :
    n.Works output w := by
  simp only [List.contains_eq_mem, List.mem_cons, List.not_mem_nil, or_false, decide_eq_false_iff_not,
    not_or] at h
  obtain ⟨hproduct, hconvolution, hsoftmax⟩ := h
  exact ⟨fun h => absurd h hproduct, fun _ h => absurd (congrArg Work.kind h) hconvolution,
    fun _ _ h => absurd (congrArg Work.kind h) hsoftmax⟩

/-- Data has no flat arrangement on its own. -/
theorem layout_of_operands : Yields (fun o : Operands => ∀ t ∈ o.inputs, t.layout ≠ .bf)
    (n.operands inputs output) := by
  have htensor : ∀ l ∈ inputs, Yields (fun t : DataTensor => t.layout ≠ .bf)
      (n.blame l.dataTensor) := fun l _ t ht => by
    obtain ⟨d, hd, rfl⟩ := Layout.dataTensor_eq_ok_iff.mp (blame_eq_ok ht)
    rintro rfl
    exact l.format.dataLayout?_ne.1 hd
  exact (yields_mapM htensor).bind fun _ hts => yields_bind fun _ => yields_pure hts

/-- Operands write the output of the node. -/
theorem output_of_operands : Yields (fun o : Operands => output.dataTensor = .ok o.output)
    (n.operands data output) := fun o ho => by
  obtain ⟨_, -, ho⟩ := bind_eq_ok_iff.mp ho
  obtain ⟨t, ht, ho⟩ := bind_eq_ok_iff.mp ho
  cases ho
  exact blame_eq_ok ht

/-- So does a convolution. -/
theorem output_of_convolutionWork {c : Convolution} :
    Yields (fun v => output.dataTensor = .ok v.operands.output)
      (n.convolutionWork c data inputs output) :=
  yields_bind fun _ => yields_bind fun _ => yields_bind fun _ =>
    output_of_operands.bind fun _ ho => yields_pure ho

/-- Work is of the kind of the node and writes its output. -/
theorem works_of_work? : Yields (fun w => ∀ v, w = some v → n.Works output v)
    (n.work? inputs output) := by
  have hsome : ∀ {x : Except CompileError Work}, Yields (n.Works output) x →
      Yields (fun w => ∀ v, w = some v → n.Works output v) (some <$> x) := fun h => by
    rw [map_eq_pure_bind]
    exact h.bind fun w hw => yields_pure fun v hv => Option.some.inj hv ▸ hw
  have hoperands : ∀ f : Operands → Work,
      (∀ o, [Kind.fullyConnected, .convolution, .softmax].contains (f o).kind = false) →
      Yields (fun w => ∀ v, w = some v → n.Works output v)
        (n.operands inputs output >>= fun o => pure (some (f o))) :=
    fun f hother => yields_bind fun o => yields_pure fun v hv =>
      Option.some.inj hv ▸ works_of_kind (hother o)
  unfold work?
  cases hop : n.operation with
  | inputLayout | data => exact yields_pure fun _ h => nomatch h
  | convolution c =>
    refine yields_bind fun input => output_of_convolutionWork.bind fun w hw =>
      yields_pure fun v hv => ?_
    cases hv
    refine ⟨(fun h => nomatch h), fun u hu => ?_, fun _ _ h => nomatch h⟩
    cases hu
    exact ⟨congrArg Operation.kind hop, hw⟩
  | fullyConnected c =>
    exact hsome (yields_bind fun _ => yields_bind fun _ => yields_bind fun _ => yields_bind fun _ =>
      yields_bind fun _ => yields_bind fun _ => yields_pure
        ⟨fun _ => congrArg Operation.kind hop, (fun _ h => nomatch h), fun _ _ h => nomatch h⟩)
  | pooling c =>
    exact hsome (yields_bind fun _ => yields_bind fun _ => yields_pure (works_of_kind rfl))
  | softmax c =>
    refine layout_of_operands.bind fun o ho => yields_pure fun v hv => ?_
    cases hv
    refine ⟨(fun h => nomatch h), (fun _ h => nomatch h), fun _ _ h => ?_⟩
    cases h
    exact ho
  | reorder r =>
    refine hsome ?_
    unfold reorderWork
    split
    · exact yields_bind fun _ => yields_bind fun _ => yields_bind fun _ => yields_bind fun _ =>
        yields_pure (works_of_kind rfl)
    · exact yields_bind fun _ => yields_pure (works_of_kind rfl)
  | fusedConvBnScale f =>
    exact hsome (yields_bind fun _ => yields_bind fun _ => yields_bind fun _ =>
      yields_pure (works_of_kind rfl))
  | activation a => exact hoperands (.activation { · with activation := a.activation }) fun _ => rfl
  | eltwise e => exact hoperands (.eltwise ⟨·, e.mode, e.coefficients⟩) fun _ => rfl
  | concatenation c => exact hoperands (.concatenation · c.axis) fun _ => rfl
  | batchNorm c => exact hoperands (.batchNorm · c.epsilon) fun _ => rfl
  | scale c => exact hoperands .scale fun _ => rfl

/-! ### Weights -/

/-- The work of a reorder. -/
theorem reorderWork_iff {r : Reorder} {w : Work} (hop : n.operation = .reorder r) :
    n.work? inputs output = .ok (some w) ↔ n.reorderWork r inputs output = .ok w := by
  rw [work?, hop]
  change some <$> n.reorderWork r inputs output = .ok (some w) ↔ _
  cases n.reorderWork r inputs output <;> simp

/-- **A node with work has no padding in weights.** -/
theorem weighsDense_of_work? {w : Work} (h : n.work? inputs output = .ok (some w)) :
    n.operation.WeighsDense inputs output := by
  have hweighted : n.kind.isWeighted = true → ∀ i ∈ [1], ∀ l, inputs[i]? = some l →
      l.padding.isNone = true := fun hk i hi l hl => by
    obtain ⟨_, weights, f, _, _, _, -, hweights, -, htensor, -⟩ := (weighs_of_work? hk h).tensors
    obtain rfl := List.mem_singleton.mp hi
    obtain rfl := Option.some.inj (hweights.symm.trans hl)
    exact Layout.isNone_of_weightTensor htensor
  cases hop : n.operation with
  | convolution | fullyConnected | fusedConvBnScale =>
    exact ⟨hweighted (by rw [kind, hop]; rfl), fun hno => absurd hno Bool.false_ne_true⟩
  | reorder r =>
    have hv := (reorderWork_iff hop).mp h
    unfold reorderWork at hv
    split at hv
    case isTrue hformat =>
      obtain ⟨-, -, hv⟩ := bind_eq_ok_iff.mp hv
      obtain ⟨source, hsource, hv⟩ := bind_eq_ok_iff.mp hv
      obtain ⟨t, ht, hv⟩ := bind_eq_ok_iff.mp hv
      obtain ⟨u, hu, -⟩ := bind_eq_ok_iff.mp hv
      refine ⟨fun i hi l hl => ?_, fun _ => Layout.isNone_of_weightTensor (blame_eq_ok hu)⟩
      rw [Operation.readAsWeights, if_pos hformat] at hi
      obtain rfl := List.mem_singleton.mp hi
      obtain rfl := Option.some.inj ((inputAt_eq_ok hsource).symm.trans hl)
      exact Layout.isNone_of_weightTensor (blame_eq_ok ht)
    case isFalse hformat =>
      refine ⟨fun i hi => ?_, fun hwrites => absurd hwrites hformat⟩
      rw [Operation.readAsWeights, if_neg hformat] at hi
      exact absurd hi List.not_mem_nil
  | _ => exact ⟨fun i hi => absurd hi List.not_mem_nil, fun hno => absurd hno Bool.false_ne_true⟩

end Node

end NetPlan
