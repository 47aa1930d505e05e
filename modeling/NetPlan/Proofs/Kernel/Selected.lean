import NetPlan.Proofs.Kernel.Weights

/-!
# Proofs/Kernel/Selected — what is selected for a node reads its weights

The plan for a node is selected for its work, which comes from the layouts of what it reads.  So it
reads the weights as they are laid out, or asks for weights that it reads; its definitions name them as
they are (`Node.asks_of_select`).  Of several groups of weights it is the first that the plan was made
for.
-/

namespace NetPlan

open Kernel Kernel.Builtin

/-! ## What is selected -/

/-- **Every plan that is selected suits**, under the name of its implementation, and launches
something. -/
theorem Selector.suits_of_select {s : Selector} {r : Request} {o : Options} {plan : Plan}
    {session session' : Session} (hregistry : ∀ i ∈ s.registry.implementations, i.Suits)
    (h : (s.select r o).run.run session = (.ok plan, session')) :
    Suits plan.implementation r.work plan ∧ plan.launches ≠ [] := by
  obtain ⟨-, i, hi, given, hgives, hempty, hplan⟩ := selects_select session plan session' h
  have hregistered := (List.mem_filter.mp (List.mem_filter.mp hi).1).1
  have hsuits := suits_of_gives (hregistry i hregistered) hgives
  rw [hplan]
  exact ⟨hsuits.congr rfl rfl, by simpa [Plan.isEmpty] using hempty⟩

/-! ## Buffers of weights -/

namespace Layout

variable {l l' : Layout} {name : String} {input : Element}

/-- The kernel of a name reads a buffer as weights as it is, its padding apart. -/
def ReadBy (l : Layout) (name : String) (input : Element) : Prop :=
  ∃ element layout, l.element.weightElement = .ok element ∧ l.format.weightLayout = .ok layout ∧
    Reads name input ⟨element, layout, l.size.batch, l.size.feature, l.size.x, l.size.y⟩

/-- What is read is a matter of element type and format. -/
theorem ReadBy.congr (h : l.ReadBy name input) (helement : l'.element = l.element)
    (hformat : l'.format = l.format) : l'.ReadBy name input := by
  obtain ⟨element, layout, he, hf, hreads⟩ := h
  exact ⟨element, layout, helement ▸ he, hformat ▸ hf, reads_iff.mpr (reads_iff.mp hreads)⟩

theorem weightTensor_eq_ok {w : WeightTensor} (h : l.weightTensor = .ok w) :
    l.element.weightElement = .ok w.element ∧ l.format.weightLayout = .ok w.layout ∧
      w = ⟨w.element, w.layout, l.size.batch, l.size.feature, l.size.x, l.size.y⟩ := by
  unfold weightTensor at h
  split at h
  · cases h
  · obtain ⟨element, he, h⟩ := bind_eq_ok_iff.mp h
    obtain ⟨layout, hf, h⟩ := bind_eq_ok_iff.mp h
    cases h
    exact ⟨he, hf, rfl⟩

theorem readBy_of_weightTensor {w : WeightTensor} (h : l.weightTensor = .ok w)
    (hreads : Reads name input w) : l.ReadBy name input := by
  obtain ⟨he, hf, hw⟩ := weightTensor_eq_ok h
  exact ⟨w.element, w.layout, he, hf, hw ▸ hreads⟩

/-- The format for an arrangement holds it, or its counterpart in four dimensions. -/
theorem weightsMatch_ofWeightLayout {current : WeightLayout} {wanted : List WeightLayout}
    (h : weightsMatch current wanted = true) :
    ∃ layout, (Format.ofWeightLayout current).weightLayout = .ok layout ∧
      weightsMatch layout wanted = true := by
  cases current with
  | oi =>
    refine ⟨.oiyx, rfl, ?_⟩
    simp_all [weightsMatch]
  | io =>
    refine ⟨.iyxo, rfl, ?_⟩
    simp_all [weightsMatch]
  | _ => exact ⟨_, rfl, h⟩

/-- **Weights that are laid out as a kernel asks for are read.** -/
theorem readBy_of_target {target : WeightTensor} (h : Reads name input target)
    (helement : l.element = target.element.toElement)
    (hformat : l.format = .ofWeightLayout target.layout) : l.ReadBy name input := by
  obtain ⟨hinput, hmatch⟩ := reads_iff.mp h
  obtain ⟨layout, hlayout, hmatch'⟩ := weightsMatch_ofWeightLayout hmatch
  refine ⟨target.element, layout, ?_, hformat ▸ hlayout, reads_iff.mpr ⟨hinput, hmatch'⟩⟩
  rw [helement]
  cases target.element <;> rfl

end Layout

/-- What a plan says of the buffers it was made for: it launches something, compiled for the weights, and
it reads them or else asks for weights that it reads. -/
def Kernel.Plan.Asks (plan : Plan) (data weights : Layout) : Prop :=
  ∃ w, weights.weightTensor = .ok w ∧ plan.Names w ∧ plan.launches ≠ [] ∧
    Reads plan.implementation data.element (provided w plan.weightsChange) ∧
    (plan.weightsChange = none ↔ Reads plan.implementation data.element w)

namespace Node

variable {n : Node} {inputs : List Layout} {output : Layout} {w : Work}

theorem blame_eq_ok {α : Type} {x : Except PrimitiveProblem α} {a : α} (h : n.blame x = .ok a) :
    x = .ok a := by
  cases x with
  | error e => cases h
  | ok b => exact congrArg Except.ok (Except.ok.inj h)

theorem length_of_expectInputs {atLeast : Nat} {u : Unit}
    (h : n.expectInputs inputs atLeast = .ok u) : atLeast ≤ inputs.length := by
  unfold expectInputs at h
  split at h
  · cases h
  case isFalse hlt => exact Nat.le_of_not_lt hlt

theorem element_of_dataTensor {l : Layout} {t : DataTensor} (h : l.dataTensor = .ok t) :
    t.element = l.element := by
  unfold Layout.dataTensor at h
  split at h
  · cases h
    rfl
  · cases h

theorem element_of_flatInput {l : Layout} {t : DataTensor} (h : l.flatInput = .ok t) :
    t.element = l.element := by
  unfold Layout.flatInput at h
  split at h
  · cases h
    rfl
  · exact element_of_dataTensor h

/-- How the work of a node comes from its buffers: the first is data, the second weights. -/
structure Weighs (slots : List Nat) (inputs : List Layout) (w : Work) : Prop where
  there : ∀ i ∈ slots, i < inputs.length
  tensors : ∃ data weights f o t rest, inputs[0]? = some data ∧ inputs[1]? = some weights ∧
    w.filter? = some f ∧ weights.weightTensor = .ok f.weights ∧ w.operands? = some o ∧
    o.inputs = t :: rest ∧ t.element = data.element

theorem operands_eq_ok {data : Layout} {rest : List Layout} {o : Operands}
    (h : n.operands (data :: rest) output = .ok o) :
    ∃ t ts, o.inputs = t :: ts ∧ t.element = data.element := by
  obtain ⟨tensors, htensors, h⟩ := bind_eq_ok_iff.mp h
  obtain ⟨result, -, h⟩ := bind_eq_ok_iff.mp h
  cases h
  obtain ⟨t, ts, ht, -, rfl⟩ := List.forall₂_cons_left_iff.mp (mapM_eq_ok_iff.mp htensors)
  exact ⟨t, ts, rfl, element_of_dataTensor (blame_eq_ok ht)⟩

theorem convolutionWork_eq_ok {c : Convolution} {data : Layout} {rest : List Layout}
    {work : ConvolutionWork} (h : n.convolutionWork c (data :: rest) inputs output = .ok work) :
    1 + c.split + c.bias.length ≤ inputs.length ∧ ∃ weights t ts, inputs[1]? = some weights ∧
      weights.weightTensor = .ok work.filter.weights ∧ work.operands.inputs = t :: ts ∧
      t.element = data.element := by
  obtain ⟨u, hu, h⟩ := bind_eq_ok_iff.mp h
  obtain ⟨weights, hweights, h⟩ := bind_eq_ok_iff.mp h
  obtain ⟨tensor, htensor, h⟩ := bind_eq_ok_iff.mp h
  obtain ⟨o, ho, h⟩ := bind_eq_ok_iff.mp h
  cases h
  obtain ⟨t, ts, hts, helement⟩ := operands_eq_ok ho
  exact ⟨length_of_expectInputs hu, weights, t, ts, inputAt_eq_ok hweights, blame_eq_ok htensor,
    hts, helement⟩

theorem weighs_of_convolutionWork {c : Convolution} {data : Layout} {rest : List Layout}
    {work : ConvolutionWork} (h : n.convolutionWork c (data :: rest) inputs output = .ok work)
    (hdata : inputs[0]? = some data) (hf : w.filter? = some work.filter)
    (ho : w.operands? = some work.operands) : Weighs (List.range' 1 c.split) inputs w := by
  obtain ⟨hlength, weights, t, ts, hweights, htensor, hts, helement⟩ := convolutionWork_eq_ok h
  refine ⟨fun i hi => ?_, data, weights, _, _, t, ts, hdata, hweights, hf, htensor, ho, hts,
    helement⟩
  have := List.mem_range'_1.mp hi
  omega

/-- **The work of a weighted node comes from its buffers.** -/
theorem weighs_of_work? (hk : n.kind.isWeighted = true) (h : n.work? inputs output = .ok (some w)) :
    Weighs n.operation.weightSlots inputs w := by
  unfold work? at h
  unfold kind at hk
  cases hop : n.operation with
  | convolution c =>
    rw [hop] at h
    obtain ⟨data, hdata, h⟩ := bind_eq_ok_iff.mp h
    obtain ⟨work, hwork, h⟩ := bind_eq_ok_iff.mp h
    cases h
    exact weighs_of_convolutionWork hwork (inputAt_eq_ok hdata) rfl rfl
  | fusedConvBnScale f =>
    rw [hop] at h
    change (some <$> n.fusedWork f inputs output) = _ at h
    rw [map_eq_pure_bind] at h
    obtain ⟨v, hv, h⟩ := bind_eq_ok_iff.mp h
    cases h
    obtain ⟨-, -, hv⟩ := bind_eq_ok_iff.mp hv
    obtain ⟨data, hdata, hv⟩ := bind_eq_ok_iff.mp hv
    obtain ⟨work, hwork, hv⟩ := bind_eq_ok_iff.mp hv
    cases hv
    exact weighs_of_convolutionWork hwork (inputAt_eq_ok hdata) rfl rfl
  | fullyConnected c =>
    rw [hop] at h
    change (some <$> n.fullyConnectedWork inputs output) = _ at h
    rw [map_eq_pure_bind] at h
    obtain ⟨v, hv, h⟩ := bind_eq_ok_iff.mp h
    cases h
    obtain ⟨u, hu, hv⟩ := bind_eq_ok_iff.mp hv
    obtain ⟨data, hdata, hv⟩ := bind_eq_ok_iff.mp hv
    obtain ⟨t, ht, hv⟩ := bind_eq_ok_iff.mp hv
    obtain ⟨result, -, hv⟩ := bind_eq_ok_iff.mp hv
    obtain ⟨weights, hweights, hv⟩ := bind_eq_ok_iff.mp hv
    obtain ⟨tensor, htensor, hv⟩ := bind_eq_ok_iff.mp hv
    cases hv
    refine ⟨fun i hi => ?_, data, weights, _, _, t, [], inputAt_eq_ok hdata, inputAt_eq_ok hweights,
      rfl, blame_eq_ok htensor, rfl, rfl, element_of_flatInput (blame_eq_ok ht)⟩
    rw [List.mem_singleton.mp hi]
    exact length_of_expectInputs hu
  | _ =>
    rw [hop] at hk
    cases hk

/-- Work of any other node has no weights. -/
theorem filter?_of_work? (hk : n.kind.isWeighted = false)
    (h : n.work? inputs output = .ok (some w)) : w.filter? = none := by
  have hbind : ∀ {α : Type} {x : Except CompileError α} {g : α → Work},
      (∀ a, (g a).filter? = none) → (x >>= fun a => pure (some (g a))) = .ok (some w) →
        w.filter? = none := by
    intro α x g hg hx
    obtain ⟨a, -, ha⟩ := bind_eq_ok_iff.mp hx
    cases ha
    exact hg a
  unfold work? at h
  unfold kind at hk
  cases hop : n.operation <;> rw [hop] at h hk
  case pooling p =>
    change (some <$> n.poolingWork p inputs output) = _ at h
    rw [map_eq_pure_bind] at h
    obtain ⟨v, hv, h⟩ := bind_eq_ok_iff.mp h
    cases h
    obtain ⟨_, -, hv⟩ := bind_eq_ok_iff.mp hv
    obtain ⟨_, -, hv⟩ := bind_eq_ok_iff.mp hv
    cases hv
    rfl
  case reorder r =>
    change (some <$> n.reorderWork r inputs output) = _ at h
    rw [map_eq_pure_bind] at h
    obtain ⟨v, hv, h⟩ := bind_eq_ok_iff.mp h
    cases h
    unfold reorderWork at hv
    split at hv
    · obtain ⟨_, -, hv⟩ := bind_eq_ok_iff.mp hv
      obtain ⟨_, -, hv⟩ := bind_eq_ok_iff.mp hv
      obtain ⟨_, -, hv⟩ := bind_eq_ok_iff.mp hv
      obtain ⟨_, -, hv⟩ := bind_eq_ok_iff.mp hv
      cases hv
      rfl
    · obtain ⟨_, -, hv⟩ := bind_eq_ok_iff.mp hv
      cases hv
      rfl
  case convolution | fusedConvBnScale | fullyConnected => cases hk
  case inputLayout | data => cases h
  all_goals exact hbind (fun _ => rfl) h

end Node

/-- **The plan for the work of a node** asks for no other weights if the node has none.  Otherwise it
reads the weights or asks for some that it reads, and all it launches is compiled for the weights. -/
theorem Node.asks_of_select {s : Selector} {n : Node} {inputs : List Layout} {output : Layout}
    {w : Work} {layer : String} {plan : Plan} {o : Options} {session session' : Session}
    (hregistry : ∀ i ∈ s.registry.implementations, i.Suits)
    (hw : n.work? inputs output = .ok (some w))
    (h : (s.select ⟨layer, w⟩ o).run.run session = (.ok plan, session')) :
    (n.kind.isWeighted = false → plan.weightsChange = none) ∧
    (n.kind.isWeighted = true → (∀ i ∈ n.operation.weightSlots, i < inputs.length) ∧
      ∃ data weights, inputs[0]? = some data ∧ inputs[1]? = some weights ∧
        plan.Asks data weights) := by
  obtain ⟨hsuits, hlaunches⟩ := Selector.suits_of_select hregistry h
  refine ⟨fun hk => hsuits.plain (Node.filter?_of_work? hk hw), fun hk => ?_⟩
  obtain ⟨hthere, data, weights, f, o, t, rest, hdata, hweights, hf, htensor, ho, hinputs,
    helement⟩ := Node.weighs_of_work? hk hw
  have hreads := hsuits.weighted f o t rest hf ho hinputs
  rw [helement] at hreads
  exact ⟨hthere, data, weights, hdata, hweights, f.weights, htensor, hsuits.named f hf, hlaunches,
    hreads⟩

end NetPlan
