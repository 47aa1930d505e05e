import NetPlan.Proofs.Kernel.Reads
import NetPlan.Proofs.Pass.Spacious

/-!
# Proofs/Kernel/Reach — convolutions stay in their padded input

The pass that pads and the kernels that check for padding count the same edges, with and without
signs (`readsWithin_edges`, `covers_edges`).  So behind the pass every convolution that is laid out by
feature planes reads from its padded input only, and no kernel refuses the padding of its request
(`Pass.reads_of_padding`).
-/

namespace NetPlan

open Kernel (Request ConvolutionWork)
open Kernel.Builtin

/-! ## Edges along one axis -/

section Edges

variable {offset : Int} {outs stride taps dilation size lower upper : Nat}

/-- How far windows reach, counted with signs and without. -/
theorem edge_limit (houts : 0 < outs) (htaps : 0 < taps) :
    offset + ((outs : Int) - 1) * stride + ((taps : Int) - 1) * dilation + 1
      = offset + ((outs - 1) * stride + (taps - 1) * dilation + 1 : Nat) := by
  obtain ⟨o, rfl⟩ : ∃ o, outs = o + 1 := ⟨outs - 1, by omega⟩
  obtain ⟨k, rfl⟩ : ∃ k, taps = k + 1 := ⟨taps - 1, by omega⟩
  rw [Nat.add_sub_cancel, Nat.add_sub_cancel]
  push_cast
  ring

/-- **Sizes that are signed words** are counted as they are. -/
theorem edgePadding?_of_signed {edges : Nat × Nat}
    (h : Pass.edgePadding? offset outs stride taps dilation size = some edges)
    (hsigned : ∀ n ∈ [outs, stride, taps, dilation, size], n < 2 ^ 63) :
    edges = ((-offset).toNat,
      (offset + ((outs : Int) - 1) * stride + ((taps : Int) - 1) * dilation + 1 - size).toNat) := by
  simp only [List.forall_mem_cons] at hsigned
  obtain ⟨houts, hstride, htaps, hdilation, hsize, -⟩ := hsigned
  unfold Pass.edgePadding? at h
  rw [Machine.signed_of_lt houts, Machine.signed_of_lt hstride, Machine.signed_of_lt htaps,
    Machine.signed_of_lt hdilation, Machine.signed_of_lt hsize] at h
  simp only [bind, Option.bind_eq_some_iff, pure, Option.some.injEq, Machine.int?_eq_some] at h
  obtain ⟨_, ⟨-, rfl⟩, _, ⟨-, rfl⟩, _, ⟨-, rfl⟩, _, ⟨-, rfl⟩, _, ⟨-, rfl⟩, _, ⟨-, rfl⟩, _, ⟨-, rfl⟩,
    _, ⟨-, rfl⟩, rfl⟩ := h
  rfl

variable {edges : Nat × Nat} (houts : 0 < outs) (htaps : 0 < taps)
  (hedges : Pass.edgePadding? offset outs stride taps dilation size = some edges)
  (hsigned : ∀ n ∈ [outs, stride, taps, dilation, size], n < 2 ^ 63)
  (hlower : edges.1 ≤ lower) (hupper : edges.2 ≤ upper)
include houts htaps hedges hsigned hlower hupper

/-- **The edges that are counted with signs hold all taps.** -/
theorem readsWithin_edges :
    ReadsWithin offset stride dilation outs taps (-lower) (size + upper) := by
  rw [edgePadding?_of_signed hedges hsigned, edge_limit houts htaps] at hlower hupper
  dsimp only at hlower hupper
  refine readsWithin_of_last (by omega) ?_
  rw [tapAt]
  omega

/-- **They are all that a kernel requires**, which counts without. -/
theorem covers_edges : (Edges.mk lower upper).covers
    (requiredEdges size outs stride taps dilation (-offset).toNat) = true := by
  rw [edgePadding?_of_signed hedges hsigned, edge_limit houts htaps] at hlower hupper
  dsimp only at hlower hupper
  rw [Edges.covers, requiredEdges, Bool.and_eq_true, decide_eq_true_eq, decide_eq_true_eq]
  dsimp only
  omega

end Edges

/-! ## Convolutions -/

/-- All that the windows of a convolution read lies in its input with the padding around it. -/
def Convolution.ReadsIn (c : Convolution) (output weights : Shape) (input : Layout) : Prop :=
  ReadsWithin c.offset.x c.stride.x c.dilation.x output.x weights.x (-input.padding.lower.x)
      (input.size.x + input.padding.upper.x) ∧
    ReadsWithin c.offset.y c.stride.y c.dilation.y output.y weights.y (-input.padding.lower.y)
      (input.size.y + input.padding.upper.y)

instance (c : Convolution) (output weights : Shape) (input : Layout) :
    Decidable (c.ReadsIn output weights input) :=
  inferInstanceAs (Decidable (_ ∧ _))

/-- All that the padding of a convolution's input is counted from is a signed word. -/
def Convolution.Signed (c : Convolution) (output weights input : Shape) : Prop :=
  (∀ n ∈ [output.x, c.stride.x, weights.x, c.dilation.x, input.x], n < 2 ^ 63) ∧
    ∀ n ∈ [output.y, c.stride.y, weights.y, c.dilation.y, input.y], n < 2 ^ 63

namespace Node

variable {n : Node} {inputs : List Layout} {input output : Layout}

/-- A convolution is asked for with the sizes of its buffers and the padding of its input. -/
theorem sizes_of_convolutionWork {c : Convolution} {v : ConvolutionWork}
    (h : n.convolutionWork c [input] inputs output = .ok v) : ∃ (weights : Layout) (t : DataTensor),
      inputs[1]? = some weights ∧ v.window = ⟨weights.size.x, weights.size.y⟩ ∧
      v.operands.inputs = [t] ∧ t.size = input.size ∧ t.padding = input.padding ∧
      v.operands.output.size = output.size := by
  obtain ⟨-, -, h⟩ := bind_eq_ok_iff.mp h
  obtain ⟨weights, hweights, h⟩ := bind_eq_ok_iff.mp h
  obtain ⟨tensor, htensor, h⟩ := bind_eq_ok_iff.mp h
  obtain ⟨operands, hoperands, h⟩ := bind_eq_ok_iff.mp h
  obtain ⟨t, htensors⟩ := tensors_of_operands hoperands
  obtain ⟨-, -, htensor⟩ := Layout.weightTensor_eq_ok (blame_eq_ok htensor)
  cases h
  refine ⟨weights, t, inputAt_eq_ok hweights, ?_, htensors⟩
  rw [htensor]

end Node

/-- The edges of an input with room for a window cover what a kernel requires. -/
theorem checkPaddedInput_eq_ok {v : ConvolutionWork} {t : DataTensor}
    (hx : (edgesOf t .x).covers (requiredEdgesX v t) = true)
    (hy : (edgesOf t .y).covers (requiredEdgesY v t) = true) : checkPaddedInput v t = .ok () := by
  rw [checkPaddedInput, hx, hy]
  rfl

open Program

namespace Pass

/-- A convolution that has a layout reads an input and weights that have. -/
theorem exists_inputs_of_layout {p : Program} {id : String} {c : Convolution} {output : Layout}
    (hc : p.shapeOf id = some (.convolution c)) (hout : p.freshLayout id = .ok output) :
    ∃ input weights rest, Sees p id (input :: weights :: rest) := by
  obtain ⟨⟨padding, op, absorbed⟩, inputs, htask, hs, hlays⟩ := freshLayout_iff.mp hout
  rw [shapeOf_eq_taskOf, htask] at hc
  cases hc
  rw [Task.Lays, Node.rule_eq] at hlays
  obtain ⟨_, -, hlays⟩ := bind_eq_ok_iff.mp hlays
  obtain ⟨_, -, hlays⟩ := bind_eq_ok_iff.mp hlays
  obtain ⟨_, -, hlays⟩ := bind_eq_ok_iff.mp hlays
  obtain ⟨weights, hweights, -⟩ := bind_eq_ok_iff.mp hlays
  have hsecond := Node.inputAt_eq_ok hweights
  rcases inputs with _ | ⟨input, _ | ⟨weights, rest⟩⟩
  · cases hsecond
  · cases hsecond
  · exact ⟨input, weights, rest, hs⟩

/-- The windows along both axes have the edges that there is room for. -/
theorem edges_of_windowEdges? {c : Convolution} {input weights : Shape} {plane : Planar}
    {edges : Padding} (h : windowEdges? c input weights plane = some edges) : ∃ x y : Nat × Nat,
      edgePadding? c.offset.x plane.x c.stride.x weights.x c.dilation.x input.x = some x ∧
      edgePadding? c.offset.y plane.y c.stride.y weights.y c.dilation.y input.y = some y ∧
      edges = Padding.spatial x.1 y.1 x.2 y.2 := by
  unfold windowEdges? at h
  simp only [bind, Option.bind_eq_some_iff, pure, Option.some.injEq] at h
  obtain ⟨x, hx, y, hy, rfl⟩ := h
  exact ⟨x, y, hx, hy, rfl⟩

/-- **Behind the pass that pads, convolutions stay in their padded input.**  Where the output of one
is laid out by feature planes, all taps at all positions are elements of the input or of its padding;
and what a kernel is asked for passes the check for padding.  `Coherent` says that cached layouts are
those of the nodes, as it is in a new program and behind every edit; and padding is counted in signed
words, so that sizes have to be such (`padding_overreaches` has what happens otherwise). -/
theorem reads_of_padding {env : Environment} {c c' : Compilation} {stats : PassStats}
    (hw : c.program.WellFormed) (ho : c.program.isOrdered = true) (hc : c.program.Coherent)
    (hrun : (Pass.padding.run env).run.run c = (.ok stats, c')) {id : String} {n : Node}
    {conv : Convolution} {output : Layout} (hn : c'.program.node? id = some n)
    (hop : n.operation = .convolution conv) (hout : c'.program.freshLayout id = .ok output)
    (hformat : output.format = .bfyx ∨ output.format = .bf8Xy16) (hx : 0 < output.size.x)
    (hy : 0 < output.size.y) :
    ∃ input weights rest, Sees c'.program id (input :: weights :: rest) ∧
      (0 < weights.size.x → 0 < weights.size.y → conv.Signed output.size weights.size input.size →
        conv.ReadsIn output.size weights.size input ∧
        ∀ r, OpKind.convolution.request? n (input :: weights :: rest) output = .ok (some r) →
          ∃ v data, r = ⟨n.id, .convolution v⟩ ∧ v.operands.inputs = [data] ∧
            checkPaddedInput v data = .ok ()) := by
  have hends := padInputs_widens hw.toLinked ((isOrdered_iff hw.toLinked).mp ho) hc
  change padInputs.run.run c = _ at hrun
  rw [Ends, hrun] at hends
  have hshape : c'.program.shapeOf id = some (Operation.convolution conv).shape := by
    rw [shapeOf, hn, Option.map_some, hop]
  obtain ⟨input, weights, rest, hs⟩ := exists_inputs_of_layout hshape hout
  refine ⟨input, weights, rest, hs, fun htapsX htapsY hsigned => ?_⟩
  obtain ⟨hsignedX, hsignedY⟩ := hsigned
  obtain ⟨_, hwindow, hroom⟩ :=
    ((hends.2.output id).room _ output hshape hout hformat).room input weights rest hs
  obtain ⟨x, y, hcountX, hcountY, rfl⟩ := edges_of_windowEdges? hwindow
  obtain ⟨hlowerX, hupperX⟩ := hroom .x
  obtain ⟨hlowerY, hupperY⟩ := hroom .y
  refine ⟨⟨readsWithin_edges hx htapsX hcountX hsignedX hlowerX hupperX,
    readsWithin_edges hy htapsY hcountY hsignedY hlowerY hupperY⟩, fun r hr => ?_⟩
  obtain ⟨_, v, ⟨rfl⟩, hv, rfl⟩ := OpKind.convolutionWork_of_request? hop hr
  obtain ⟨hstride, hdilation, hpadding⟩ := Node.geometry_of_convolutionWork hv
  obtain ⟨_, data, ⟨rfl⟩, hwindow, hinputs, hsize, hedges, houtput⟩ :=
    Node.sizes_of_convolutionWork hv
  refine ⟨v, data, rfl, hinputs, checkPaddedInput_eq_ok ?_ ?_⟩
  · rw [edgesOf, requiredEdgesX, hstride, hdilation, hpadding, hwindow, hsize, hedges, houtput]
    exact covers_edges hx htapsX hcountX hsignedX hlowerX hupperX
  · rw [edgesOf, requiredEdgesY, hstride, hdilation, hpadding, hwindow, hsize, hedges, houtput]
    exact covers_edges hy htapsY hcountY hsignedY hlowerY hupperY

/-- The last convolution reads one element around a plane of two by two, from a reorder that pads it
so; what a kernel is asked for passes the check. -/
theorem reads_of_padding_fanned : ∃ stats c' n conv output input weights rest v data,
    (Pass.padding.run ⟨.builtin .default, none, false⟩).run.run
      (.exposing .fanned ["a", "b", "c"]) = (.ok stats, c') ∧
    c'.program.node? "c" = some n ∧ n.operation = .convolution conv ∧
    c'.program.freshLayout "c" = .ok output ∧ output.size = ⟨1, 1, 4, 4⟩ ∧
    Sees c'.program "c" (input :: weights :: rest) ∧ conv.ReadsIn output.size weights.size input ∧
    OpKind.convolution.request? n (input :: weights :: rest) output
      = .ok (some ⟨n.id, .convolution v⟩) ∧
    v.operands.inputs = [data] ∧ checkPaddedInput v data = .ok () := by
  have hdistinct : Topology.fanned.Distinct := by unfold Topology.Distinct; decide
  obtain ⟨hw, hc⟩ := Compilation.exposing_spec hdistinct ["a", "b", "c"]
  let input : Layout := ⟨.f32, .bfyx, ⟨1, 1, 2, 2⟩, Padding.spatial 1 1 1 1⟩
  let weights : Layout := .dense .f32 .oiyx ⟨1, 1, 1, 1⟩
  let output : Layout := .dense .f32 .bfyx ⟨1, 1, 4, 4⟩
  let conv : Convolution :=
    ⟨"reorder_input_c", ["w"], [], Planar.one, Planar.one, ⟨-1, -1⟩, none, Activation.none⟩
  obtain ⟨stats, c', hrun, hresult⟩ := exists_run_of_map
    (x := Pass.padding.run ⟨.builtin .default, none, false⟩)
    (s := .exposing .fanned ["a", "b", "c"])
    (f := fun _ c' => ((c'.program.node? "c").map (fun n => (n.operation,
        (OpKind.convolution.request? n [input, weights] output).map Option.isSome)),
      c'.program.freshLayout "c", (c'.program.depsOf "c").mapM c'.program.freshLayout))
    (b := (some (.convolution conv, .ok true), .ok output, .ok [input, weights])) (by decide +kernel)
  simp only [Prod.mk.injEq, Option.map_eq_some_iff] at hresult
  obtain ⟨⟨n, hn, hop, hrequest⟩, hout, hsees⟩ := hresult
  obtain ⟨r, hr⟩ : ∃ r, OpKind.convolution.request? n [input, weights] output = .ok (some r) := by
    match hrequest' : OpKind.convolution.request? n [input, weights] output with
    | .ok (some r) => exact ⟨r, rfl⟩
    | .ok none => rw [hrequest'] at hrequest; cases hrequest
    | .error e => rw [hrequest'] at hrequest; cases hrequest
  obtain ⟨i, w, rest, hs, hreads⟩ := reads_of_padding hw (by decide +kernel) hc hrun hn hop hout
    (Or.inl rfl) (by decide) (by decide)
  obtain ⟨rfl, rfl, rfl⟩ : i = input ∧ w = weights ∧ rest = [] := by
    simpa using hs.unique (mapM_eq_ok_iff.mp hsees)
  obtain ⟨hin, haccepts⟩ := hreads (by decide) (by decide) (by unfold Convolution.Signed; decide)
  obtain ⟨v, data, rfl, hinputs, hcheck⟩ := haccepts r hr
  exact ⟨stats, c', n, conv, output, _, _, [], v, data, hrun, hn, hop, hout, rfl, hs, hin, hr,
    hinputs, hcheck⟩

end Pass

/-! ## Convolutions that read further -/

/-- A stride that is below zero as a signed word, for two columns of output. -/
def Topology.strided : Topology :=
  ⟨[⟨"x", Padding.none, .inputLayout (.dense .f32 .bfyx ⟨1, 1, 4, 4⟩)⟩,
    ⟨"w", Padding.none, .inputLayout (.dense .f32 .oiyx ⟨1, 1, 1, 1⟩)⟩,
    ⟨"c", Padding.none, .convolution ⟨"x", ["w"], [], ⟨2 ^ 64 - 4, 1⟩, Planar.one, ⟨0, 0⟩,
      some ⟨1, 1, 2, 1⟩, Activation.none⟩⟩]⟩

/-- A window of three by three that starts one element outside. -/
def Topology.rimmed : Topology :=
  ⟨[⟨"x", Padding.none, .inputLayout (.dense .f32 .bfyx ⟨1, 1, 4, 4⟩)⟩,
    ⟨"w", Padding.none, .inputLayout (.dense .f32 .oiyx ⟨1, 1, 3, 3⟩)⟩,
    ⟨"c", Padding.none, .convolution ⟨"x", ["w"], [], Planar.one, Planar.one, ⟨-1, -1⟩, none,
      Activation.none⟩⟩]⟩

/-- Its output is four by four, and two by two in the cache. -/
def Compilation.rimmed : Compilation :=
  { exposing .rimmed ["c"] with
    program := (exposing .rimmed ["c"]).program.claiming "c" (.dense .f32 .bfyx ⟨1, 1, 2, 2⟩) }

/-- Behind the pass that pads, a convolution with planes of elements for its output and its weights
reads outside its padded input. -/
def Compilation.Overreaches (c : Compilation) (id : String) : Prop :=
  ∃ stats c' n conv output input weights,
    (Pass.padding.run ⟨.builtin .default, none, false⟩).run.run c = (.ok stats, c') ∧
    c'.program.node? id = some n ∧ n.operation = .convolution conv ∧
    c'.program.freshLayout id = .ok output ∧ output.format = .bfyx ∧
    (0 < output.size.x ∧ 0 < output.size.y) ∧ (0 < weights.size.x ∧ 0 < weights.size.y) ∧
    Pass.Sees c'.program id [input, weights] ∧ ¬ conv.ReadsIn output.size weights.size input

/-- What the pass leaves tells whether a convolution reads outside. -/
theorem Compilation.overreaches_of_run {c : Compilation} {id : String} (conv : Convolution)
    (output input weights : Layout)
    (h : ((Pass.padding.run ⟨.builtin .default, none, false⟩).run.run c).1.toOption.map (fun _ =>
        let q := ((Pass.padding.run ⟨.builtin .default, none, false⟩).run.run c).2.program
        ((q.node? id).map Node.operation, q.freshLayout id, (q.depsOf id).mapM q.freshLayout))
      = some (some (.convolution conv), .ok output, .ok [input, weights]))
    (hformat : output.format = .bfyx) (houts : 0 < output.size.x ∧ 0 < output.size.y)
    (htaps : 0 < weights.size.x ∧ 0 < weights.size.y)
    (hreads : ¬ conv.ReadsIn output.size weights.size input) : c.Overreaches id := by
  obtain ⟨stats, c', hrun, hresult⟩ := exists_run_of_map
    (x := Pass.padding.run ⟨.builtin .default, none, false⟩) (s := c)
    (f := fun _ c' => ((c'.program.node? id).map Node.operation, c'.program.freshLayout id,
      (c'.program.depsOf id).mapM c'.program.freshLayout)) h
  simp only [Prod.mk.injEq, Option.map_eq_some_iff] at hresult
  obtain ⟨⟨n, hn, hop⟩, hout, hsees⟩ := hresult
  exact ⟨stats, c', n, conv, output, input, weights, hrun, hn, hop, hout, hformat, houts, htaps,
    mapM_eq_ok_iff.mp hsees, hreads⟩

/-- **Neither condition can be left out.**  A stride from the upper half of the words is taken for a
negative one, and no padding is needed then; and for a wrong layout in the cache of a convolution less
padding is needed than for its output. -/
theorem Pass.padding_overreaches :
    ((Compilation.exposing .strided ["c"]).program.WellFormed ∧
      (Compilation.exposing .strided ["c"]).program.isOrdered = true ∧
      (Compilation.exposing .strided ["c"]).program.Coherent ∧
      (Compilation.exposing .strided ["c"]).Overreaches "c") ∧
    Compilation.rimmed.program.WellFormed ∧ Compilation.rimmed.program.isOrdered = true ∧
      Compilation.rimmed.Overreaches "c" := by
  obtain ⟨hstrided, hcoherent⟩ := Compilation.exposing_spec (t := .strided)
    (by unfold Topology.Distinct; decide) ["c"]
  obtain ⟨hrimmed, -⟩ := Compilation.exposing_spec (t := .rimmed)
    (by unfold Topology.Distinct; decide) ["c"]
  refine ⟨⟨hstrided, by decide +kernel, hcoherent, ?_⟩,
    Program.wellFormed_claiming hrimmed "c" _, by decide +kernel, ?_⟩
  · exact Compilation.overreaches_of_run
      ⟨"x", ["w"], [], ⟨2 ^ 64 - 4, 1⟩, Planar.one, ⟨0, 0⟩, some ⟨1, 1, 2, 1⟩, Activation.none⟩
      (.dense .f32 .bfyx ⟨1, 1, 2, 1⟩) (.dense .f32 .bfyx ⟨1, 1, 4, 4⟩)
      (.dense .f32 .oiyx ⟨1, 1, 1, 1⟩) (by decide +kernel) rfl (by decide) (by decide)
      (by decide +kernel)
  · exact Compilation.overreaches_of_run
      ⟨"reorder_input_c", ["w"], [], Planar.one, Planar.one, ⟨-1, -1⟩, none, Activation.none⟩
      (.dense .f32 .bfyx ⟨1, 1, 4, 4⟩) ⟨.f32, .bfyx, ⟨1, 1, 4, 4⟩, Padding.spatial 1 1 0 0⟩
      (.dense .f32 .oiyx ⟨1, 1, 3, 3⟩) (by decide +kernel) rfl (by decide) (by decide)
      (by decide +kernel)

end NetPlan
