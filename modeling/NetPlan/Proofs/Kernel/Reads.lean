import NetPlan.Proofs.Kernel.Selected
import NetPlan.Proofs.Pass.Binding

/-!
# Proofs/Kernel/Reads — windows in requests, and the elements they read

A convolution or a pooling is asked for by the geometry of its window: extent, stride, dilation, mode.
Where the first window starts is put as padding, which counts only what lies before the input
(`Offset.padding_eq_iff`); so the request determines the window but for a start inside the input
(`OpKind.window_of_request`).

A window reads one element per tap at each of its positions (`tapAt`).  Further positions and taps lie
further on, so all elements are in a range just if the first and the last one are (`readsWithin_iff`).

`OpKind.reads_of_poolingBlock` — where the column-blocked kernel plans a pooling, no window starts
before the input, and what is read lies in the input if the first window starts with it.  A start inside
the input is not in the request; windows then read as much behind the input as they skip before.
-/

namespace NetPlan

/-! ## What a request says of the window -/

open Kernel (Request Work ConvolutionWork PoolingWork)

/-- On each axis the windows start at the same place, or none of them before the input. -/
def Offset.Alike (a b : Offset) : Prop :=
  (a.x = b.x ∨ 0 ≤ a.x ∧ 0 ≤ b.x) ∧ (a.y = b.y ∨ 0 ≤ a.y ∧ 0 ≤ b.y)

theorem Offset.padding_eq_iff {a b : Offset} : a.padding = b.padding ↔ a.Alike b := by
  have hx : (-a.x).toNat = (-b.x).toNat ↔ (a.x = b.x ∨ 0 ≤ a.x ∧ 0 ≤ b.x) := by omega
  have hy : (-a.y).toNat = (-b.y).toNat ↔ (a.y = b.y ∨ 0 ≤ a.y ∧ 0 ≤ b.y) := by omega
  rw [padding, padding, Planar.mk.injEq, hx, hy, Alike]

theorem PoolingMode.eq_of_iff {a b : PoolingMode} (hmax : a = .max ↔ b = .max)
    (hinside : a = .averageNoPadding ↔ b = .averageNoPadding) : a = b := by
  cases a <;> cases b <;> simp_all

namespace Node

variable {n : Node} {inputs data : List Layout} {output : Layout}

/-- The work of a convolution has its geometry. -/
theorem geometry_of_convolutionWork {c : Convolution} {w : ConvolutionWork}
    (h : n.convolutionWork c data inputs output = .ok w) :
    w.stride = c.stride ∧ w.dilation = c.dilation ∧ w.padding = c.offset.padding := by
  obtain ⟨-, -, h⟩ := bind_eq_ok_iff.mp h
  obtain ⟨_, -, h⟩ := bind_eq_ok_iff.mp h
  obtain ⟨_, -, h⟩ := bind_eq_ok_iff.mp h
  obtain ⟨_, -, h⟩ := bind_eq_ok_iff.mp h
  cases h
  exact ⟨rfl, rfl, rfl⟩

/-- The work of a pooling has its geometry, and its mode as the kind of pooling and the divider. -/
theorem geometry_of_poolingWork {p : Pooling} {w : Work}
    (h : n.poolingWork p inputs output = .ok w) :
    ∃ v, w = .pooling v ∧ v.window = p.window ∧ v.stride = p.stride ∧
      v.padding = p.offset.padding ∧ (v.kind = .max ↔ p.mode = .max) ∧
      (v.divider = .dynamicWithPadding ↔ p.mode = .averageNoPadding) := by
  obtain ⟨_, -, h⟩ := bind_eq_ok_iff.mp h
  obtain ⟨_, -, h⟩ := bind_eq_ok_iff.mp h
  cases h
  exact ⟨_, rfl, rfl, rfl, rfl, by simp, by simp⟩

end Node

namespace OpKind

variable {n : Node} {inputs : List Layout} {output : Layout} {r : Request}

theorem convolutionWork_of_request? {c : Convolution} (hop : n.operation = .convolution c)
    (h : OpKind.convolution.request? n inputs output = .ok (some r)) : ∃ input v,
      inputs[0]? = some input ∧ n.convolutionWork c [input] inputs output = .ok v ∧
        r = ⟨n.id, .convolution v⟩ := by
  obtain ⟨w, hw, rfl⟩ := request?_eq_some _ _ _ _ h
  rw [Node.work?, hop] at hw
  obtain ⟨input, hinput, hw⟩ := bind_eq_ok_iff.mp hw
  obtain ⟨v, hv, hw⟩ := bind_eq_ok_iff.mp hw
  cases hw
  exact ⟨input, v, Node.inputAt_eq_ok hinput, hv, rfl⟩

theorem request?_convolution {c : Convolution} (hop : n.operation = .convolution c)
    (h : OpKind.convolution.request? n inputs output = .ok (some r)) :
    ∃ v, r = ⟨n.id, .convolution v⟩ ∧
      v.stride = c.stride ∧ v.dilation = c.dilation ∧ v.padding = c.offset.padding := by
  obtain ⟨_, v, -, hv, rfl⟩ := convolutionWork_of_request? hop h
  exact ⟨v, rfl, Node.geometry_of_convolutionWork hv⟩

theorem poolingWork_of_request? {p : Pooling} (hop : n.operation = .pooling p)
    (h : OpKind.pooling.request? n inputs output = .ok (some r)) :
    ∃ w, n.poolingWork p inputs output = .ok w ∧ r = ⟨n.id, w⟩ := by
  obtain ⟨w, hw, rfl⟩ := request?_eq_some _ _ _ _ h
  rw [Node.work?, hop] at hw
  change (some <$> n.poolingWork p inputs output) = _ at hw
  rw [map_eq_pure_bind] at hw
  obtain ⟨w, hv, hw⟩ := bind_eq_ok_iff.mp hw
  cases hw
  exact ⟨w, hv, rfl⟩

theorem request?_pooling {p : Pooling} (hop : n.operation = .pooling p)
    (h : OpKind.pooling.request? n inputs output = .ok (some r)) :
    ∃ v, r = ⟨n.id, .pooling v⟩ ∧ v.window = p.window ∧ v.stride = p.stride ∧
      v.padding = p.offset.padding ∧ (v.kind = .max ↔ p.mode = .max) ∧
      (v.divider = .dynamicWithPadding ↔ p.mode = .averageNoPadding) := by
  obtain ⟨w, hw, rfl⟩ := poolingWork_of_request? hop h
  obtain ⟨v, rfl, hgeometry⟩ := Node.geometry_of_poolingWork hw
  exact ⟨v, rfl, hgeometry⟩

/-- Of the start of its window only the padding is in the request for a convolution. -/
theorem request?_convolution_congr {c : Convolution} {o : Offset}
    (hop : n.operation = .convolution c) (ho : c.offset.padding = o.padding) :
    OpKind.convolution.request? (n.withOperation (.convolution { c with offset := o })) inputs
      output = OpKind.convolution.request? n inputs output := by
  obtain ⟨⟨id, padding, _⟩⟩ := n
  obtain rfl : _ = Operation.convolution c := hop
  simp only [request?, expect, Node.request?, Node.work?, Node.withOperation, Node.operation,
    Node.kind, Operation.kind, Node.convolutionWork, ho]
  rfl

/-- And in that for a pooling. -/
theorem request?_pooling_congr {p : Pooling} {o : Offset}
    (hop : n.operation = .pooling p) (ho : p.offset.padding = o.padding) :
    OpKind.pooling.request? (n.withOperation (.pooling { p with offset := o })) inputs output =
      OpKind.pooling.request? n inputs output := by
  obtain ⟨⟨id, padding, _⟩⟩ := n
  obtain rfl : _ = Operation.pooling p := hop
  simp only [request?, expect, Node.request?, Node.work?, Node.withOperation, Node.operation,
    Node.kind, Operation.kind, Node.poolingWork, ho]
  rfl

/-- **The request determines the window, but for a start inside the input.**  Convolutions that are
asked for alike have the same stride and dilation, poolings the same window, stride and mode; and the
first window starts alike.  Of a start that is not before the input the request says no more. -/
theorem window_of_request {n n' : Node} :
    (∀ c c', n.operation = .convolution c → n'.operation = .convolution c' →
      OpKind.convolution.request? n inputs output = .ok (some r) →
      OpKind.convolution.request? n' inputs output = .ok (some r) →
      c.stride = c'.stride ∧ c.dilation = c'.dilation ∧ c.offset.Alike c'.offset) ∧
    (∀ p p', n.operation = .pooling p → n'.operation = .pooling p' →
      OpKind.pooling.request? n inputs output = .ok (some r) →
      OpKind.pooling.request? n' inputs output = .ok (some r) →
      p.window = p'.window ∧ p.mode = p'.mode ∧ p.stride = p'.stride ∧
        p.offset.Alike p'.offset) ∧
    (∀ c o, n.operation = .convolution c → c.offset.Alike o →
      OpKind.convolution.request? (n.withOperation (.convolution { c with offset := o }))
        inputs output = OpKind.convolution.request? n inputs output) ∧
    ∀ p o, n.operation = .pooling p → p.offset.Alike o →
      OpKind.pooling.request? (n.withOperation (.pooling { p with offset := o })) inputs output =
        OpKind.pooling.request? n inputs output := by
  refine ⟨fun c c' hc hc' h h' => ?_, fun p p' hp hp' h h' => ?_,
    fun c o hc ho => request?_convolution_congr hc (Offset.padding_eq_iff.mpr ho),
    fun p o hp ho => request?_pooling_congr hp (Offset.padding_eq_iff.mpr ho)⟩
  · obtain ⟨v, rfl, hstride, hdilation, hpadding⟩ := request?_convolution hc h
    obtain ⟨v', heq, hstride', hdilation', hpadding'⟩ := request?_convolution hc' h'
    obtain rfl : v = v' := by injection heq with _ h; injection h
    exact ⟨hstride.symm.trans hstride', hdilation.symm.trans hdilation',
      Offset.padding_eq_iff.mp (hpadding.symm.trans hpadding')⟩
  · obtain ⟨v, rfl, hwindow, hstride, hpadding, hmax, hinside⟩ := request?_pooling hp h
    obtain ⟨v', heq, hwindow', hstride', hpadding', hmax', hinside'⟩ := request?_pooling hp' h'
    obtain rfl : v = v' := by injection heq with _ h; injection h
    exact ⟨hwindow.symm.trans hwindow',
      PoolingMode.eq_of_iff (hmax.symm.trans hmax') (hinside.symm.trans hinside'),
      hstride.symm.trans hstride', Offset.padding_eq_iff.mp (hpadding.symm.trans hpadding')⟩

end OpKind

/-- A maximum over windows of two by one elements, with one result. -/
def Pooling.startingAt (o : Offset) : Pooling :=
  ⟨"x", .max, ⟨2, 1⟩, ⟨1, 1⟩, o, some ⟨1, 1, 1, 1⟩⟩

/-- A convolution of the same windows. -/
def Convolution.startingAt (o : Offset) : Convolution :=
  ⟨"x", ["w"], [], ⟨1, 1⟩, ⟨1, 1⟩, o, some ⟨1, 1, 1, 1⟩, Activation.none⟩

/-- The two requests, on a row of three elements with weights for two. -/
def requestsFrom (o : Offset) : List (Except CompileError (Option Request)) :=
  let node (operation : Operation) : Node := .ofPrimitive ⟨"n", Padding.none, operation⟩
  let row := [.dense .f32 .bfyx ⟨1, 1, 3, 1⟩, .dense .f32 .oiyx ⟨1, 1, 2, 1⟩]
  let element := .dense .f32 .bfyx ⟨1, 1, 1, 1⟩
  [OpKind.convolution.request? (node (.convolution (.startingAt o))) row element,
    OpKind.pooling.request? (node (.pooling (.startingAt o))) row element]

/-- Windows that start before the input on one axis: whether they skip some of it on the other is not
in the requests, and so not settled by them. -/
theorem window_of_request_before :
    requestsFrom ⟨-1, 1⟩ = requestsFrom ⟨-1, 0⟩ ∧
    (∃ r r', requestsFrom ⟨-1, 0⟩ = [.ok (some r), .ok (some r')]) ∧
    (Convolution.startingAt ⟨-1, 1⟩).offset.Alike ⟨-1, 0⟩ ∧
    (Pooling.startingAt ⟨-1, 1⟩).offset.Alike ⟨-1, 0⟩ := by
  have hequal : requestsFrom ⟨-1, 1⟩ = requestsFrom ⟨-1, 0⟩ := rfl
  obtain ⟨r, r', h⟩ : ∃ r r', requestsFrom ⟨-1, 0⟩ = [.ok (some r), .ok (some r')] := ⟨_, _, rfl⟩
  refine ⟨hequal, ⟨r, r', h⟩, ?_, ?_⟩
  · have hr := (List.cons.inj h).1
    have hr' := (List.cons.inj (hequal.trans h)).1
    exact (OpKind.window_of_request.1 _ _ rfl rfl hr' hr).2.2
  · have hr := (List.cons.inj (List.cons.inj h).2).1
    have hr' := (List.cons.inj (List.cons.inj (hequal.trans h)).2).1
    exact (OpKind.window_of_request.2.1 _ _ rfl rfl hr' hr).2.2.2

/-- **Windows that start inside the input are asked for as if they started with it.** -/
theorem requests_from_inside :
    requestsFrom ⟨1, 0⟩ = requestsFrom ⟨0, 0⟩ ∧
    (∃ r r', requestsFrom ⟨0, 0⟩ = [.ok (some r), .ok (some r')]) ∧
    (Convolution.startingAt ⟨1, 0⟩).offset ≠ (Convolution.startingAt ⟨0, 0⟩).offset ∧
    (Pooling.startingAt ⟨1, 0⟩).offset ≠ (Pooling.startingAt ⟨0, 0⟩).offset :=
  ⟨rfl, ⟨_, _, rfl⟩, by decide, by decide⟩

/-! ## The elements of a window -/

open Kernel (Request Operands Options Plan PoolingWork)

/-! ## Taps -/

/-- The element along one axis that tap `k` of a window reads at position `o`, counted from the first
one of the input. -/
def tapAt (start : Int) (stride dilation o k : Nat) : Int := start + (o * stride + k * dilation : Nat)

/-- All that a window with some taps reads at its first `outs` positions is in a range. -/
def ReadsWithin (start : Int) (stride dilation outs taps : Nat) (low high : Int) : Prop :=
  ∀ o < outs, ∀ k < taps, low ≤ tapAt start stride dilation o k ∧
    tapAt start stride dilation o k < high

instance {start low high : Int} {stride dilation outs taps : Nat} :
    Decidable (ReadsWithin start stride dilation outs taps low high) :=
  inferInstanceAs (Decidable (∀ o < outs, ∀ k < taps, _))

section Taps

variable {start low high : Int} {stride dilation outs taps o k : Nat}

theorem start_le_tapAt : start ≤ tapAt start stride dilation o k :=
  Int.le_add_of_nonneg_right (Int.natCast_nonneg _)

theorem tapAt_le_last (ho : o < outs) (hk : k < taps) :
    tapAt start stride dilation o k ≤ tapAt start stride dilation (outs - 1) (taps - 1) := by
  have hpositions : o * stride ≤ (outs - 1) * stride := Nat.mul_le_mul_right _ (by omega)
  have htaps : k * dilation ≤ (taps - 1) * dilation := Nat.mul_le_mul_right _ (by omega)
  unfold tapAt
  omega

/-- **The first and the last element decide.** -/
theorem readsWithin_iff (houts : 0 < outs) (htaps : 0 < taps) :
    ReadsWithin start stride dilation outs taps low high ↔
      low ≤ start ∧ tapAt start stride dilation (outs - 1) (taps - 1) < high := by
  constructor
  · intro h
    have hfirst := (h 0 houts 0 htaps).1
    rw [tapAt, Nat.zero_mul, Nat.zero_mul, Nat.add_zero, Int.natCast_zero, Int.add_zero] at hfirst
    exact ⟨hfirst, (h _ (Nat.sub_lt houts Nat.one_pos) _ (Nat.sub_lt htaps Nat.one_pos)).2⟩
  · rintro ⟨hlow, hhigh⟩ o ho k hk
    exact ⟨hlow.trans start_le_tapAt, (tapAt_le_last ho hk).trans_lt hhigh⟩

theorem readsWithin_of_last (hlow : low ≤ start)
    (hhigh : tapAt start stride dilation (outs - 1) (taps - 1) < high) :
    ReadsWithin start stride dilation outs taps low high := fun _ ho _ hk =>
  ⟨hlow.trans start_le_tapAt, (tapAt_le_last ho hk).trans_lt hhigh⟩

end Taps

/-! ## Poolings -/

namespace Pooling

/-- All that the windows of a pooling read lies in the plane of its input, moved by an offset. -/
def ReadsIn (p : Pooling) (output input : Shape) (moved : Offset) : Prop :=
  ReadsWithin p.offset.x p.stride.x 1 output.x p.window.x moved.x (moved.x + input.x) ∧
    ReadsWithin p.offset.y p.stride.y 1 output.y p.window.y moved.y (moved.y + input.y)

end Pooling

namespace Kernel.Builtin

/-- Behind the last element that is read along one axis. -/
theorem tapAt_last_lt_iff {start high : Int} {stride outs taps : Nat} (htaps : 0 < taps) :
    tapAt start stride 1 (outs - 1) (taps - 1) < high ↔
      start + (poolingReach outs stride taps : Nat) ≤ high := by
  rw [tapAt, poolingReach, Nat.mul_one]
  omega

/-- Windows that reach no further than the input read as much of it, from wherever they start. -/
theorem readsWithin_of_reach {start : Int} {stride outs taps size : Nat} (htaps : 0 < taps)
    (hreach : poolingReach outs stride taps ≤ size) :
    ReadsWithin start stride 1 outs taps start (start + size) :=
  readsWithin_of_last (Int.le_refl _) ((tapAt_last_lt_iff htaps).mpr (by omega))

theorem readsWithin_input_iff {start : Int} {stride outs taps size : Nat} (hstart : 0 ≤ start)
    (houts : 0 < outs) (htaps : 0 < taps) :
    ReadsWithin start stride 1 outs taps 0 (0 + size) ↔
      start + (poolingReach outs stride taps : Nat) ≤ size := by
  rw [readsWithin_iff houts htaps, and_iff_right hstart, tapAt_last_lt_iff htaps, Int.zero_add]

theorem checkPooling_eq_ok {w : PoolingWork} {input : DataTensor} (h : checkPooling w = .ok input) :
    w.operands.inputs = [input] ∧ 0 < w.window.x ∧ 0 < w.window.y := by
  unfold checkPooling at h
  split at h
  case h_2 => cases h
  case h_1 t ht =>
    split at h
    · cases h
    case isFalse hwindow =>
      split at h
      · cases h
      split at h
      · cases h
      cases h
      simp only [Planar.hasZero, Bool.or_eq_true, beq_iff_eq, not_or] at hwindow
      exact ⟨ht, Nat.pos_of_ne_zero hwindow.1, Nat.pos_of_ne_zero hwindow.2⟩

theorem leavesInput_eq_false {w : PoolingWork} {input : DataTensor}
    (h : leavesInput w input = false) : w.padding.x = 0 ∧ w.padding.y = 0 ∧
      poolingReach w.operands.output.size.x w.stride.x w.window.x ≤ input.size.x ∧
      poolingReach w.operands.output.size.y w.stride.y w.window.y ≤ input.size.y := by
  simp only [leavesInput, Bool.or_eq_false_iff, decide_eq_false_iff_not, not_not, not_lt] at h
  obtain ⟨⟨⟨hx, hy⟩, hreachX⟩, hreachY⟩ := h
  exact ⟨hx, hy, hreachX, hreachY⟩

/-- The column-blocked kernel plans windows that reach no further than the input. -/
theorem planPoolingBlock_eq_ok {w : PoolingWork} {layer : String} {o : Options} {plans : List Plan}
    (h : planPoolingBlock ⟨layer, .pooling w⟩ o = .ok plans) :
    ∃ input, checkPooling w = .ok input ∧ leavesInput w input = false := by
  obtain ⟨input, hcheck, h⟩ := bind_eq_ok_iff.mp h
  refine ⟨input, hcheck, ?_⟩
  dsimp only at h
  split at h
  · cases h
  case isFalse hleaves => exact Bool.eq_false_iff.mpr hleaves

end Kernel.Builtin

namespace Node

variable {n : Node} {inputs : List Layout} {output : Layout}

theorem dataTensor_eq_ok {l : Layout} {t : DataTensor} (h : l.dataTensor = .ok t) :
    t.size = l.size ∧ t.padding = l.padding := by
  unfold Layout.dataTensor at h
  split at h
  · cases h
    exact ⟨rfl, rfl⟩
  · cases h

/-- The operands of a node that is asked for on one input. -/
theorem tensors_of_operands {input : Layout} {operands : Operands}
    (h : n.operands [input] output = .ok operands) : ∃ t, operands.inputs = [t] ∧
      t.size = input.size ∧ t.padding = input.padding ∧ operands.output.size = output.size := by
  obtain ⟨tensors, htensors, h⟩ := bind_eq_ok_iff.mp h
  obtain ⟨result, hresult, h⟩ := bind_eq_ok_iff.mp h
  obtain ⟨t, ts, ht, hts, rfl⟩ := List.forall₂_cons_left_iff.mp (mapM_eq_ok_iff.mp htensors)
  obtain rfl := List.forall₂_nil_left_iff.mp hts
  cases h
  obtain ⟨hsize, hpadding⟩ := dataTensor_eq_ok (blame_eq_ok ht)
  exact ⟨t, rfl, hsize, hpadding, (dataTensor_eq_ok (blame_eq_ok hresult)).1⟩

/-- A pooling is asked for on its first input and with the sizes of the buffers. -/
theorem sizes_of_poolingWork {p : Pooling} {v : PoolingWork}
    (h : n.poolingWork p inputs output = .ok (.pooling v)) :
    ∃ input rest t, inputs = input :: rest ∧ v.operands.inputs = [t] ∧ t.size = input.size ∧
      v.operands.output.size = output.size := by
  obtain ⟨input, hinput, h⟩ := bind_eq_ok_iff.mp h
  obtain ⟨operands, hoperands, h⟩ := bind_eq_ok_iff.mp h
  obtain ⟨t, hinputs, hsize, -, houtput⟩ := tensors_of_operands hoperands
  cases h
  obtain ⟨rest, rfl⟩ : ∃ rest, inputs = input :: rest := by
    have := inputAt_eq_ok hinput
    cases inputs with
    | nil => cases this
    | cons first rest => exact ⟨rest, by rw [Option.some.inj this]⟩
  exact ⟨input, rest, t, rfl, hinputs, hsize, houtput⟩

end Node

open Kernel.Builtin

/-- **What the column-blocked kernel plans is read from the input, but for a start inside it.**  Windows
that it plans do not start before the input, and end no further behind it than they start inside. -/
theorem OpKind.reads_of_poolingBlock {n : Node} {p : Pooling} {inputs : List Layout}
    {output : Layout} {r : Request} {o : Options} {plan : Plan} (hop : n.operation = .pooling p)
    (hr : OpKind.pooling.request? n inputs output = .ok (some r))
    (hplan : poolingBlock.Gives r o plan) :
    ∃ input rest, inputs = input :: rest ∧ 0 ≤ p.offset.x ∧ 0 ≤ p.offset.y ∧
      p.ReadsIn output.size input.size p.offset ∧
      (p.offset.x ≤ 0 → p.offset.y ≤ 0 → p.ReadsIn output.size input.size Offset.zero) ∧
      (0 < output.size.x → 0 < output.size.y →
        (p.ReadsIn output.size input.size Offset.zero ↔
          p.offset.x + (poolingReach output.size.x p.stride.x p.window.x : Nat) ≤ input.size.x ∧
          p.offset.y + (poolingReach output.size.y p.stride.y p.window.y : Nat) ≤ input.size.y)) := by
  obtain ⟨w, hwork, rfl⟩ := poolingWork_of_request? hop hr
  obtain ⟨v, rfl, hwindow, hstride, hpadding, -, -⟩ := Node.geometry_of_poolingWork hwork
  obtain ⟨input, rest, t, rfl, hinputs, hinput, houtput⟩ := Node.sizes_of_poolingWork hwork
  obtain ⟨plans, hplans, -⟩ := Kernel.exists_of_gives_fixed hplan
  obtain ⟨checked, hcheck, hinside⟩ := planPoolingBlock_eq_ok hplans
  obtain ⟨hchecked, hwindowX, hwindowY⟩ := checkPooling_eq_ok hcheck
  obtain rfl : checked = t := by
    rw [hinputs] at hchecked
    exact (List.cons.inj hchecked).1.symm
  obtain ⟨hx, hy, hreachX, hreachY⟩ := leavesInput_eq_false hinside
  rw [hwindow] at hwindowX hwindowY hreachX hreachY
  rw [hstride, houtput, hinput] at hreachX hreachY
  -- the request has the start only where it is before the input
  have hstartX : 0 ≤ p.offset.x := by
    rw [hpadding, Offset.padding] at hx
    dsimp only at hx
    omega
  have hstartY : 0 ≤ p.offset.y := by
    rw [hpadding, Offset.padding] at hy
    dsimp only at hy
    omega
  have hreads : p.ReadsIn output.size input.size p.offset :=
    ⟨readsWithin_of_reach hwindowX hreachX, readsWithin_of_reach hwindowY hreachY⟩
  refine ⟨input, rest, rfl, hstartX, hstartY, hreads, fun hx hy => ?_, fun houtX houtY => ?_⟩
  · have hzero : p.offset = Offset.zero :=
      congrArg₂ Offset.mk (Int.le_antisymm hx hstartX) (Int.le_antisymm hy hstartY)
    exact hzero ▸ hreads
  · exact and_congr (readsWithin_input_iff hstartX houtX hwindowX)
      (readsWithin_input_iff hstartY houtY hwindowY)

/-- A maximum of one element each, from an offset on. -/
def Pooling.ofElements (start : Offset) : Pooling :=
  ⟨"x", .max, Planar.one, Planar.one, start, none⟩

/-- A node that pools windows of one element from a start on. -/
def Node.ofElements (start : Offset) : Node :=
  .ofPrimitive ⟨"n", Padding.none, .pooling (.ofElements start)⟩

/-- Two elements in a row. -/
def elementRow : Layout := .dense .f32 .bfyx ⟨1, 1, 2, 1⟩

/-- On a row of two elements, from the first on, the kernel has a plan. -/
theorem reads_of_poolingBlock_row : ∃ r plan,
    OpKind.pooling.request? (.ofElements Offset.zero) [elementRow] elementRow = .ok (some r) ∧
      poolingBlock.Gives r Options.default plan ∧
      (Pooling.ofElements Offset.zero).ReadsIn elementRow.size elementRow.size Offset.zero := by
  obtain ⟨r, hr⟩ : ∃ r, OpKind.pooling.request? (.ofElements Offset.zero) [elementRow] elementRow
      = .ok (some r) := ⟨_, rfl⟩
  obtain ⟨plan, hplan⟩ : ∃ plan, poolingBlock.Gives r Options.default plan := by
    cases hr
    exact ⟨_, _, List.mem_singleton_self _, Or.inl rfl⟩
  obtain ⟨input, rest, heq, -, -, -, hreads, -⟩ := OpKind.reads_of_poolingBlock rfl hr hplan
  cases heq
  exact ⟨r, plan, hr, hplan, hreads (Int.le_refl _) (Int.le_refl _)⟩

/-- **From the second element on it has the same plan, and the last window reads behind the row.** -/
theorem poolingBlock_reads_behind : ∃ r plan,
    OpKind.pooling.outputLayout (.ofElements ⟨1, 0⟩) [elementRow] = .ok elementRow ∧
      OpKind.pooling.request? (.ofElements ⟨1, 0⟩) [elementRow] elementRow = .ok (some r) ∧
      poolingBlock.Gives r Options.default plan ∧
      ¬ (Pooling.ofElements ⟨1, 0⟩).ReadsIn elementRow.size elementRow.size Offset.zero := by
  refine ⟨_, _, rfl, rfl, ⟨_, List.mem_singleton_self _, Or.inl rfl⟩, fun h => ?_⟩
  have hlast : tapAt 1 1 1 1 0 < 0 + 2 := (h.1 1 (by decide) 0 (by decide)).2
  exact absurd hlast (by decide)

end NetPlan
