import NetPlan.Proofs.Host.Addressing
import NetPlan.Proofs.Host.Reference
import NetPlan.Proofs.Layout.Shapes

/-!
# Proofs/Host/Fault — where the reference evaluator leaves a tensor

An evaluation gives a value or a reason, or it **faults**: it asks for an element that is not there.
The shapes that a layout rule has compared (`Operation.Shapes`) keep six of the eight operations
from it.  Scale and batch norm repeat their parameters over the output, and no rule looks at the
shapes of those:

* `faults_operation_iff` — an operation faults iff one of its parameters cannot be repeated over the
  output;
* `Evaluator.reference_faults_iff` — and so does an evaluation, since addressable layouts have a
  place for every element it reads and writes.
-/

namespace NetPlan

/-! ## Faults -/

section Faults

variable {α β : Type} {x : Except EvalError α} {f : α → Except EvalError β}

/-- A computation comes to a fault. -/
def Faults (x : Except EvalError α) : Prop := ∃ fault, x = .error (.fault fault)

/-- A computation never gives a reason. -/
def Silent (x : Except EvalError α) : Prop := ∀ reason, x ≠ .error (.failed reason)

/-- What succeeds does not break off. -/
theorem not_faults_of_ok (h : ∃ a, x = .ok a) : ¬ Faults x := by
  rintro ⟨fault, hfault⟩
  obtain ⟨a, ha⟩ := h
  cases ha.symm.trans hfault

/-- A refusal is no fault. -/
theorem not_faults_fail (reason : String) : ¬ Faults (Host.fail reason : Except EvalError α) := by
  rintro ⟨fault, hfault⟩
  cases hfault

/-- Without a reason there is a value or a fault. -/
theorem Silent.faults_iff (h : Silent x) : Faults x ↔ ¬ ∃ a, x = .ok a := by
  match x, h with
  | .ok a, _ => exact iff_of_false (not_faults_of_ok ⟨a, rfl⟩) (not_not_intro ⟨a, rfl⟩)
  | .error (.fault fault), _ => exact iff_of_true ⟨fault, rfl⟩ (nofun)
  | .error (.failed reason), h => exact absurd rfl (h reason)

theorem silent_pure (a : α) : Silent (pure a : Except EvalError α) := fun _ => nofun

/-- One silent step after another. -/
theorem Silent.bind (hx : Silent x) (hf : ∀ a, Silent (f a)) : Silent (x >>= f) := by
  match x, hx with
  | .ok a, _ => exact hf a
  | .error (.fault _), _ => exact fun _ => nofun
  | .error (.failed reason), hx => exact absurd rfl (hx reason)

/-- A list of silent steps. -/
theorem silent_mapM (hf : ∀ a, Silent (f a)) : ∀ xs : List α, Silent (xs.mapM f)
  | [] => by
      rw [List.mapM_nil]
      exact silent_pure []
  | a :: xs => by
      rw [List.mapM_cons]
      exact (hf a).bind fun b => (silent_mapM hf xs).bind fun bs => silent_pure (b :: bs)

/-- Two steps break off in the first one, or in the second one after it. -/
theorem faults_bind_iff : Faults (x >>= f) ↔ Faults x ∨ ∃ a, x = .ok a ∧ Faults (f a) := by
  cases x with
  | error e => simp [Faults, bind, Except.bind]
  | ok a => simp [Faults, bind, Except.bind]

end Faults

namespace HostTensor

variable {t : HostTensor} {s : Shape} {c : Coord} {f : Coord → Except EvalError Single}

/-- There is a table if there is a value for every coordinate inside. -/
theorem exists_tabulate_iff :
    (∃ t, tabulate s f = .ok t) ↔ ∀ c, c.inside s = true → ∃ v, f c = .ok v := by
  rw [tabulate, exists_bind_iff]
  simp only [← Coord.mem_all, ← exists_mapM_iff]
  constructor
  · rintro ⟨vs, hvs, -⟩
    exact ⟨vs, hvs⟩
  · rintro ⟨vs, hvs⟩
    exact ⟨vs, hvs, _, rfl⟩

/-- A table of silent values. -/
theorem silent_tabulate (hf : ∀ c, Silent (f c)) : Silent (tabulate s f) :=
  (silent_mapM hf _).bind fun _ => silent_pure _

/-- Reading gives no reasons. -/
theorem silent_get (t : HostTensor) (c : Coord) : Silent (t.get c) := by
  intro reason h
  rw [get] at h
  split at h <;> cases h

end HostTensor

/-! ## Repeating -/

namespace Shape

/-- A position, with the axes of extent one at their only element. -/
def repeated (s : Shape) (c : Coord) : Coord :=
  ⟨HostTensor.pick c.b s.batch, HostTensor.pick c.f s.feature, HostTensor.pick c.x s.x,
    HostTensor.pick c.y s.y⟩

/-- Whether a position repeats to the index of an element. -/
def reaches (s : Shape) (c : Coord) : Bool := decide (HostTensor.index s (s.repeated c) < s.count)

variable {s : Shape} {c : Coord}

/-- Along axes of one element the only one is read. -/
theorem get_repeated (s : Shape) (c : Coord) (a : Axis) :
    (s.repeated c).get a = HostTensor.pick (c.get a) (s.get a) := by
  cases a <;> rfl

/-- A coordinate is reached if it is along every axis, or the axis has one element. -/
theorem reaches_of_get (h : ∀ a, s.get a = 1 ∨ c.get a < s.get a) : s.reaches c = true := by
  refine decide_eq_true (HostTensor.index_lt (Coord.inside_iff.mpr fun a => ?_))
  rw [get_repeated, HostTensor.pick]
  split
  case isTrue hone =>
    rw [hone]
    exact Nat.one_pos
  case isFalse hne => exact (h a).resolve_left hne

/-- What is inside is reached. -/
theorem reaches_of_inside (h : c.inside s = true) : s.reaches c = true :=
  reaches_of_get fun a => Or.inr (Coord.inside_iff.mp h a)

/-- Whether a shape can be repeated over another. -/
def Covers (s output : Shape) : Prop := ∀ c, c.inside output = true → s.reaches c = true

/-- A size covers an output if it does along every axis. -/
theorem covers_of_get {output : Shape} (h : ∀ a, s.get a = 1 ∨ output.get a ≤ s.get a) :
    s.Covers output := fun _ hc =>
  reaches_of_get fun a => (h a).imp_right (Coord.inside_iff.mp hc a).trans_le

end Shape

namespace HostTensor

variable {t : HostTensor} {s : Shape} {c : Coord} {f : Coord → Except EvalError Single}

/-- Reading a repeated value gives no reasons. -/
theorem silent_getBroadcast (t : HostTensor) (c : Coord) : Silent (t.getBroadcast c) :=
  t.silent_get _

/-- A repeated value is found where it is reached. -/
theorem Full.exists_getBroadcast_iff (ht : t.Full) :
    (∃ v, t.getBroadcast c = .ok v) ↔ t.size.reaches c = true := by
  rw [Shape.reaches, decide_eq_true_eq, ← ht]
  exact exists_get_iff

/-- A table that needs nothing but some tensors at each of its positions. -/
theorem faults_tabulate_iff (ts : List HostTensor) (hsilent : ∀ c, Silent (f c))
    (hf : ∀ c, c.inside s = true →
      ((∃ v, f c = .ok v) ↔ ∀ t ∈ ts, t.size.reaches c = true)) :
    Faults (tabulate s f) ↔ ∃ t ∈ ts, ¬ t.size.Covers s := by
  have hiff : (∃ t, tabulate s f = .ok t) ↔ ∀ t ∈ ts, t.size.Covers s := by
    rw [exists_tabulate_iff]
    exact ⟨fun h t ht c hc => (hf c hc).mp (h c hc) t ht,
      fun h c hc => (hf c hc).mpr fun t ht => h t ht c hc⟩
  rw [(silent_tabulate hsilent).faults_iff, hiff]
  simp only [not_forall, exists_prop]

end HostTensor

/-! ## Operations -/

namespace Host

variable {inputs : List HostTensor} {output : Shape}

/-- Reorders do not break off. -/
theorem not_faults_reorder {r : Reorder} (hin : ∀ t ∈ inputs, t.Full) :
    ¬ Faults (reorderValues r inputs) := by
  unfold reorderValues
  split
  case h_1 input =>
    split
    · exact not_faults_of_ok ⟨input, rfl⟩
    split
    · exact not_faults_fail _
    case isFalse hlen =>
      rw [ne_eq, not_not] at hlen
      refine not_faults_of_ok (HostTensor.exists_tabulate_iff.mpr fun c hc => ?_)
      obtain ⟨v, hv⟩ := (hin input (List.mem_singleton_self _)).exists_get hc
      obtain ⟨w, hw⟩ := exists_readAt.mpr ⟨c.f, rfl, show c.f < r.subtract.toArray.size by
        rw [List.size_toArray, hlen]
        exact Coord.inside_iff.mp hc .feature⟩
      exact exists_bind_iff.mpr ⟨v, hv, exists_bind_iff.mpr ⟨w, hw, v - w, rfl⟩⟩
  case h_2 => exact not_faults_fail _

/-- Combinations of one size do not break off. -/
theorem not_faults_eltwise {e : Eltwise} (hin : ∀ t ∈ inputs, t.Full)
    (hshape : ∀ t ∈ inputs, t.size = output) : ¬ Faults (eltwiseValues e inputs output) := by
  unfold eltwiseValues
  split
  · exact not_faults_fail _
  refine not_faults_of_ok (HostTensor.exists_tabulate_iff.mpr fun c hc => ?_)
  have hoperand : ∀ p ∈ inputs.zipIdx, ∃ v, p.1.getBroadcast c = .ok v := fun p hp => by
    have hmem := List.fst_mem_of_mem_zipIdx hp
    exact (hin p.1 hmem).exists_getBroadcast_iff.mpr
      (Shape.reaches_of_inside (hshape p.1 hmem ▸ hc))
  obtain ⟨operands, hoperands⟩ := exists_mapM_iff.mpr fun p hp =>
    exists_bind_iff.mpr ((hoperand p hp).imp fun v hv =>
      ⟨hv, v * e.coefficients[p.2]?.getD Single.one, rfl⟩)
  refine exists_bind_iff.mpr ⟨operands, hoperands, ?_⟩
  split
  · exact ⟨_, rfl⟩
  · exact ⟨_, rfl⟩

/-- Every activation but a clamp has a value. -/
theorem exists_apply {a : Activation} (ha : a.function ≠ .clamp) (x : Single) :
    ∃ v, a.apply x = .ok v := by
  unfold Activation.apply
  split
  case h_6 hclamp => exact absurd hclamp ha
  all_goals exact ⟨_, rfl⟩

/-- So it has for all values. -/
theorem exists_mapM_apply {a : Activation} (ha : a.function ≠ .clamp) (t : HostTensor) :
    ∃ t', t.mapM a.apply = .ok t' := by
  obtain ⟨values, hvalues⟩ := exists_mapM_iff.mpr fun x (_ : x ∈ t.values.toList) =>
    exists_apply ha x
  exact exists_bind_iff.mpr ⟨values, hvalues, _, rfl⟩

/-- Activations but clamps do not break off. -/
theorem not_faults_activation {a : ActivationOp} (ha : a.activation.function ≠ .clamp)
    (hin : ∀ t ∈ inputs, t.Full) : ¬ Faults (activationValues a inputs) := by
  unfold activationValues
  split
  case h_1 input =>
    exact not_faults_of_ok (exists_mapM_apply ha input)
  case h_2 input slope =>
    split
    · exact not_faults_fail _
    case isFalse hlen =>
      rw [ne_eq, not_not] at hlen
      refine not_faults_of_ok (HostTensor.exists_tabulate_iff.mpr fun c hc => ?_)
      obtain ⟨m, hm⟩ := exists_readAt.mpr ⟨c.f, rfl, show c.f < slope.values.size by
        rw [hlen]
        exact Coord.inside_iff.mp hc .feature⟩
      obtain ⟨v, hv⟩ := (hin input List.mem_cons_self).exists_get hc
      exact exists_bind_iff.mpr ⟨m, hm, exists_bind_iff.mpr ⟨v, hv,
        exists_apply (a := { a.activation with m := m }) ha v⟩⟩
  case h_3 => exact not_faults_fail _

/-- Softmaxes do not break off. -/
theorem not_faults_softmax {axis : Axis} (hin : ∀ t ∈ inputs, t.Full) :
    ¬ Faults (softmaxValues axis inputs) := by
  unfold softmaxValues
  split
  case h_1 input =>
    have hinput := hin input (List.mem_singleton_self _)
    refine not_faults_of_ok (HostTensor.exists_tabulate_iff.mpr fun c hc => ?_)
    have hline : ∀ i ∈ List.range (input.size.get axis), ∃ v, input.get (c.set axis i) = .ok v :=
      fun i hi => hinput.exists_get
        (Coord.inside_set (fun a _ => Coord.inside_iff.mp hc a) (List.mem_range.mp hi))
    obtain ⟨line, hline⟩ := exists_mapM_iff.mpr hline
    obtain ⟨v, hv⟩ := hinput.exists_get hc
    exact exists_bind_iff.mpr ⟨line, hline, exists_bind_iff.mpr ⟨v, hv, _, rfl⟩⟩
  case h_2 => exact not_faults_fail _

/-- The positions of a window that count are inside. -/
theorem lt_of_mem_windowIndices (start : Int) (window : Nat) {extent i : Nat}
    (h : i ∈ windowIndices start window extent) : i < extent := by
  simp only [windowIndices, List.mem_filterMap, List.mem_range, Option.ite_none_left_eq_some,
    Bool.or_eq_true, decide_eq_true_eq, Option.some.injEq] at h
  obtain ⟨w, -, hin, rfl⟩ := h
  omega

/-- The elements of a window, along axes on which it lies in the tensor. -/
theorem exists_window {t : HostTensor} {b f : Nat} {xs ys : List Nat} (ht : t.Full)
    (hb : b < t.size.batch) (hf : f < t.size.feature) (hxs : ∀ x ∈ xs, x < t.size.x)
    (hys : ∀ y ∈ ys, y < t.size.y) :
    ∃ values, (ys.flatMap fun y => xs.map fun x => (x, y)).mapM
      (fun (x, y) => t.get ⟨b, f, x, y⟩) = .ok values := by
  refine exists_mapM_iff.mpr fun q hq => ?_
  obtain ⟨y, hy, hq⟩ := List.mem_flatMap.mp hq
  obtain ⟨x, hx, rfl⟩ := List.mem_map.mp hq
  refine ht.exists_get (Coord.inside_iff.mpr fun a => ?_)
  cases a
  case batch => exact hb
  case feature => exact hf
  case x => exact hxs x hx
  case y => exact hys y hy

/-- Pooling that keeps batch and features does not break off. -/
theorem not_faults_pooling {p : Pooling} (hin : ∀ t ∈ inputs, t.Full)
    (hshape : ∀ t ∈ inputs.head?, t.size.batch = output.batch ∧ t.size.feature = output.feature) :
    ¬ Faults (poolingValues p inputs output) := by
  unfold poolingValues
  split
  case h_1 input =>
    obtain ⟨hb, hf⟩ := hshape input rfl
    refine not_faults_of_ok (HostTensor.exists_tabulate_iff.mpr fun c hc => ?_)
    rw [Coord.inside_iff] at hc
    obtain ⟨values, hvalues⟩ := exists_window (hin input (List.mem_singleton_self _))
      (lt_of_lt_of_eq (hc .batch) hb.symm) (lt_of_lt_of_eq (hc .feature) hf.symm)
      (fun _ => lt_of_mem_windowIndices (p.offset.x + (c.x * p.stride.x : Nat)) p.window.x)
      (fun _ => lt_of_mem_windowIndices (p.offset.y + (c.y * p.stride.y : Nat)) p.window.y)
    refine exists_bind_iff.mpr ⟨values, hvalues, ?_⟩
    cases p.mode <;> exact ⟨_, rfl⟩
  case h_2 => exact not_faults_fail _

/-- A value inside can be overwritten. -/
theorem exists_set {t : HostTensor} {c : Coord} {v : Single} (ht : t.Full)
    (hc : c.inside t.size = true) : ∃ t', t.set c v = .ok t' :=
  ⟨_, dif_pos (ht ▸ HostTensor.index_lt hc)⟩

/-- An input that fits can be placed. -/
theorem exists_place {axis : Axis} {offset : Nat} {input out : HostTensor} (hin : input.Full)
    (hout : out.Full) (hoff : ∀ a, a ≠ axis → input.size.get a = out.size.get a)
    (hroom : offset + input.size.get axis ≤ out.size.get axis) :
    ∃ out', place axis offset input out = .ok out' := by
  obtain ⟨out', hplace, -⟩ := exists_foldlM (f := fun out c => do
      HostTensor.set out (c.set axis (c.get axis + offset)) (← input.get c))
    (fun t => t.Full ∧ t.size = out.size) (Coord.all input.size)
    (fun c hc t ⟨ht, hsize⟩ => by
      have hc := Coord.mem_all.mp hc
      obtain ⟨v, hv⟩ := hin.exists_get hc
      rw [Coord.inside_iff] at hc
      obtain ⟨t', ht'⟩ := exists_set (t := t) (v := v) ht (hsize ▸ Coord.inside_set
        (fun a ha => hoff a ha ▸ hc a) (i := c.get axis + offset) (by
          have := hc axis
          omega))
      obtain ⟨hsize', hvalues⟩ := set_spec ht'
      exact ⟨t', bind_eq_ok_iff.mpr ⟨v, hv, ht'⟩, by rw [HostTensor.Full, hvalues, ht, hsize'],
        hsize'.trans hsize⟩)
    ⟨hout, rfl⟩
  exact ⟨out', hplace⟩

/-- One more input in a concatenation that is covered up to an offset. -/
def append (axis : Axis) (part : HostTensor × Nat) (input : HostTensor) :
    Except EvalError (HostTensor × Nat) := do
  return (← place axis part.2 input part.1, part.2 + input.size.get axis)

/-- **Inputs that fit one behind the other** all find room, and cover their sum. -/
theorem exists_appended {axis : Axis} : ∀ {inputs : List HostTensor} {out : HostTensor}
    (offset : Nat), (∀ t ∈ inputs, t.Full) →
    (∀ t ∈ inputs, ∀ a, a ≠ axis → t.size.get a = out.size.get a) → out.Full →
    offset + (inputs.map (·.size.get axis)).sum ≤ out.size.get axis →
    ∃ out', inputs.foldlM (append axis) (out, offset)
      = .ok (out', offset + (inputs.map (·.size.get axis)).sum)
  | [], out, _, _, _, _, _ => ⟨out, rfl⟩
  | t :: inputs, out, offset, hin, hoff, hout, hroom => by
      rw [List.map_cons, List.sum_cons, ← Nat.add_assoc] at hroom ⊢
      obtain ⟨out₁, hplace⟩ := exists_place (hin t List.mem_cons_self) hout
        (hoff t List.mem_cons_self) (le_trans (Nat.le_add_right _ _) hroom)
      obtain ⟨hsize, hvalues⟩ := place_spec hplace
      obtain ⟨out', hrest⟩ := exists_appended _
        (fun t ht => hin t (List.mem_cons_of_mem _ ht))
        (fun t ht => hsize ▸ hoff t (List.mem_cons_of_mem _ ht))
        (show out₁.values.size = out₁.size.count by rw [hvalues, hout, hsize])
        (hsize ▸ hroom)
      have hstep : append axis (out, offset) t = .ok (out₁, offset + t.size.get axis) :=
        bind_eq_ok_iff.mpr ⟨out₁, hplace, rfl⟩
      exact ⟨out', by rw [List.foldlM_cons]; exact bind_eq_ok_iff.mpr ⟨_, hstep, hrest⟩⟩

/-- There is a zero for every coordinate. -/
theorem full_zeros (s : Shape) : (HostTensor.zeros s).Full := Array.size_replicate

/-- Concatenations that add up do not break off. -/
theorem not_faults_concatenation {axis : Axis} (hin : ∀ t ∈ inputs, t.Full)
    (hoff : ∀ t ∈ inputs, ∀ a, a ≠ axis → t.size.get a = output.get a)
    (hsum : (inputs.map (·.size.get axis)).sum = output.get axis) :
    ¬ Faults (concatenationValues axis inputs output) := by
  obtain ⟨out, hout⟩ := exists_appended 0 hin hoff (full_zeros output)
    (by rw [Nat.zero_add, hsum]; exact le_refl _)
  refine not_faults_of_ok ⟨out, bind_eq_ok_iff.mpr ⟨_, hout, ?_⟩⟩
  rw [Nat.zero_add, hsum]
  exact if_neg (not_not_intro rfl)

/-- **A table over an input and repeated tensors** faults where one of these does not reach. -/
theorem faults_repeated_iff {input t : HostTensor} (ts : List HostTensor)
    {x : Coord → Except EvalError Single} (g : Single → Single → Single → Single)
    (hinput : input.Full) (hsize : input.size = output) (ht : t.Full) (hx : ∀ c, Silent (x c))
    (hxs : ∀ c, (∃ u, x c = .ok u) ↔ ∀ t ∈ ts, t.size.reaches c = true) :
    Faults (HostTensor.tabulate output fun c => do
        let u ← x c
        let v ← input.get c
        let w ← t.getBroadcast c
        return g u v w) ↔ ∃ t' ∈ t :: ts, ¬ t'.size.Covers output := by
  refine HostTensor.faults_tabulate_iff (t :: ts) (fun c => ?_) (fun c hc => ?_)
  · exact (hx c).bind fun _ => (input.silent_get c).bind fun _ =>
      (t.silent_getBroadcast c).bind fun _ => silent_pure _
  · rw [List.forall_mem_cons, ← ht.exists_getBroadcast_iff, ← hxs c]
    refine (exists_bind_iff_and fun _ => exists_bind_iff_and fun _ => exists_bind_iff_and
      fun _ => iff_true_intro ⟨_, rfl⟩).trans ?_
    exact ⟨fun ⟨hu, _, hw, _⟩ => ⟨hw, hu⟩,
      fun ⟨hw, hu⟩ => ⟨hu, hinput.exists_get (hsize ▸ hc), hw, trivial⟩⟩

/-- **A scaling breaks off** just where a parameter does not cover the output. -/
theorem faults_scale_iff {r : Scale} (hin : ∀ t ∈ inputs, t.Full)
    (hsize : ∀ t ∈ inputs.head?, t.size = output) : Faults (scaleValues inputs output) ↔
      ∃ t ∈ (Operation.scale r).parameters inputs, ¬ t.size.Covers output := by
  match inputs with
  | [] => exact iff_of_false (not_faults_fail _) (by simp [Operation.parameters])
  | [_] => exact iff_of_false (not_faults_fail _) (by simp [Operation.parameters])
  | [input, scale] =>
    obtain ⟨hinput, hscale, -⟩ := by simpa only [List.forall_mem_cons] using hin
    exact faults_repeated_iff [] (x := fun _ => pure Single.zero)
      (fun bias v scale => v * scale + bias) hinput (hsize input rfl) hscale
      (fun _ => silent_pure _) fun c => iff_of_true ⟨_, rfl⟩ (by simp)
  | input :: scale :: bias :: _ =>
    obtain ⟨hinput, hscale, hbias, -⟩ := by simpa only [List.forall_mem_cons] using hin
    exact faults_repeated_iff [bias] (x := bias.getBroadcast)
      (fun bias v scale => v * scale + bias) hinput (hsize input rfl) hscale
      bias.silent_getBroadcast fun c => by
        rw [List.forall_mem_singleton, hbias.exists_getBroadcast_iff]

/-- **A normalization breaks off** just where a parameter does not cover the output. -/
theorem faults_batchNorm_iff {b : BatchNorm} (hin : ∀ t ∈ inputs, t.Full)
    (hsize : ∀ t ∈ inputs.head?, t.size = output) : Faults (batchNormValues b inputs output) ↔
      ∃ t ∈ (Operation.batchNorm b).parameters inputs, ¬ t.size.Covers output := by
  unfold batchNormValues Operation.parameters
  split
  case h_1 input mean variance =>
    obtain ⟨hinput, hmean, hvariance, -⟩ := by simpa only [List.forall_mem_cons] using hin
    exact faults_repeated_iff [variance] (x := variance.getBroadcast)
      (fun variance v mean => (v - mean) / (variance + b.epsilon).sqrt) hinput (hsize input rfl)
      hmean variance.silent_getBroadcast fun c => by
        rw [List.forall_mem_singleton, hvariance.exists_getBroadcast_iff]
  case h_2 hne =>
    have hlen : inputs.length ≠ 3 := fun hlen => by
      obtain ⟨a, b, c, rfl⟩ := List.length_eq_three.mp hlen
      exact hne a b c rfl
    exact iff_of_false (not_faults_fail _) (by simp [hlen])

end Host

/-- Whether a clamp is applied, by the activation operation or behind another. -/
def Node.clamps (n : Node) : Bool :=
  n.activation.function == .clamp || match n.operation with
    | .activation a => a.activation.function == .clamp
    | _ => false

namespace Host

variable {n : Node} {inputs : List HostTensor} {output : Shape}

/-- The size of the first input. -/
theorem size_of_head? {s : Shape} {rest : List Shape} (h : inputs.map (·.size) = s :: rest) :
    ∀ t ∈ inputs.head?, t.size = s := by
  match inputs, h with
  | t :: _, h =>
    rintro _ ⟨⟩
    exact (List.cons.inj h).1

/-- **An operation without a clamp faults** iff one of its parameters does not reach. -/
theorem faults_operation_iff (hclamp : n.clamps = false) (hin : ∀ t ∈ inputs, t.Full)
    (hshapes : n.operation.Shapes (inputs.map (·.size)) output) :
    Faults (operationValues n inputs output) ↔
      ∃ t ∈ n.operation.parameters inputs, ¬ t.size.Covers output := by
  unfold operationValues
  unfold Node.clamps at hclamp
  cases hop : n.operation <;> rw [hop] at hshapes hclamp
  case scale r =>
    obtain ⟨rest, hinputs⟩ := hshapes
    exact faults_scale_iff hin (size_of_head? hinputs)
  case batchNorm b =>
    obtain ⟨rest, hinputs⟩ := hshapes
    exact faults_batchNorm_iff hin (size_of_head? hinputs)
  all_goals refine iff_of_false ?_ (by simp [Operation.parameters])
  case reorder r => exact not_faults_reorder hin
  case eltwise e =>
    exact not_faults_eltwise hin fun t ht => hshapes _ (List.mem_map_of_mem ht)
  case activation a =>
    exact not_faults_activation (by simpa using (Bool.or_eq_false_iff.mp hclamp).2) hin
  case concatenation c =>
    refine not_faults_concatenation hin
      (fun t ht => hshapes.1 _ (List.mem_map_of_mem ht)) ?_
    rw [← hshapes.2, List.map_map]
    rfl
  case softmax s => exact not_faults_softmax hin
  case pooling p =>
    obtain ⟨s, rest, hinputs, hb, hf⟩ := hshapes
    exact not_faults_pooling hin fun t ht => size_of_head? hinputs t ht ▸ ⟨hb, hf⟩
  all_goals exact not_faults_fail _

end Host

/-! ## Evaluations -/

namespace Host

variable {n : Node} {inputs : List HostTensor} {output : Shape}

/-- An activation without bounds adds no fault. -/
theorem faults_evaluateDense_iff (hact : n.activation.function ≠ .clamp) :
    Faults (evaluateDense n inputs output) ↔ Faults (operationValues n inputs output) := by
  rw [evaluateDense, faults_bind_iff]
  refine or_iff_left ?_
  rintro ⟨raw, -, h⟩
  revert h
  split
  · exact not_faults_fail _
  split
  · exact not_faults_of_ok ⟨raw, rfl⟩
  · exact not_faults_of_ok (exists_mapM_apply hact raw)

/-- A full tensor is packed or refused. -/
theorem not_faults_pack {t : HostTensor} {l : Layout} (hl : l.isAddressable = true)
    (ht : t.Full) : ¬ Faults (pack t l) := by
  by_cases hsize : t.size = l.size
  · exact not_faults_of_ok (exists_pack hl hsize ht)
  · rw [pack, if_pos hsize]
    exact not_faults_fail _

end Host

namespace Evaluator

variable {n : Node} {inputs : List ConstantValue} {output : Layout}

/-- **Where the reference evaluator faults.**  On buffers of the size of their layouts, and with the
output layout that goes with them, it does so iff a scale, a bias, a mean or a variance cannot be
repeated over the output; so never if each of their extents is one or as far as the output's. -/
theorem reference_faults_iff (hclamp : n.clamps = false)
    (hsize : ∀ v ∈ inputs, v.values.size = v.layout.bufferSize)
    (hout : n.outputLayout (inputs.map (·.layout)) = .ok output)
    (hcan : reference.canEvaluate n (inputs.map (·.layout)) output = true) :
    (Faults (reference.evaluate n inputs output) ↔
      ∃ v ∈ n.operation.parameters inputs, ¬ v.layout.size.Covers output.size) ∧
    ((∀ v ∈ n.operation.parameters inputs, ∀ a, v.layout.size.get a = 1 ∨
        output.size.get a ≤ v.layout.size.get a) →
      ¬ Faults (reference.evaluate n inputs output)) := by
  obtain ⟨-, hto, hfrom⟩ := canEvaluate_reference.mp hcan
  obtain ⟨tensors, htensors⟩ := exists_mapM_iff.mpr fun v hv =>
    exists_unpack (hfrom _ (List.mem_map_of_mem hv)) (hsize v hv)
  have hunpacked := (mapM_eq_ok_iff.mp htensors).flip
  have hfull : ∀ t ∈ tensors, t.Full := fun t ht => by
    obtain ⟨v, -, hv⟩ := exists_mem_of_forall₂ hunpacked t ht
    exact (unpack_spec hv).1
  have hsizes : tensors.map (·.size) = inputs.map (·.layout.size) := by
    rw [← List.forall₂_eq_eq_eq, List.forall₂_map_left_iff, List.forall₂_map_right_iff]
    exact hunpacked.imp fun t v h => (unpack_spec h).2.1
  have hshapes : n.operation.Shapes (tensors.map (·.size)) output.size := by
    rw [hsizes]
    exact List.map_map ▸ Node.shapes_of_outputLayout hout
  have hevaluate : reference.evaluate n inputs output
      = (Host.evaluateDense n tensors output.size >>= fun t => pack t output) := by
    change (inputs.mapM (fun v => unpack v.layout v.values) >>= _) = _
    rw [htensors]
    rfl
  have hpack : ¬ ∃ t, Host.evaluateDense n tensors output.size = .ok t ∧
      Faults (pack t output) := fun ⟨t, ht, h⟩ =>
    Host.not_faults_pack hto ((Host.evaluateDense_eq_ok_iff.mp ht).full hfull) h
  have hact : n.activation.function ≠ .clamp := by
    simpa using (Bool.or_eq_false_iff.mp hclamp).1
  have hiff : Faults (reference.evaluate n inputs output) ↔
      ∃ v ∈ n.operation.parameters inputs, ¬ v.layout.size.Covers output.size := by
    rw [hevaluate, faults_bind_iff, or_iff_left hpack, Host.faults_evaluateDense_iff hact,
      Host.faults_operation_iff hclamp hfull hshapes,
      n.operation.exists_parameters_iff (p := fun s => ¬ s.Covers output.size) HostTensor.size,
      hsizes, ← n.operation.exists_parameters_iff]
  refine ⟨hiff, fun hcovers hfaults => ?_⟩
  obtain ⟨v, hv, hmiss⟩ := hiff.mp hfaults
  exact hmiss (Shape.covers_of_get (hcovers v hv))

/-- A scale for each of two features, and one bias for both. -/
theorem reference_faults_iff_shared :
    ¬ Faults (reference.evaluate (.ofPrimitive ⟨"n", .none, .scale ⟨"x", "s", some "b"⟩⟩)
      [⟨.dense .f32 .bfyx ⟨1, 2, 1, 1⟩, .f32 #[Single.one, Single.zero]⟩,
        ⟨.dense .f16 .bfyx ⟨1, 2, 1, 1⟩, .f16 #[⟨0x3c00⟩, ⟨0x4000⟩]⟩,
        ⟨.dense .f32 .bfyx ⟨1, 1, 1, 1⟩, .f32 #[Single.one]⟩]
      (.dense .f32 .bfyx ⟨1, 2, 1, 1⟩)) :=
  (reference_faults_iff (by decide) (by decide) rfl (by decide)).2
    (List.forall_mem_cons.mpr ⟨fun a => by cases a <;> decide,
      List.forall_mem_singleton.mpr fun a => by cases a <;> decide⟩)

/-- Two means for three features. -/
theorem reference_faults_means :
    ∃ (n : Node) (inputs : List ConstantValue) (output : Layout), n.clamps = false ∧
      (∀ v ∈ inputs, v.values.size = v.layout.bufferSize ∧ v.values.element = v.layout.element) ∧
      n.outputLayout (inputs.map (·.layout)) = .ok output ∧
      reference.canEvaluate n (inputs.map (·.layout)) output = true ∧
      reference.evaluate n inputs output = .error (.fault .outsideTensor) :=
  ⟨.ofPrimitive ⟨"n", .none, .batchNorm ⟨"x", "m", "v", ⟨0x3f000000⟩⟩⟩,
    [⟨.dense .f32 .bfyx ⟨1, 3, 1, 1⟩, .f32 #[Single.one, Single.one, Single.one]⟩,
      ⟨.dense .f32 .bfyx ⟨1, 2, 1, 1⟩, .f32 #[Single.one, Single.one]⟩,
      ⟨.dense .f32 .bfyx ⟨1, 3, 1, 1⟩, .f32 #[Single.one, Single.one, Single.one]⟩],
    .dense .f32 .bfyx ⟨1, 3, 1, 1⟩, by decide, by decide, rfl, by decide, rfl⟩

end Evaluator

end NetPlan
