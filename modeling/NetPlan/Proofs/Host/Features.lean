import Mathlib.Algebra.Group.Nat.Units
import NetPlan.Kernel.Builtin.Normalization
import NetPlan.Proofs.Host.Fault
import NetPlan.Proofs.Host.Reference

/-!
# Proofs/Host/Features — parameters with one element per feature

The kernels of scale and batch norm take parameters of any shape, as long as they have as many
elements as the data has features, and read the element of the feature.  The reference evaluator
repeats a parameter over the data axis by axis.  The two readings agree on the shapes that lie along
the features (`Shape.PerFeature`) and on no others:

* `Shape.perFeature_iff` — the repeated position has the feature for its index iff the shape does;
* `Host.evaluateDense_perFeature` — what the evaluator computes, and that it computes with the
  element of the feature where all parameters lie along the features.
-/

namespace NetPlan

/-! ## Shapes along the features -/

namespace Shape

variable {s data : Shape}

/-- Whether a shape with one element per feature is repeated along the features: in one batch, or
over one batch in rows of more than one. -/
def PerFeature (s data : Shape) : Prop :=
  data.count = 0 ∨ s.x = 1 ∧ s.y = 1 ∧ (s.batch = 1 ∨ data.batch = 1 ∧ s.feature ≠ 1)

instance : Decidable (s.PerFeature data) := inferInstanceAs (Decidable (_ ∨ _))

theorem index_repeated_of_perFeature (hcount : s.count = data.feature) (h : s.PerFeature data)
    {c : Coord} (hc : c.inside data = true) : HostTensor.index s (s.repeated c) = c.f := by
  obtain ⟨hx, hy, hrow⟩ := h.resolve_left (Coord.count_ne_zero_of_inside hc)
  rw [Coord.inside_iff] at hc
  have hb : c.b < data.batch := hc .batch
  have hf : c.f < data.feature := hc .feature
  simp only [count, hx, hy, Nat.mul_one] at hcount
  simp only [HostTensor.index, repeated, HostTensor.pick, hx, hy, if_true, Nat.mul_one,
    Nat.add_zero]
  rcases hrow with hone | ⟨hone, hrow⟩
  · -- one row of features, which may be a single one
    rw [hone, Nat.one_mul] at hcount
    rw [if_pos hone, Nat.zero_mul, Nat.zero_add]
    split <;> omega
  · -- the data stay in the first batch, and the row is not repeated
    have hb0 : c.b = 0 := by omega
    rw [if_neg hrow, hb0, ite_self, Nat.zero_mul, Nat.zero_add]

theorem perFeature_of_index (hcount : s.count = data.feature)
    (h : ∀ c, c.inside data = true → HostTensor.index s (s.repeated c) = c.f) :
    s.PerFeature data := by
  refine or_iff_not_imp_left.mpr fun hne => ?_
  have horigin := Coord.inside_iff.mp (Coord.inside_origin.mpr hne)
  rcases Nat.lt_or_ge 1 data.feature with htwo | hone
  · -- the second feature, then the second batch, of the first column
    have hsecond := h (Coord.set ⟨0, 0, 0, 0⟩ .feature 1)
      (Coord.inside_set (fun a _ => horigin a) htwo)
    simp only [Coord.set, HostTensor.index, repeated, HostTensor.pick, ite_self, Nat.zero_mul,
      Nat.zero_add, Nat.add_zero, mul_eq_one] at hsecond
    obtain ⟨⟨hpick, hy⟩, hx⟩ := hsecond
    have hrow : s.feature ≠ 1 := fun heq => by simp [heq] at hpick
    refine ⟨hx, hy, or_iff_not_imp_left.mpr fun hbatch => ⟨?_, hrow⟩⟩
    by_contra hdata
    have hpos : 0 < data.batch := horigin .batch
    have hbelow := h (Coord.set ⟨0, 0, 0, 0⟩ .batch 1)
      (Coord.inside_set (fun a _ => horigin a) (show 1 < data.batch by omega))
    simp only [Coord.set, HostTensor.index, repeated, HostTensor.pick, if_neg hbatch, hx, hy,
      ite_self, Nat.one_mul, Nat.mul_one, Nat.add_zero] at hbelow
    rw [count, hbelow, Nat.mul_zero, Nat.zero_mul, Nat.zero_mul] at hcount
    omega
  · have hpos : 0 < data.feature := horigin .feature
    have hsingle : s.count = 1 := by omega
    simp only [count, mul_eq_one] at hsingle
    exact ⟨hsingle.1.2, hsingle.2, Or.inl hsingle.1.1.1⟩

/-- **Repeating reads the element of the feature** iff the shape lies along the features. -/
theorem perFeature_iff (hcount : s.count = data.feature) : s.PerFeature data ↔
    ∀ c, c.inside data = true → HostTensor.index s (s.repeated c) = c.f :=
  ⟨fun h _ => index_repeated_of_perFeature hcount h, perFeature_of_index hcount⟩

end Shape

/-! ## Values by position -/

namespace Operation

/-- One value of a scale or a batch norm, from one of the data and one of each parameter. -/
def pointwise? (op : Operation) (x : Single) (us : List Single) : Option Single :=
  match op, us with
  | .scale _, [factor] => some (x * factor + Single.zero)
  | .scale _, [factor, bias] => some (x * factor + bias)
  | .batchNorm b, [mean, variance] => some ((x - mean) / (variance + b.epsilon).sqrt)
  | _, _ => none

/-- What a scale or a batch norm gives at a position of the data, if it reads each parameter at an
index that depends on the shape of the parameter. -/
def Gives (op : Operation) (data : HostTensor) (params : List HostTensor) (c : Coord)
    (at' : Shape → Nat) (v : Single) : Prop :=
  ∃ x us, data.get c = .ok x ∧
    List.Forall₂ (fun (t : HostTensor) u => t.values[at' t.size]? = some u) params us ∧
    op.pointwise? x us = some v

variable {data : HostTensor} {c : Coord} {at' : Shape → Nat} {v : Single}

theorem gives_factor {r : Scale} {factor : HostTensor} :
    (Operation.scale r).Gives data [factor] c at' v ↔ ∃ x, data.get c = .ok x ∧
      ∃ u, factor.values[at' factor.size]? = some u ∧ x * u + Single.zero = v := by
  simp [Gives, List.forall₂_cons_left_iff, pointwise?]

theorem gives_bias {r : Scale} {factor bias : HostTensor} :
    (Operation.scale r).Gives data [factor, bias] c at' v ↔ ∃ x, data.get c = .ok x ∧
      ∃ u w, (factor.values[at' factor.size]? = some u ∧ bias.values[at' bias.size]? = some w) ∧
        x * u + w = v := by
  simp [Gives, List.forall₂_cons_left_iff, pointwise?]

theorem gives_normalized {r : BatchNorm} {mean variance : HostTensor} :
    (Operation.batchNorm r).Gives data [mean, variance] c at' v ↔ ∃ x, data.get c = .ok x ∧
      ∃ u w, (mean.values[at' mean.size]? = some u ∧
          variance.values[at' variance.size]? = some w) ∧
        (x - u) / (w + r.epsilon).sqrt = v := by
  simp [Gives, List.forall₂_cons_left_iff, pointwise?]

variable {op : Operation} {params : List HostTensor}

/-- **Three kinds of parameters**: a factor, a factor and a bias, a mean and a variance. -/
theorem cases_parameters (hkind : op.kind = .scale ∨ op.kind = .batchNorm)
    (hparams : op.arguments.length = params.length + 1) :
    (∃ r factor, op = .scale r ∧ params = [factor]) ∨
    (∃ r factor bias, op = .scale r ∧ params = [factor, bias]) ∨
    ∃ r mean variance, op = .batchNorm r ∧ params = [mean, variance] := by
  cases op with
  | scale r =>
    rcases r with ⟨input, scale, _ | b⟩
    case none =>
      obtain ⟨factor, rfl⟩ := List.length_eq_one_iff.mp (Nat.succ.inj hparams).symm
      exact Or.inl ⟨_, factor, rfl, rfl⟩
    case some =>
      obtain ⟨factor, bias, rfl⟩ := List.length_eq_two.mp (Nat.succ.inj hparams).symm
      exact Or.inr (Or.inl ⟨_, factor, bias, rfl, rfl⟩)
  | batchNorm r =>
    obtain ⟨mean, variance, rfl⟩ := List.length_eq_two.mp (Nat.succ.inj hparams).symm
    exact Or.inr (Or.inr ⟨r, mean, variance, rfl, rfl⟩)
  | _ => exact absurd hkind (by simp [kind])

/-- There is a value where there are data and an element of each parameter. -/
theorem exists_gives (at' : Shape → Nat) (hkind : op.kind = .scale ∨ op.kind = .batchNorm)
    (hparams : op.arguments.length = params.length + 1) (hdata : ∃ x, data.get c = .ok x)
    (hread : ∀ t ∈ params, ∃ u, t.values[at' t.size]? = some u) :
    ∃ v, op.Gives data params c at' v := by
  obtain ⟨x, hx⟩ := hdata
  obtain ⟨r, factor, rfl, rfl⟩ | ⟨r, factor, bias, rfl, rfl⟩ | ⟨r, mean, variance, rfl, rfl⟩ :=
    cases_parameters hkind hparams
  · obtain ⟨u, hu⟩ := hread factor (List.mem_singleton_self _)
    exact ⟨_, gives_factor.mpr ⟨x, hx, u, hu, rfl⟩⟩
  · obtain ⟨⟨u, hu⟩, ⟨w, hw⟩, -⟩ := by simpa only [List.forall_mem_cons] using hread
    exact ⟨_, gives_bias.mpr ⟨x, hx, u, w, ⟨hu, hw⟩, rfl⟩⟩
  · obtain ⟨⟨u, hu⟩, ⟨w, hw⟩, -⟩ := by simpa only [List.forall_mem_cons] using hread
    exact ⟨_, gives_normalized.mpr ⟨x, hx, u, w, ⟨hu, hw⟩, rfl⟩⟩

/-- Only the indices at the shapes of the parameters matter. -/
theorem Gives.congr {at'' : Shape → Nat} (h : op.Gives data params c at' v)
    (hat : ∀ t ∈ params, at' t.size = at'' t.size) : op.Gives data params c at'' v := by
  obtain ⟨x, us, hx, hus, hv⟩ := h
  refine ⟨x, us, hx, ?_, hv⟩
  refine List.forall₂_iff_zip.mpr ⟨hus.length_eq, fun {t u} htu => ?_⟩
  rw [← hat t (List.of_mem_zip htu).1]
  exact (List.forall₂_iff_zip.mp hus).2 htu

end Operation

namespace Host

variable {n : Node} {data raw out : HostTensor} {params : List HostTensor} {output : Shape}
  {c : Coord}

theorem getBroadcast_eq_ok_iff {t : HostTensor} {u : Single} : t.getBroadcast c = .ok u ↔
    t.values[HostTensor.index t.size (t.size.repeated c)]? = some u :=
  HostTensor.get_eq_ok_iff

/-- **A scale or a batch norm is a table**, position by position made of repeated parameters. -/
theorem operationValues_eq_tabulate (hkind : n.kind = .scale ∨ n.kind = .batchNorm)
    (hparams : n.operation.arguments.length = params.length + 1) (data : HostTensor)
    (output : Shape) :
    ∃ f, operationValues n (data :: params) output = HostTensor.tabulate output f ∧
      ∀ c v, f c = .ok v ↔
        n.operation.Gives data params c (fun s => HostTensor.index s (s.repeated c)) v := by
  unfold operationValues
  obtain ⟨r, factor, hop, rfl⟩ | ⟨r, factor, bias, hop, rfl⟩ | ⟨r, mean, variance, hop, rfl⟩ :=
    Operation.cases_parameters hkind hparams <;> rw [hop] <;> refine ⟨_, rfl, fun c v => ?_⟩
  · simp [bind_eq_ok_iff, getBroadcast_eq_ok_iff, Operation.gives_factor, pure, Except.pure]
  · simp only [bind_eq_ok_iff, getBroadcast_eq_ok_iff, Operation.gives_bias, pure, Except.pure,
      Except.ok.injEq]
    exact ⟨fun ⟨w, hw, x, hx, u, hu, h⟩ => ⟨x, hx, u, w, ⟨hu, hw⟩, h⟩,
      fun ⟨x, hx, u, w, ⟨hu, hw⟩, h⟩ => ⟨w, hw, x, hx, u, hu, h⟩⟩
  · simp only [bind_eq_ok_iff, getBroadcast_eq_ok_iff, Operation.gives_normalized, pure,
      Except.pure, Except.ok.injEq]
    exact ⟨fun ⟨w, hw, x, hx, u, hu, h⟩ => ⟨x, hx, u, w, ⟨hu, hw⟩, h⟩,
      fun ⟨x, hx, u, w, ⟨hu, hw⟩, h⟩ => ⟨w, hw, x, hx, u, hu, h⟩⟩

/-- What is evaluated has at each position what the operation gives there, with its parameters
repeated and the activation applied. -/
theorem gives_of_evaluateDense (hkind : n.kind = .scale ∨ n.kind = .batchNorm)
    (hparams : n.operation.arguments.length = params.length + 1)
    (h : evaluateDense n (data :: params) output = .ok out) (hc : c.inside output = true) :
    ∃ v w, n.operation.Gives data params c (fun s => HostTensor.index s (s.repeated c)) v ∧
      n.activation.apply v = .ok w ∧ out.get c = .ok w := by
  obtain ⟨raw, hraw, rfl, hout⟩ := evaluateDense_eq_ok_iff_mapM.mp h
  obtain ⟨f, hop, hf⟩ := operationValues_eq_tabulate hkind hparams data raw.size
  obtain ⟨-, hfull, hvalues⟩ := HostTensor.tabulate_eq_ok_iff_get.mp (hop.symm.trans hraw)
  obtain ⟨v, hv, hgives⟩ := hvalues c hc
  obtain ⟨v', w, hv', hw, hget⟩ := hfull.get_mapM hout hc
  cases hv.symm.trans hv'
  exact ⟨v, w, (hf c v).mp hgives, hw, hget⟩

/-- An evaluation succeeds if all parameters lie along the features. -/
theorem exists_evaluateDense (hkind : n.kind = .scale ∨ n.kind = .batchNorm)
    (hparams : n.operation.arguments.length = params.length + 1) (hdata : data.Full)
    (hfull : ∀ t ∈ params, t.Full) (hcount : ∀ t ∈ params, t.size.count = data.size.feature)
    (hper : ∀ t ∈ params, t.size.PerFeature data.size)
    (hact : ∀ v, ∃ w, n.activation.apply v = .ok w) :
    ∃ out, evaluateDense n (data :: params) data.size = .ok out := by
  obtain ⟨f, hop, hf⟩ := operationValues_eq_tabulate hkind hparams data data.size
  obtain ⟨raw, hraw⟩ := HostTensor.exists_tabulate_iff.mpr fun c hc => by
    have hread : ∀ t ∈ params, ∃ u,
        t.values[HostTensor.index t.size (t.size.repeated c)]? = some u := fun t ht => by
      have hlt : c.f < t.values.size := by
        rw [hfull t ht, hcount t ht]
        exact Coord.inside_iff.mp hc .feature
      rw [Shape.index_repeated_of_perFeature (hcount t ht) (hper t ht) hc]
      exact ⟨_, Array.getElem?_eq_getElem hlt⟩
    obtain ⟨v, hv⟩ := Operation.exists_gives
      (fun s => HostTensor.index s (s.repeated c)) hkind hparams (hdata.exists_get hc) hread
    exact ⟨v, (hf c v).mpr hv⟩
  obtain ⟨values, hvalues⟩ := exists_mapM_iff.mpr fun v (_ : v ∈ raw.values.toList) => hact v
  exact ⟨_, evaluateDense_eq_ok_iff_mapM.mpr ⟨raw, hop.trans hraw,
    (HostTensor.full_of_tabulate hraw).1, bind_eq_ok_iff.mpr ⟨values, hvalues, rfl⟩⟩⟩

/-- **Scale and batch norm, feature by feature.**  With as many elements in each parameter as the
data have features, an evaluation takes of every parameter the element at its repeated position.
That is the element of the feature iff the parameter lies along the features; if all of them do, the
evaluation succeeds with these, up to the bounds of an activation. -/
theorem evaluateDense_perFeature (hkind : n.kind = .scale ∨ n.kind = .batchNorm)
    (hparams : n.operation.arguments.length = params.length + 1) (hdata : data.Full)
    (hfull : ∀ t ∈ params, t.Full) (hcount : ∀ t ∈ params, t.size.count = data.size.feature) :
    (∀ out, evaluateDense n (data :: params) data.size = .ok out →
      ∀ c, c.inside data.size = true → ∃ v w,
        n.operation.Gives data params c (fun s => HostTensor.index s (s.repeated c)) v ∧
        n.activation.apply v = .ok w ∧ out.get c = .ok w) ∧
    (∀ t ∈ params, t.size.PerFeature data.size ↔
      ∀ c, c.inside data.size = true → HostTensor.index t.size (t.size.repeated c) = c.f) ∧
    ((∀ t ∈ params, t.size.PerFeature data.size) →
      ((∀ v, ∃ w, n.activation.apply v = .ok w) →
        ∃ out, evaluateDense n (data :: params) data.size = .ok out) ∧
      ∀ out, evaluateDense n (data :: params) data.size = .ok out →
        ∀ c, c.inside data.size = true → ∃ v w,
          n.operation.Gives data params c (fun _ => c.f) v ∧
          n.activation.apply v = .ok w ∧ out.get c = .ok w) := by
  refine ⟨fun out h c hc => gives_of_evaluateDense hkind hparams h hc,
    fun t ht => Shape.perFeature_iff (hcount t ht), fun hper =>
      ⟨exists_evaluateDense hkind hparams hdata hfull hcount hper, fun out h c hc => ?_⟩⟩
  obtain ⟨v, w, hgives, hw, hget⟩ := gives_of_evaluateDense hkind hparams h hc
  exact ⟨v, w, hgives.congr fun t ht =>
    Shape.index_repeated_of_perFeature (hcount t ht) (hper t ht) hc, hw, hget⟩

/-- A factor of each of four features in two rows, behind data of one batch: 2 · 4 + 1. -/
theorem evaluateDense_perFeature_rows :
    ∃ out, evaluateDense (.ofPrimitive ⟨"n", .none, .scale ⟨"x", "s", some "b"⟩⟩)
      [⟨⟨1, 4, 1, 1⟩, #[.zero, .zero, .zero, ⟨0x40000000⟩]⟩,
        ⟨⟨2, 2, 1, 1⟩, #[.one, ⟨0x40000000⟩, ⟨0x40400000⟩, ⟨0x40800000⟩]⟩,
        ⟨⟨1, 4, 1, 1⟩, #[.zero, .zero, .zero, .one]⟩] ⟨1, 4, 1, 1⟩ = .ok out ∧
      out.get ⟨0, 3, 0, 0⟩ = .ok ⟨0x41100000⟩ := by
  let n : Node := .ofPrimitive ⟨"n", .none, .scale ⟨"x", "s", some "b"⟩⟩
  let data : HostTensor := ⟨⟨1, 4, 1, 1⟩, #[.zero, .zero, .zero, ⟨0x40000000⟩]⟩
  let params : List HostTensor :=
    [⟨⟨2, 2, 1, 1⟩, #[.one, ⟨0x40000000⟩, ⟨0x40400000⟩, ⟨0x40800000⟩]⟩,
      ⟨⟨1, 4, 1, 1⟩, #[.zero, .zero, .zero, .one]⟩]
  have hkind : n.kind = .scale ∨ n.kind = .batchNorm := Or.inl rfl
  have hdata : data.Full := by decide
  have hfull : ∀ t ∈ params, t.Full := by decide
  obtain ⟨-, -, hper⟩ := evaluateDense_perFeature hkind rfl hdata hfull (by decide)
  obtain ⟨hexists, hvalues⟩ := hper (by decide)
  obtain ⟨out, hout⟩ := hexists fun v => ⟨v, rfl⟩
  obtain ⟨v, w, hgives, hw, hget⟩ := hvalues out hout ⟨0, 3, 0, 0⟩ (by decide)
  obtain ⟨x, hx, u, b, ⟨hu, hb⟩, hv⟩ := Operation.gives_bias.mp hgives
  cases hx
  cases hu
  cases hb
  cases hw
  subst hv
  exact ⟨out, hout, hget.trans (by decide +kernel)⟩

/-- One factor for each of two features, in two batches: the kernel plans for it, and the evaluator
takes the first factor for both. -/
theorem evaluateDense_scale_batches :
    (∃ request plans,
      (Node.ofPrimitive ⟨"n", .none, .scale ⟨"x", "s", none⟩⟩).request?
        [.dense .f32 .bfyx ⟨1, 2, 1, 1⟩, .dense .f32 .bfyx ⟨2, 1, 1, 1⟩]
        (.dense .f32 .bfyx ⟨1, 2, 1, 1⟩) = .ok (some request) ∧
      Kernel.Builtin.planScale request Kernel.Options.default = .ok plans) ∧
    (HostTensor.mk ⟨1, 2, 1, 1⟩ #[.one, .one]).Full ∧
    (HostTensor.mk ⟨2, 1, 1, 1⟩ #[⟨0x41200000⟩, ⟨0x41a00000⟩]).Full ∧
    evaluateDense (.ofPrimitive ⟨"n", .none, .scale ⟨"x", "s", none⟩⟩)
      [⟨⟨1, 2, 1, 1⟩, #[.one, .one]⟩, ⟨⟨2, 1, 1, 1⟩, #[⟨0x41200000⟩, ⟨0x41a00000⟩]⟩] ⟨1, 2, 1, 1⟩
      = .ok ⟨⟨1, 2, 1, 1⟩, #[⟨0x41200000⟩, ⟨0x41200000⟩]⟩ ∧
    ¬ (Operation.scale ⟨"x", "s", none⟩).Gives ⟨⟨1, 2, 1, 1⟩, #[.one, .one]⟩
      [⟨⟨2, 1, 1, 1⟩, #[⟨0x41200000⟩, ⟨0x41a00000⟩]⟩] ⟨0, 1, 0, 0⟩ (fun _ => 1) ⟨0x41200000⟩ := by
  refine ⟨⟨_, _, rfl, rfl⟩, rfl, rfl, by decide +kernel, fun h => ?_⟩
  obtain ⟨x, hx, u, hu, hv⟩ := Operation.gives_factor.mp h
  cases hx
  cases hu
  exact absurd hv (by decide +kernel)

end Host

end NetPlan
