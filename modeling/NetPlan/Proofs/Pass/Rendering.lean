import NetPlan.Proofs.Pass.Fusion
import NetPlan.Proofs.Pass.Meaning

/-!
# Proofs/Pass/Rendering — rewrites that keep the meaning

Absorbing an activation, merging two reorders and dropping one contract two nodes into one.  Every
other node has then the same task on dependencies that mean the same, so that only the survivor has
to be looked at (`Contracted.renders`).  It computes what the two did, without the buffer that was
between them:

* `Absorbed.renders` — the activation is applied to a result that was packed and unpacked before,
  which makes no difference in single precision;
* `Merged.renders` — the values are rounded once instead of twice, which makes none if the element
  type in the middle loses nothing, or is that of the end;
* `Dropped.renders` — the values are not packed again, so that what lies between them may differ.
-/

namespace NetPlan

/-! ## Layouts of nodes that host an activation -/

theorem resultFormat_idem (f : Format) : resultFormat (resultFormat f) = resultFormat f := by
  cases f <;> rfl

/-- The same layout but for its padding, in a format for results. -/
def Relaid (padding : Padding) (x y : Except CompileError Layout) : Prop :=
  ∀ l, x = .ok l → resultFormat l.format = l.format ∧ y = .ok (l.withPadding padding)

namespace Relaid

variable {α : Type} {padding : Padding}

theorem bind (x : Except CompileError α) {f g : α → Except CompileError Layout}
    (h : ∀ a, Relaid padding (f a) (g a)) : Relaid padding (x >>= f) (x >>= g) := by
  intro l hl
  obtain ⟨a, rfl, ha⟩ := bind_eq_ok_iff.mp hl
  exact h a l ha

theorem ok {element : Element} {format : Format} {size : Shape} (old : Padding)
    (h : resultFormat format = format) :
    Relaid padding (.ok ⟨element, format, size, old⟩) (.ok ⟨element, format, size, padding⟩) := by
  intro l hl
  cases hl
  exact ⟨h, rfl⟩

end Relaid

namespace Node

variable (n : Node) (padding : Padding) (inputs : List Layout)

theorem relaid_sameAsInput :
    Relaid padding (n.sameAsInput inputs) ((n.withPadding padding).sameAsInput inputs) :=
  .bind (n.expectInputs inputs 1) fun _ => .bind (inputAt inputs 0) fun _ =>
    .ok n.padding (resultFormat_idem _)

theorem relaid_convolution (c : Convolution) : Relaid padding (n.convolutionLayout c inputs)
    ((n.withPadding padding).convolutionLayout c inputs) := by
  refine .bind (n.expectInputs inputs _) fun _ => .bind (inputAt inputs 0) fun input =>
    .bind (inputAt inputs 1) fun weights => ?_
  dsimp only
  split
  · exact .ok n.padding (resultFormat_idem _)
  · exact .bind (n.windowPositions ..) fun x => .bind (n.windowPositions ..) fun y =>
      .ok n.padding (resultFormat_idem _)

theorem relaid_pooling (p : Pooling) : Relaid padding (n.poolingLayout p inputs)
    ((n.withPadding padding).poolingLayout p inputs) := by
  refine .bind (n.expectInputs inputs _) fun _ => .bind (inputAt inputs 0) fun input => ?_
  dsimp only
  split
  · exact .ok n.padding (resultFormat_idem _)
  · exact .bind (n.windowPositions ..) fun x => .bind (n.windowPositions ..) fun y =>
      .ok n.padding (resultFormat_idem _)

/-- **Hosts of activations are laid out alike in every padding**, in a format for results. -/
theorem relaid_rule (hk : Pass.hostsActivation n.kind = true) (b : Behaviours) :
    Relaid padding (n.rule b inputs) ((n.withPadding padding).rule b inputs) := by
  rw [rule_eq, rule_eq]
  refine .bind (b.find n.kind) fun _ => ?_
  have hop : (n.withPadding padding).operation = n.operation := rfl
  change Pass.hostsActivation n.operation.kind = true at hk
  unfold outputLayout
  rw [hop]
  cases hn : n.operation with
  | convolution c => exact n.relaid_convolution padding inputs c
  | fusedConvBnScale f => exact n.relaid_convolution padding inputs f.conv
  | pooling p => exact n.relaid_pooling padding inputs p
  | eltwise e =>
    refine .bind (n.expectInputs inputs 1) fun _ => .bind (inputAt inputs 0) fun first => ?_
    split
    · exact fun _ h => nomatch h
    · exact n.relaid_sameAsInput padding inputs
  | batchNorm c => exact .bind (n.expectInputs inputs 3) fun _ => n.relaid_sameAsInput padding inputs
  | scale c => exact .bind (n.expectInputs inputs 2) fun _ => n.relaid_sameAsInput padding inputs
  | fullyConnected c =>
    refine .bind (n.expectInputs inputs 2) fun _ => .bind (inputAt inputs 0) fun input =>
      .bind (inputAt inputs 1) fun weights => .ok n.padding ?_
    split <;> rfl
  | _ =>
    rw [hn] at hk
    cases hk

end Node

namespace Task

variable {t : Task} {b : Behaviours} {inputs : List Layout} {l : Layout}

theorem lays_padded (hk : Pass.hostsActivation t.operation.kind = true) (h : t.Lays b inputs l)
    (padding : Padding) (absorbed : Activation) : resultFormat l.format = l.format ∧
      Lays { t with padding, absorbed } b inputs (l.withPadding padding) :=
  t.node.relaid_rule padding inputs hk b l h

theorem lays_activation_iff {a : ActivationOp} (ha : t.operation = .activation a) {i : Layout} :
    t.Lays b [i] l ↔ (∃ k, b.find .activation = .ok k) ∧
      l = ⟨i.element, resultFormat i.format, i.size, t.padding⟩ := by
  obtain ⟨padding, op, absorbed⟩ := t
  cases ha
  rw [Lays, Node.rule_eq, bind_eq_ok_iff]
  change (∃ k, b.find .activation = .ok k ∧ Except.ok _ = Except.ok l) ↔ _
  simp only [Except.ok.injEq, exists_and_right]
  exact and_congr_right fun _ => eq_comm

theorem lays_reorder_iff {r : Reorder} (hr : t.operation = .reorder r) :
    t.Lays b inputs l ↔ (∃ k, b.find .reorder = .ok k) ∧
      ∃ i rest, inputs = i :: rest ∧ l = ⟨r.element, r.format, i.size, t.padding⟩ := by
  obtain ⟨padding, op, absorbed⟩ := t
  cases hr
  rw [Lays, Node.rule_eq, bind_eq_ok_iff]
  cases inputs with
  | nil =>
    change (∃ k, b.find .reorder = .ok k ∧ Except.error _ = Except.ok l) ↔ _
    simp
  | cons i rest =>
    constructor
    · rintro ⟨k, hk, h⟩
      exact ⟨⟨k, hk⟩, i, rest, rfl, (Except.ok.inj h).symm⟩
    · rintro ⟨⟨k, hk⟩, _, _, h, rfl⟩
      cases h
      exact ⟨k, hk, rfl⟩

end Task

/-! ## Contractions -/

namespace Edit

open Program

variable {p q : Program} {id input j : String} {g : Task → Task}

namespace Contracted

/-- A node that was not removed, nor its dependencies, has its task on renderings of them. -/
theorem renders_of_deps (h : Contracted p q id input g) (hl : p.Linked)
    (hin : p.usersOf input = [id] ∨ g = fun t => t) (hid : j ≠ id)
    (hj : j = input → g = fun t => t)
    (hdeps : ∀ d ∈ p.depsOf j, (d = input → g = fun t => t) →
      Renders ConstantValue.Alike p q d (onto p id input d)) :
    Renders Eq p q j (onto p id input j) := by
  have hlive : ∀ d ∈ p.depsOf j, d = input → g = fun t => t := fun d hd he =>
    hin.resolve_left fun husers => hid (hl.eq_of_usersOf husers (he ▸ hd))
  by_cases he : j = input
  · subst he
    rw [onto_input]
    refine renders_of_same h.kept.behaviours ?_ (h.reads.trans (h.map_onto hl).symm)
      fun d hd => hdeps d hd (hlive d hd)
    rw [h.task, hj rfl, Option.map_id']
  · rw [onto_of_ne hid he]
    exact renders_of_same h.kept.behaviours (h.tasks j hid he) (h.deps j hid he)
      fun d hd => hdeps d hd (hlive d hd)

/-- **Every node is rendered**, but for a dependency that was changed. -/
theorem renders_alike (h : Contracted p q id input g) (hl : p.Linked) (ho : p.Ordered)
    (hin : p.usersOf input = [id] ∨ g = fun t => t)
    (hid : (∀ d ∈ p.depsOf input, Renders ConstantValue.Alike p q d (onto p id input d)) →
      Renders ConstantValue.Alike p q id (survivor p id input)) (j : String) :
    ((j = input → g = fun t => t) → Renders ConstantValue.Alike p q j (onto p id input j)) ∧
      ∀ d ∈ p.depsOf j, (d = input → g = fun t => t) →
        Renders ConstantValue.Alike p q d (onto p id input d) := by
  induction j using ho.induction with
  | step j ih =>
    refine ⟨fun hj => ?_, fun d hd => (ih d hd).1⟩
    by_cases he : j = id
    · subst he
      rw [onto_id]
      -- what the dependency reads is rendered, whatever became of the dependency
      exact hid fun d hd => (ih input (h.only ▸ List.mem_singleton_self input)).2 d hd
        fun hself => absurd hself (hl.dep_ne hd)
    · exact (h.renders_of_deps hl hin he hj fun d hd => (ih d hd).1).alike

theorem renders (h : Contracted p q id input g) (hl : p.Linked) (ho : p.Ordered)
    (hin : p.usersOf input = [id] ∨ g = fun t => t)
    (hid : (∀ d ∈ p.depsOf input, Renders ConstantValue.Alike p q d (onto p id input d)) →
      Renders ConstantValue.Alike p q id (survivor p id input)) (hne : j ≠ id)
    (hj : j = input → g = fun t => t) : Renders Eq p q j (onto p id input j) :=
  h.renders_of_deps hl hin hne hj (h.renders_alike hl ho hin hid j).2

/-- If the survivor has the very value of the node, then every node has. -/
theorem renders_eq (h : Contracted p q id input g) (hl : p.Linked) (ho : p.Ordered)
    (husers : p.usersOf input = [id])
    (hid : (∀ d ∈ p.depsOf input, Renders ConstantValue.Alike p q d (onto p id input d)) →
      Renders Eq p q id (survivor p id input)) (hj : j ≠ input) :
    Renders Eq p q j (onto p id input j) := by
  have halike := h.renders_alike hl ho (Or.inl husers) fun hd => (hid hd).alike
  by_cases he : j = id
  · subst he
    rw [onto_id]
    exact hid fun d hd => (halike input).2 d hd fun hself => absurd hself (hl.dep_ne hd)
  · exact h.renders_of_deps hl (Or.inl husers) he (fun hself => absurd hself hj) (halike j).2

end Contracted

end Edit

/-! ## What an activation and a copy compute -/

namespace Program

variable {p : Program} {id input : String} {l : Layout} {s : HostTensor} {padding : Padding}
  {absorbed : Activation}

theorem forall₂_singleton {α β : Type} {R : α → β → Prop} {a : α} {bs : List β}
    (h : List.Forall₂ R [a] bs) : ∃ b, bs = [b] ∧ R a b := by
  obtain ⟨b, rest, hab, hrest, rfl⟩ := List.forall₂_cons_left_iff.mp h
  rw [List.forall₂_nil_left_iff.mp hrest]
  exact ⟨b, rfl, hab⟩

theorem Produces.activation {a : ActivationOp} (h : p.Produces id l s)
    (ht : p.taskOf id = some ⟨padding, .activation a, absorbed⟩) (ha : absorbed.isNone = true)
    (hdeps : p.depsOf id = [input]) :
    ∃ u, p.Shows input u ∧ u.mapM a.activation.apply = .ok s := by
  obtain ⟨task, tensors, ht', -, -, hshows, -, -, raw, hraw, -, hmap⟩ := h
  rw [ht] at ht'
  cases ht'
  rw [hdeps] at hshows
  obtain ⟨u, rfl, hu⟩ := forall₂_singleton hshows
  refine ⟨u, hu, ?_⟩
  change raw.mapM absorbed.apply = .ok s at hmap
  rw [Activation.apply_of_isNone ha, HostTensor.mapM_ok] at hmap
  cases hmap
  exact hraw

theorem Produces.copy {r : Reorder} (h : p.Produces id l s)
    (ht : p.taskOf id = some ⟨padding, .reorder r, absorbed⟩) (hr : r.subtract = [])
    (ha : absorbed.isNone = true) (hdeps : p.depsOf id = [input]) : p.Shows input s := by
  obtain ⟨task, tensors, ht', -, -, hshows, -, -, raw, hraw, -, hmap⟩ := h
  rw [ht] at ht'
  cases ht'
  rw [hdeps] at hshows
  obtain ⟨u, rfl, hu⟩ := forall₂_singleton hshows
  change raw.mapM absorbed.apply = .ok s at hmap
  rw [Activation.apply_of_isNone ha, HostTensor.mapM_ok] at hmap
  cases hmap
  change Host.reorderValues r [u] = .ok s at hraw
  rw [Host.reorderValues, hr, List.isEmpty_nil, if_pos rfl] at hraw
  cases hraw
  exact hu

end Program

/-! ## The rewrites -/

namespace Pass

open Program Edit

variable {p q : Program} {id input j : String}

theorem Absorbed.contracted (h : Absorbed p q id input) (hl : p.Linked) :
    ∃ a padding, (∃ absorbed, p.taskOf id = some ⟨padding, .activation a, absorbed⟩) ∧
      Contracted p q id input (absorbing a.activation padding) := by
  obtain ⟨q₁, q₂, a, padding, htask, hby, hwork, hkept, hmoved⟩ := h.steps
  have hun : ¬ p.isMarked id = true := Bool.eq_false_iff.mp h.unmarked
  have hex : Extracted p q₁ id input := ⟨q₁, hby, by
    rw [if_neg hun]
    exact .refl hby.kept.linked⟩
  refine ⟨a, padding, htask, ((hex.contracted hl).reworked ?_ hwork hkept).sameGraph
    hmoved.1.toSameGraph hmoved.1.marks hmoved.1.flags⟩
  rw [survivor, if_neg hun]

theorem activation_absorbing {t : Task} (h : t.activation.isNone = true) (a : Activation)
    (padding : Padding) : (absorbing a padding t).activation = a := by
  have hown : t.operation.ownActivation.isNone = true := by
    by_contra hown
    rw [Task.activation, if_neg hown] at h
    exact hown h
  exact if_pos hown

/-- **A host is laid out as the activation that it took in**, if what it reads is laid out as before: the
layout of the host in the padding of the activation is that of the activation. -/
theorem layout_absorbing {a : ActivationOp} {padding : Padding} {absorbed : Activation} {t : Task}
    {l : Layout} (h : Contracted p q id input (absorbing a.activation padding)) (hl : p.Linked)
    (htask : p.taskOf id = some ⟨padding, .activation a, absorbed⟩) (ht : p.taskOf input = some t)
    (hkind : hostsActivation t.operation.kind = true)
    (hdeps : ∀ d ∈ p.depsOf input, ∀ l, p.freshLayout d = .ok l →
      q.freshLayout (onto p id input d) = .ok l)
    (hlaid : p.freshLayout id = .ok l) : q.freshLayout (survivor p id input) = .ok l := by
  obtain ⟨task, inputs, htask', hin, hlays⟩ := freshLayout_iff.mp hlaid
  rw [htask] at htask'
  cases htask'
  rw [h.only] at hin
  obtain ⟨i, rfl, hi⟩ := forall₂_singleton hin
  obtain ⟨t', inputs, ht', hin, hlays'⟩ := freshLayout_iff.mp hi
  rw [ht] at ht'
  cases ht'
  obtain ⟨hformat, hlays'⟩ := Task.lays_padded hkind hlays' padding a.activation
  obtain ⟨-, rfl⟩ := (Task.lays_activation_iff rfl).mp hlays
  refine freshLayout_iff.mpr ⟨absorbing a.activation padding t, inputs, ?_, ?_, ?_⟩
  · rw [h.task, ht, Option.map_some]
  · rw [h.reads, ← h.map_onto hl]
    exact forall₂_map_of_mem hdeps hin
  · rw [h.kept.behaviours, hformat]
    exact hlays'

/-- **Absorbing an activation** keeps what every node means but the host, which becomes the
activation; in single precision. -/
theorem Absorbed.renders (h : Absorbed p q id input) (hl : p.Linked) (ho : p.Ordered)
    (hplain : ∀ t, p.taskOf id = some t → t.absorbed.isNone = true)
    (hf32 : ∀ l, p.freshLayout input = .ok l → l.element = .f32) (hj : j ≠ input) :
    Renders Eq p q j (onto p id input j) := by
  obtain ⟨a, padding, ⟨absorbed, htask⟩, hcon⟩ := h.contracted hl
  obtain ⟨op, hop, hhost⟩ := h.host
  obtain ⟨t, ht, hidle⟩ := h.idle
  have hnone : absorbed.isNone = true := hplain _ htask
  rw [shapeOf_eq_taskOf, ht, Option.map_some, Option.some.injEq] at hop
  have hkind : hostsActivation t.operation.kind = true := hop ▸ hhost
  have hq : q.taskOf (survivor p id input) = some (absorbing a.activation padding t) := by
    rw [hcon.task, ht, Option.map_some]
  have hid : (∀ d ∈ p.depsOf input, Renders ConstantValue.Alike p q d (onto p id input d)) →
      Renders Eq p q id (survivor p id input) := fun hdeps => by
    have hlayout : ∀ l, p.freshLayout id = .ok l →
        q.freshLayout (survivor p id input) = .ok l := fun l =>
      layout_absorbing hcon hl htask ht hkind fun d hd => (hdeps d hd).layout
    refine ⟨hlayout, fun v hv => ⟨v, hasValue_reference_iff.mpr (Or.inr ?_), rfl⟩⟩
    obtain ⟨s, hs, hpack⟩ := (hasValue_reference_iff.mp hv).resolve_left fun hdata => by
      rw [shapeOf_eq_taskOf, htask] at hdata
      cases hdata
    obtain ⟨u, hu, hmap⟩ := hs.activation htask hnone hcon.only
    obtain ⟨l, r, hr, rfl⟩ := hu.exists_produces fun l b hdata => by
      rw [shapeOf_eq_taskOf, ht, Option.map_some, Option.some.injEq] at hdata
      rw [hdata] at hkind
      cases hkind
    obtain ⟨task, tensors, ht', hev, hne, hshows, hlaid, -, raw, hraw, hrsize, hrmap⟩ := hr
    rw [ht] at ht'
    cases ht'
    rw [hf32 l hlaid, HostTensor.cast_f32] at hmap
    rw [Activation.apply_of_isNone hidle, HostTensor.mapM_ok] at hrmap
    cases hrmap
    have hsize : l.size = v.layout.size := by
      rw [← hrsize, ← (HostTensor.mapM_eq_ok_iff.mp hmap).1, hs.full.2]
    obtain ⟨_, _, -, -, -, -, hlaid', haddr', -⟩ := hs
    refine ⟨s, ⟨_, tensors, hq, hev, ?_, ?_, hlayout _ hlaid', haddr', r, ?_, ?_, ?_⟩, hpack⟩
    · rw [hcon.reads]
      exact hne
    · rw [hcon.reads, ← hcon.map_onto hl]
      exact forall₂_map_of_mem (fun d hd t => (hdeps d hd).shows) hshows
    · rw [← hsize]
      exact hraw
    · rw [hrsize, hsize]
    · rw [activation_absorbing hidle]
      exact hmap
  exact hcon.renders_eq hl ho h.users hid hj

theorem Merged.contracted {bound : Bool} (h : Merged p q bound id) (hl : p.Linked) :
    ∃ input format element padding absorbed t r,
      Contracted p q id input (merging format element padding) ∧
      p.taskOf id = some ⟨padding, .reorder ⟨"", format, element, []⟩, absorbed⟩ ∧
      p.taskOf input = some t ∧ t.operation = .reorder r ∧ p.usersOf input = [id] ∧
      p.isMarked input = false := by
  obtain ⟨input, survivor, format, element, padding, q₁, q₂, hex, -, ⟨r, hr⟩, hwork, hkept, hplan, -,
    hsurvivor, ⟨absorbed, htask⟩, husers, hsilent⟩ := h.steps
  rw [shapeOf_eq_taskOf, Option.map_eq_some_iff] at hr
  obtain ⟨t, ht, hr⟩ := hr
  exact ⟨input, format, element, padding, absorbed, t, r,
    ((hex.contracted hl).reworked hsurvivor hwork hkept).sameGraph hplan.toSameGraph hplan.marks
      hplan.flags,
    htask, ht, hr, husers, hsilent⟩

/-- **Merging reorders** keeps what every node means but the first, which becomes the second; if the
first loses nothing that the second would not lose as well. -/
theorem renders_merging {format : Format} {element : Element} {padding : Padding}
    {absorbed : Activation} {t : Task} {r : Reorder}
    (h : Contracted p q id input (merging format element padding)) (hl : p.Linked) (ho : p.Ordered)
    (htask : p.taskOf id = some ⟨padding, .reorder ⟨"", format, element, []⟩, absorbed⟩)
    (hnone : absorbed.isNone = true) (ht : p.taskOf input = some t) (hr : t.operation = .reorder r)
    (husers : p.usersOf input = [id])
    (hexact : ∀ l s, p.Produces input l s → s.cast r.element = s ∨ r.element = element)
    (hj : j ≠ input) : Renders Eq p q j (onto p id input j) := by
  obtain ⟨paddingIn, op, absorbedIn⟩ := t
  cases hr
  have hq : q.taskOf (survivor p id input)
      = some ⟨padding, .reorder { r with format, element }, absorbedIn⟩ := by
    rw [h.task, ht]
    rfl
  refine h.renders_eq hl ho husers (fun hdeps => ?_) hj
  have hlaidIn : ∀ l, p.freshLayout input = .ok l → l.element = r.element := fun l hl' => by
    obtain ⟨t', inputs, ht', -, hlays⟩ := freshLayout_iff.mp hl'
    rw [ht] at ht'
    cases ht'
    obtain ⟨-, i, rest, -, rfl⟩ := (Task.lays_reorder_iff rfl).mp hlays
    rfl
  have hlaid : ∀ l, p.freshLayout id = .ok l → l.element = element ∧
      q.freshLayout (survivor p id input) = .ok l := fun l hl' => by
    obtain ⟨task, inputs, htask', hin, hlays⟩ := freshLayout_iff.mp hl'
    rw [htask] at htask'
    cases htask'
    rw [h.only] at hin
    obtain ⟨i, rfl, hi⟩ := forall₂_singleton hin
    obtain ⟨t', inputs, ht', hread, hlays'⟩ := freshLayout_iff.mp hi
    rw [ht] at ht'
    cases ht'
    obtain ⟨hreg, i', rest, rfl, rfl⟩ := (Task.lays_reorder_iff rfl).mp hlays'
    obtain ⟨-, _, _, he, rfl⟩ := (Task.lays_reorder_iff rfl).mp hlays
    cases he
    refine ⟨rfl, freshLayout_iff.mpr ⟨_, i' :: rest, hq, ?_, ?_⟩⟩
    · rw [h.reads, ← h.map_onto hl]
      exact forall₂_map_of_mem (fun d hd l => (hdeps d hd).layout l) hread
    · rw [h.kept.behaviours]
      exact (Task.lays_reorder_iff (r := { r with format, element }) rfl).mpr ⟨hreg, i', rest, rfl, rfl⟩
  refine ⟨fun l hl' => (hlaid l hl').2,
    fun v hv => ⟨v, hasValue_reference_iff.mpr (Or.inr ?_), rfl⟩⟩
  obtain ⟨u, hu, hpack⟩ := (hasValue_reference_iff.mp hv).resolve_left fun hdata => by
    rw [shapeOf_eq_taskOf, htask] at hdata
    cases hdata
  obtain ⟨l, s, hs, rfl⟩ := (hu.copy htask rfl hnone h.only).exists_produces fun l b hdata => by
    rw [shapeOf_eq_taskOf, ht] at hdata
    cases hdata
  have hsize : l.size = v.layout.size := hs.full.2.symm.trans hu.full.2
  obtain ⟨_, _, -, -, -, -, hlaid', haddr', -⟩ := hu
  obtain ⟨helement, hlaid'⟩ := hlaid _ hlaid'
  have hpack' : pack s v.layout = .ok v.values := by
    have hin : l.element = r.element := by
      obtain ⟨_, _, -, -, -, -, hlaidIn', -⟩ := hs
      exact hlaidIn l hlaidIn'
    rw [hin] at hpack
    rcases hexact l s hs with hcast | hsame
    · rw [hcast] at hpack
      exact hpack
    · rw [hsame, ← helement] at hpack
      exact pack_of_cast hpack
  obtain ⟨task, tensors, ht', hev, hne, hshows, -, -, raw, hraw, hrsize, hrmap⟩ := hs
  rw [ht] at ht'
  cases ht'
  refine ⟨s, ⟨_, tensors, hq, rfl, ?_, ?_, hlaid', haddr', raw, hraw, ?_, hrmap⟩, hpack'⟩
  · rw [h.reads]
    exact hne
  · rw [h.reads, ← h.map_onto hl]
    exact forall₂_map_of_mem (fun d hd t => (hdeps d hd).shows) hshows
  · rw [hrsize, hsize]

/-- **Dropping a reorder** keeps what every node means; where the reorder was read, what lies between
the values may be different. -/
theorem Dropped.renders (h : Dropped p q id input) (hl : p.Linked) (ho : p.Ordered)
    (hplain : ∀ t, p.taskOf id = some t → t.absorbed.isNone = true)
    (htyped : ∀ l b, p.shapeOf input = some (.data l b) → b.element = l.element) :
    Renders ConstantValue.Alike p q j (onto p id input j) ∧
      (j ≠ id → Renders Eq p q j (onto p id input j)) := by
  have hcon := h.extracted.contracted hl
  obtain ⟨l, hid, hinput⟩ := h.layout
  obtain ⟨r, hshape, hsub⟩ := h.copy
  rw [shapeOf_eq_taskOf, Option.map_eq_some_iff] at hshape
  obtain ⟨t, htask, hr⟩ := hshape
  have hrender : (∀ d ∈ p.depsOf input, Renders ConstantValue.Alike p q d (onto p id input d)) →
      Renders ConstantValue.Alike p q id (survivor p id input) := fun hdeps => by
    have hin := hcon.renders_of_deps (j := input) hl (Or.inr rfl) (hcon.ne hl) (fun _ => rfl)
      fun d hd _ => hdeps d hd
    rw [onto_input] at hin
    refine ⟨fun l' hl' => ?_, fun v hv => ?_⟩
    · rw [hid] at hl'
      cases hl'
      exact hin.layout l hinput
    obtain ⟨u, hu, hpack⟩ := (hasValue_reference_iff.mp hv).resolve_left fun hdata => by
      rw [shapeOf_eq_taskOf, htask, Option.map_some, hr] at hdata
      cases hdata
    have hlayout := hv.layout_eq hid
    have hfull := hu.full.1
    obtain ⟨padding, op, absorbed⟩ := t
    cases hr
    obtain ⟨w, hw, -, hunpack⟩ := hu.copy htask hsub (hplain _ htask) hcon.only
    have hwlayout := hw.layout_eq hinput
    refine ⟨w, hin.hasValue hw, hwlayout.trans hlayout.symm, ?_⟩
    -- the tensor fits the element type of the layout, which that of the buffer is
    have helement : w.values.element = v.layout.element := by
      rcases hasValue_reference_iff.mp hw with hdata | ⟨s, -, hs⟩
      · rw [htyped _ _ hdata, hwlayout, hlayout]
      · rw [(pack_size hs).2.1, hwlayout, hlayout]
    rw [unpack_pack hpack hfull, hunpack, ← helement, (unpack_spec hunpack).2.2]
  refine ⟨(hcon.renders_alike hl ho (Or.inr rfl) hrender j).1 fun _ => rfl, fun hne => ?_⟩
  exact hcon.renders hl ho (Or.inr rfl) hrender hne fun _ => rfl

end Pass

end NetPlan
