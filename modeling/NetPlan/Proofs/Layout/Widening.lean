import NetPlan.Proofs.Pass.Meaning

/-!
# Proofs/Layout/Widening — more padding, the same data

A layout **widens** to another that has the same data and at least its padding on every edge.  No rule
for layouts reads the padding of an input (`Node.sameBare_outputLayout`), and what it gives the output
grows with what the node asks for (`Operation.margin`).  So where all inputs widen and the node asks for
no less, the output widens (`Task.lays_widened`).
-/

namespace NetPlan

/-! ## Paddings -/

namespace Shape

/-- The greater extent, axis by axis. -/
theorem get_max (s t : Shape) (a : Axis) : (s.max t).get a = Nat.max (s.get a) (t.get a) := by
  cases a <;> rfl

/-- Sizes that agree along every axis. -/
theorem eq_of_get {s t : Shape} (h : ∀ a, s.get a = t.get a) : s = t := by
  obtain ⟨_, _, _, _⟩ := s
  obtain ⟨_, _, _, _⟩ := t
  simp only [Shape.mk.injEq]
  exact ⟨h .batch, h .feature, h .x, h .y⟩

end Shape

namespace Padding

/-- On every edge at most. -/
def Within (p q : Padding) : Prop :=
  ∀ a : Axis, p.lower.get a ≤ q.lower.get a ∧ p.upper.get a ≤ q.upper.get a

variable {p q r : Padding}

theorem Within.refl (p : Padding) : p.Within p := fun _ => ⟨Nat.le_refl _, Nat.le_refl _⟩

theorem Within.trans (h : p.Within q) (h' : q.Within r) : p.Within r := fun a =>
  ⟨(h a).1.trans (h' a).1, (h a).2.trans (h' a).2⟩

theorem within_max_left (p q : Padding) : p.Within (p.max q) := fun a => by
  rw [max, Shape.get_max, Shape.get_max]
  exact ⟨Nat.le_max_left _ _, Nat.le_max_left _ _⟩

theorem within_max_right (p q : Padding) : q.Within (p.max q) := fun a => by
  rw [max, Shape.get_max, Shape.get_max]
  exact ⟨Nat.le_max_right _ _, Nat.le_max_right _ _⟩

theorem Within.max (h : p.Within r) (h' : q.Within r) : (p.max q).Within r := fun a => by
  rw [Padding.max, Shape.get_max, Shape.get_max]
  exact ⟨Nat.max_le.mpr ⟨(h a).1, (h' a).1⟩, Nat.max_le.mpr ⟨(h a).2, (h' a).2⟩⟩

theorem Within.antisymm (h : p.Within q) (h' : q.Within p) : p = q :=
  congrArg₂ mk (Shape.eq_of_get fun a => Nat.le_antisymm (h a).1 (h' a).1)
    (Shape.eq_of_get fun a => Nat.le_antisymm (h a).2 (h' a).2)

/-- The greater of two paddings is the second just if the first is within it. -/
theorem max_eq_right_iff : p.max q = q ↔ p.Within q :=
  ⟨fun h => h ▸ within_max_left p q,
    fun h => (h.max (.refl q)).antisymm (within_max_right p q)⟩

end Padding

/-! ## Layouts -/

namespace Layout

/-- The layout without its padding. -/
def bare (l : Layout) : Layout := l.withPadding Padding.none

/-- The same data with at least the padding. -/
structure Widens (l l' : Layout) : Prop where
  bare : l'.bare = l.bare
  padding : l.padding.Within l'.padding

variable {l l' l'' : Layout}

theorem Widens.refl (l : Layout) : l.Widens l := ⟨rfl, .refl _⟩

theorem Widens.trans (h : l.Widens l') (h' : l'.Widens l'') : l.Widens l'' :=
  ⟨h'.bare.trans h.bare, h.padding.trans h'.padding⟩

theorem Widens.size (h : l.Widens l') : l'.size = l.size := congrArg (·.size) h.bare

theorem Widens.format (h : l.Widens l') : l'.format = l.format := congrArg (·.format) h.bare

theorem Widens.element (h : l.Widens l') : l'.element = l.element := congrArg (·.element) h.bare

theorem Widens.sameData (h : l.Widens l') : l.sameData l' = true :=
  decide_eq_true ⟨h.element.symm, h.format.symm, h.size.symm⟩

end Layout

theorem bare_of_forall₂ {inputs inputs' : List Layout} (h : List.Forall₂ Layout.Widens inputs inputs') :
    inputs'.map Layout.bare = inputs.map Layout.bare := by
  induction h with
  | nil => rfl
  | cons hl _ ih => rw [List.map_cons, List.map_cons, hl.bare, ih]

/-! ## The rules read no padding -/

/-- Two computations come to the same layout up to padding, or to the same error. -/
def SameBare (x y : Except CompileError Layout) : Prop := x.map Layout.bare = y.map Layout.bare

section SameBare

variable {α : Type} {inputs inputs' : List Layout}

theorem sameBare_bind (x : Except CompileError α) {f g : α → Except CompileError Layout}
    (h : ∀ a, SameBare (f a) (g a)) : SameBare (x >>= f) (x >>= g) := by
  cases x with
  | error e => rfl
  | ok a => exact h a

theorem exists_of_sameBare {x y : Except CompileError Layout} {l : Layout} (h : SameBare x y)
    (hx : x = .ok l) : ∃ l', y = .ok l' ∧ l'.bare = l.bare := by
  subst hx
  cases y with
  | error e => cases h
  | ok l' => exact ⟨l', rfl, (Except.ok.inj h).symm⟩

variable (h : inputs'.map Layout.bare = inputs.map Layout.bare)
include h

theorem sameBare_expectInputs (n : Node) (atLeast : Nat) :
    n.expectInputs inputs' atLeast = n.expectInputs inputs atLeast := by
  have hlength : inputs'.length = inputs.length := by
    simpa using congrArg List.length h
  rw [Node.expectInputs, Node.expectInputs, hlength]

/-- An input is read up to its padding. -/
theorem sameBare_inputAt {index : Nat} {f g : Layout → Except CompileError Layout}
    (hfg : ∀ (l : Layout) (padding : Padding), SameBare (g (l.withPadding padding)) (f l)) :
    SameBare (inputAt inputs' index >>= g) (inputAt inputs index >>= f) := by
  have hindex : inputs'[index]?.map Layout.bare = inputs[index]?.map Layout.bare := by
    rw [← List.getElem?_map, ← List.getElem?_map, h]
  unfold inputAt
  cases hl : inputs[index]? with
  | none =>
    rw [hl, Option.map_none, Option.map_eq_none_iff] at hindex
    rw [hindex]
    rfl
  | some l =>
    rw [hl, Option.map_some, Option.map_eq_some_iff] at hindex
    obtain ⟨l', hl', hbare⟩ := hindex
    have hmoved : l' = l.withPadding l'.padding := congrArg (·.withPadding l'.padding) hbare
    rw [hl', hmoved]
    exact hfg l l'.padding

end SameBare

namespace Node

variable {n : Node} {padding : Padding} {inputs inputs' : List Layout}
  (h : inputs'.map Layout.bare = inputs.map Layout.bare)
include h

theorem sameBare_sameAsInput :
    SameBare ((n.withPadding padding).sameAsInput inputs') (n.sameAsInput inputs) := by
  unfold sameAsInput
  rw [sameBare_expectInputs h]
  exact sameBare_bind _ fun _ => sameBare_inputAt h fun _ _ => rfl

theorem sameBare_convolutionLayout (c : Convolution) :
    SameBare ((n.withPadding padding).convolutionLayout c inputs')
      (n.convolutionLayout c inputs) := by
  unfold convolutionLayout
  rw [sameBare_expectInputs h]
  refine sameBare_bind _ fun _ =>
    sameBare_inputAt h fun input _ => sameBare_inputAt h fun weights _ => ?_
  dsimp only
  split
  · rfl
  · exact sameBare_bind (n.windowPositions ..) fun _ =>
      sameBare_bind (n.windowPositions ..) fun _ => rfl

theorem sameBare_poolingLayout (p : Pooling) :
    SameBare ((n.withPadding padding).poolingLayout p inputs') (n.poolingLayout p inputs) := by
  unfold poolingLayout
  rw [sameBare_expectInputs h]
  refine sameBare_bind _ fun _ => sameBare_inputAt h fun input _ => ?_
  dsimp only
  split
  · rfl
  · exact sameBare_bind (n.windowPositions ..) fun _ =>
      sameBare_bind (n.windowPositions ..) fun _ => rfl

theorem sameBare_fullyConnectedLayout :
    SameBare ((n.withPadding padding).fullyConnectedLayout inputs')
      (n.fullyConnectedLayout inputs) := by
  unfold fullyConnectedLayout
  rw [sameBare_expectInputs h]
  exact sameBare_bind _ fun _ => sameBare_inputAt h fun _ _ => sameBare_inputAt h fun _ _ => rfl

theorem sameBare_eltwiseLayout :
    SameBare ((n.withPadding padding).eltwiseLayout inputs') (n.eltwiseLayout inputs) := by
  unfold eltwiseLayout
  rw [sameBare_expectInputs h]
  refine sameBare_bind _ fun _ => sameBare_inputAt h fun first moved => ?_
  have hfirst : (first.withPadding moved).size = first.size := rfl
  have hother : (inputs'.find? (·.size ≠ first.size)).map Layout.bare
      = (inputs.find? (·.size ≠ first.size)).map Layout.bare := by
    have hfind := congrArg (List.find? (·.size ≠ first.size)) h
    rwa [List.find?_map, List.find?_map] at hfind
  rw [hfirst]
  cases hfound : inputs.find? (·.size ≠ first.size) with
  | none =>
    rw [hfound, Option.map_none, Option.map_eq_none_iff] at hother
    rw [hother]
    exact sameBare_sameAsInput h
  | some other =>
    rw [hfound, Option.map_some, Option.map_eq_some_iff] at hother
    obtain ⟨other', hother', hbare⟩ := hother
    have hsize : other'.size = other.size := congrArg (·.size) hbare
    rw [hother']
    dsimp only
    rw [hsize]
    rfl

theorem sameBare_concatenationLayout (axis : Axis) :
    SameBare ((n.withPadding padding).concatenationLayout axis inputs')
      (n.concatenationLayout axis inputs) := by
  unfold concatenationLayout
  rw [sameBare_expectInputs h]
  refine sameBare_bind _ fun _ => sameBare_inputAt h fun first _ => ?_
  have hany : (inputs'.any fun l => l.size.set axis 0 ≠ first.size.set axis 0)
      = inputs.any fun l => l.size.set axis 0 ≠ first.size.set axis 0 := by
    have hbare := congrArg (List.any · fun l => l.size.set axis 0 ≠ first.size.set axis 0) h
    rwa [List.any_map, List.any_map] at hbare
  have hextents : inputs'.map (·.size.get axis) = inputs.map (·.size.get axis) := by
    have hbare := congrArg (List.map (·.size.get axis)) h
    rwa [List.map_map, List.map_map] at hbare
  change SameBare (if inputs'.any (fun l => l.size.set axis 0 ≠ first.size.set axis 0) then
    n.invalid .sizesDifferOffAxis else _) _
  rw [hany, hextents]
  split
  · rfl
  · rfl

/-- **No rule reads the padding of an input**, nor that of the node but to pad its output. -/
theorem sameBare_outputLayout :
    SameBare ((n.withPadding padding).outputLayout inputs') (n.outputLayout inputs) := by
  have hop : (n.withPadding padding).operation = n.operation := rfl
  unfold outputLayout
  rw [hop]
  split
  · rfl
  · rfl
  · exact sameBare_convolutionLayout h _
  · exact sameBare_fullyConnectedLayout h
  · exact sameBare_poolingLayout h _
  · exact sameBare_sameAsInput h
  · exact sameBare_eltwiseLayout h
  · rw [sameBare_expectInputs h]
    exact sameBare_bind _ fun _ => sameBare_inputAt h fun _ _ => rfl
  · exact sameBare_sameAsInput h
  · exact sameBare_concatenationLayout h _
  · rw [sameBare_expectInputs h]
    exact sameBare_bind _ fun _ => sameBare_sameAsInput h
  · rw [sameBare_expectInputs h]
    exact sameBare_bind _ fun _ => sameBare_sameAsInput h
  · exact sameBare_convolutionLayout h _

end Node

/-! ## What rules pad -/

/-- The padding that an operation gives its output where its node asks for one. -/
def Operation.margin : Operation → Padding → Padding
  | .inputLayout l, padding => l.padding.max padding
  | .data l _, _ => l.padding
  | _, padding => padding

theorem Operation.margin_within (op : Operation) {p q : Padding} (h : p.Within q) :
    (op.margin p).Within (op.margin q) := by
  cases op with
  | inputLayout l =>
    exact (Padding.within_max_left _ _).max (h.trans (Padding.within_max_right _ _))
  | data l v => exact .refl _
  | _ => exact h

/-- An operation that a kernel carries out pads its output as it is told. -/
theorem Operation.margin_of_runsKernel {op : Operation} (h : op.kind.runsKernel = true)
    (padding : Padding) : op.margin padding = padding := by
  cases op with
  | inputLayout l => cases h
  | data l v => cases h
  | _ => rfl

namespace Node

variable {n : Node} {inputs : List Layout}

theorem yields_sameAsInput : Yields (·.padding = n.padding) (n.sameAsInput inputs) :=
  yields_bind fun _ => yields_bind fun _ => yields_pure rfl

theorem yields_convolutionLayout (c : Convolution) :
    Yields (·.padding = n.padding) (n.convolutionLayout c inputs) := by
  refine yields_bind fun _ => yields_bind fun _ => yields_bind fun _ => ?_
  dsimp only
  split
  · exact yields_pure rfl
  · exact yields_bind fun _ => yields_bind fun _ => yields_pure rfl

theorem yields_poolingLayout (p : Pooling) :
    Yields (·.padding = n.padding) (n.poolingLayout p inputs) := by
  refine yields_bind fun _ => yields_bind fun _ => ?_
  dsimp only
  split
  · exact yields_pure rfl
  · exact yields_bind fun _ => yields_bind fun _ => yields_pure rfl

/-- **The padding of an output** is what the operation makes of that of its node. -/
theorem yields_outputLayout :
    Yields (·.padding = n.operation.margin n.padding) (n.outputLayout inputs) := by
  unfold outputLayout
  split
  case h_1 l hop => exact hop ▸ yields_pure rfl
  case h_2 l v hop =>
    rw [hop, dataLayout]
    split
    · exact yields_error _
    · exact yields_pure rfl
  case h_3 c hop => exact hop ▸ yields_convolutionLayout c
  case h_4 hop =>
    exact hop ▸ yields_bind fun _ => yields_bind fun _ => yields_bind fun _ => yields_pure rfl
  case h_5 p hop => exact hop ▸ yields_poolingLayout p
  case h_6 hop => exact hop ▸ yields_sameAsInput
  case h_7 hop =>
    rw [hop]
    refine yields_bind fun _ => yields_bind fun _ => ?_
    split
    · exact yields_error _
    · exact yields_sameAsInput
  case h_8 hop => exact hop ▸ yields_bind fun _ => yields_bind fun _ => yields_pure rfl
  case h_9 hop => exact hop ▸ yields_sameAsInput
  case h_10 hop =>
    rw [hop]
    refine yields_bind fun _ => yields_bind fun _ => ?_
    split
    · exact yields_error _
    · exact yields_pure rfl
  case h_11 hop => exact hop ▸ yields_bind fun _ => yields_sameAsInput
  case h_12 hop => exact hop ▸ yields_bind fun _ => yields_sameAsInput
  case h_13 f hop => exact hop ▸ yields_convolutionLayout f.conv

end Node

namespace Task

variable {t : Task} {b : Behaviours} {inputs inputs' : List Layout} {l : Layout}

theorem padding_of_lays (h : t.Lays b inputs l) : l.padding = t.operation.margin t.padding := by
  rw [Lays, Node.rule_eq] at h
  obtain ⟨_, -, h⟩ := bind_eq_ok_iff.mp h
  exact Node.yields_outputLayout l h

/-- **Where the inputs are the same up to padding, so is the output.** -/
theorem lays_bare (padding : Padding) (hin : inputs'.map Layout.bare = inputs.map Layout.bare)
    (h : t.Lays b inputs l) :
    ∃ l', Lays { t with padding } b inputs' l' ∧ l'.bare = l.bare := by
  rw [Lays, Node.rule_eq] at h
  obtain ⟨k, hk, h⟩ := bind_eq_ok_iff.mp h
  have hbares (n : Node) : SameBare ((n.withPadding padding).outputLayout inputs')
      (n.outputLayout inputs) := Node.sameBare_outputLayout hin
  obtain ⟨l', hl', hbare⟩ := exists_of_sameBare (hbares _).symm h
  refine ⟨l', ?_, hbare⟩
  rw [Lays, Node.rule_eq]
  exact bind_eq_ok_iff.mpr ⟨k, hk, hl'⟩

/-- **More padding asked for and in the inputs is more padding in the output**, around the same data. -/
theorem lays_widened {padding : Padding} (hpadding : t.padding.Within padding)
    (hin : List.Forall₂ Layout.Widens inputs inputs') (h : t.Lays b inputs l) :
    ∃ l', Lays { t with padding } b inputs' l' ∧ l.Widens l' := by
  obtain ⟨l', hl', hbare⟩ := lays_bare padding (bare_of_forall₂ hin) h
  refine ⟨l', hl', hbare, ?_⟩
  rw [padding_of_lays h, padding_of_lays hl']
  exact t.operation.margin_within hpadding

/-- **Less padding asked for and in the inputs is less padding in the output.** -/
theorem lays_narrowed {padding : Padding} {l' : Layout} (hpadding : t.padding.Within padding)
    (hin : List.Forall₂ Layout.Widens inputs inputs') (h : Lays { t with padding } b inputs' l') :
    ∃ l, t.Lays b inputs l ∧ l.Widens l' := by
  obtain ⟨l, hl, hbare⟩ := lays_bare t.padding (bare_of_forall₂ hin).symm h
  refine ⟨l, hl, hbare.symm, ?_⟩
  rw [padding_of_lays hl, padding_of_lays h]
  exact t.operation.margin_within hpadding

end Task

end NetPlan
