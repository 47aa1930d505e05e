import NetPlan.Proofs.Pass.Widened

/-!
# Proofs/Pass/Room — room around the inputs of convolutions

The windows of a convolution read so far around its input (`windowEdges?`).  Padding its input makes
room for that (`padConvolution_widens`), more padding leaves it (`Roomy.widened`), and where there is
room the input is not padded again (`padConvolution_rests`).

* `makesRoom_padForSize`, `makesRoom_padForOutput` — and so for either reason that the pass has to pad.
-/

namespace NetPlan

open Program Edit

/-! ## What a node sees -/

namespace Pass

variable {p q : Program} {id : String}

theorem Supplies.unique {i i' : String} {l l' : Layout} (h : Supplies p id i l)
    (h' : Supplies p id i' l') : i = i' ∧ l = l' := by
  obtain rfl : i = i' := Option.some.inj (h.1.symm.trans h'.1)
  exact ⟨rfl, Except.ok.inj (h.2.symm.trans h'.2)⟩

theorem supplies_widened (h : Widened p q) (hlays : q.LaysReorders) (hid : p.contains id = true)
    {i : String} {l : Layout} (hf : Supplies p id i l) :
    ∃ i' l', Supplies q id i' l' ∧ l.Widens l' := by
  obtain ⟨i', hi', hstands⟩ := exists_getElem?_of_forall₂ (h.reads id hid) hf.1
  obtain ⟨l', hl', hwiden⟩ := hstands.widened hlays l hf.2
  exact ⟨i', l', ⟨hi', hl'⟩, hwiden⟩

theorem sees_widened (h : Widened p q) (hlays : q.LaysReorders) (hid : p.contains id = true)
    {ls : List Layout} (hs : Sees p id ls) :
    ∃ ls', Sees q id ls' ∧ List.Forall₂ Layout.Widens ls ls' := by
  obtain ⟨ls', hs', hwiden⟩ := exists_forall₂ (forall₂_comp
    (T := fun d' l => ∃ l', q.freshLayout d' = .ok l' ∧ Layout.Widens l l')
    (fun _ _ l hd hl => hd.widened hlays l hl) (h.reads id hid).flip hs)
  exact ⟨ls', hs', hwiden.flip⟩

section Inputs

variable {input weights : Layout} {rest : List Layout}

/-- An input and weights behind a rewrite are those from before it. -/
theorem exists_inputs_narrowed (h : Widened p q) (hid : p.contains id = true)
    (hs : Sees q id (input :: weights :: rest)) : ∃ i w ls, Sees p id (i :: w :: ls) ∧
      i.Widens input ∧ w.Widens weights := by
  obtain ⟨ls, hs, hwiden⟩ := exists_forall₂ (forall₂_comp
    (T := fun d l' => ∃ l, p.freshLayout d = .ok l ∧ Layout.Widens l l')
    (fun _ _ l' hd hl => hd.narrowed l' hl) (h.reads id hid) hs)
  cases hwiden with
  | cons hinput hwiden =>
    cases hwiden with
    | cons hweights => exact ⟨_, _, _, hs, hinput, hweights⟩

/-- They are still there. -/
theorem exists_inputs_widened (h : Widened p q) (hlays : q.LaysReorders) (hid : p.contains id = true)
    (hs : Sees p id (input :: weights :: rest)) : ∃ i w ls, Sees q id (i :: w :: ls) := by
  obtain ⟨ls, hs, hwiden⟩ := sees_widened h hlays hid hs
  cases hwiden with
  | cons _ hwiden =>
    cases hwiden with
    | cons => exact ⟨_, _, _, hs⟩

end Inputs

/-! ## What windows read -/

/-- The padding that the windows at the positions of a plane read. -/
def windowEdges? (c : Convolution) (input weights : Shape) (plane : Planar) : Option Padding := do
  let x ← edgePadding? c.offset.x plane.x c.stride.x weights.x c.dilation.x input.x
  let y ← edgePadding? c.offset.y plane.y c.stride.y weights.y c.dilation.y input.y
  return Padding.spatial x.1 y.1 x.2 y.2

variable {conv : Convolution} {input weights : Layout} {rest : List Layout} {plane : Planar}

theorem neededPadding?_eq : neededPadding? conv input weights plane
    = (windowEdges? conv input.size weights.size plane).map (·.max input.padding) := by
  unfold neededPadding? windowEdges?
  cases edgePadding? conv.offset.x plane.x conv.stride.x weights.size.x conv.dilation.x input.size.x with
  | none => rfl
  | some x =>
    cases edgePadding? conv.offset.y plane.y conv.stride.y weights.size.y conv.dilation.y
      input.size.y <;> rfl

/-- There is room in the padding of the input for all that the windows read. -/
structure Roomy (p : Program) (id : String) (conv : Convolution) (plane : Planar) : Prop where
  room : ∀ input weights rest, Sees p id (input :: weights :: rest) →
    ∃ edges, windowEdges? conv input.size weights.size plane = some edges ∧
      edges.Within input.padding
  seen : p.LaysReorders → ∃ input weights rest, Sees p id (input :: weights :: rest)

/-- **More padding leaves room.** -/
theorem Roomy.widened (hr : Roomy p id conv plane) (h : Widened p q) (hid : p.contains id = true) :
    Roomy q id conv plane where
  room input' weights' rest' hs' := by
    obtain ⟨input, weights, rest, hs, hinput, hweights⟩ := exists_inputs_narrowed h hid hs'
    rw [hinput.size, hweights.size]
    obtain ⟨edges, hedges, hwithin⟩ := hr.room input weights rest hs
    exact ⟨edges, hedges, hwithin.trans hinput.padding⟩
  seen hlays := by
    obtain ⟨input, weights, rest, hs⟩ := hr.seen (h.laysReorders hlays)
    exact exists_inputs_widened h hlays hid hs

/-! ## Making room -/

/-- **The input has the padding it was to be given.** -/
theorem Pads.met {needed : Padding} {b : Bool} (h : Pads p q id needed b) {i : String} {l : Layout}
    (hf : Supplies q id i l) : needed.Within l.padding := by
  cases h with
  | enough supplies met same =>
    subst same
    rw [← met, (supplies.unique hf).2]
    exact .refl _
  | @producer input _ t supplies _ task runs work _ =>
    obtain rfl : input = i := by
      rw [Supplies, work.deps] at hf
      exact Option.some.inj (supplies.1.symm.trans hf.1)
    obtain ⟨u, inputs, hu, -, hlays⟩ := freshLayout_iff.mp hf.2
    rw [work.tasks, if_pos rfl, task] at hu
    cases hu
    rw [Task.padding_of_lays hlays, Operation.margin_of_runsKernel runs]
    exact Padding.within_max_right _ _
  | @reorder input new current supplies _ _ _ inserted =>
    have hid : id ≠ new := fun he => inserted.free
      (he ▸ contains_of_mem_depsOf (List.mem_of_getElem? supplies.1))
    have hdeps : q.depsOf id = (p.depsOf id).set 0 new :=
      (inserted.deps id).trans ((if_neg hid).trans (if_pos rfl))
    have hlt : 0 < (p.depsOf id).length := (List.getElem?_eq_some_iff.mp supplies.1).1
    obtain rfl : new = i := by
      rw [Supplies, hdeps, List.getElem?_set_self hlt] at hf
      exact Option.some.inj hf.1
    obtain ⟨u, inputs, hu, -, hlays⟩ := freshLayout_iff.mp hf.2
    obtain rfl := Option.some.inj (((inserted.tasks new).trans (if_pos rfl)).symm.trans hu)
    rw [Task.padding_of_lays hlays]
    exact .refl _

/-- **Giving the input what the windows read makes room.** -/
theorem Pads.roomy {needed : Padding} {b : Bool} (h : Pads p q id needed b)
    (hneeded : neededPadding? conv input weights plane = some needed)
    (hconv : p.shapeOf id = some (Operation.convolution conv).shape)
    (hs : Sees p id (input :: weights :: rest)) (hl : p.Linked) (hp : p.Ordered) (hc : p.Coherent) :
    Widened p q ∧ Roomy q id conv plane := by
  obtain ⟨producer, hsupplies⟩ := hs.supplies
  rw [neededPadding?_eq, Option.map_eq_some_iff] at hneeded
  obtain ⟨edges, hedges, rfl⟩ := hneeded
  have hw : Widened p q := h.widened hconv hl hp hc fun i current hf => by
    rw [(hf.unique hsupplies).2]
    exact Padding.within_max_right _ _
  refine ⟨hw, fun input' weights' rest' hs' => ?_, fun hlays => ?_⟩
  · obtain ⟨_, _, _, hs'', hinput, hweights⟩ := exists_inputs_narrowed hw hs.contains hs'
    obtain ⟨rfl, rfl, rfl⟩ : _ = input ∧ _ = weights ∧ _ = rest := by simpa using hs''.unique hs
    obtain ⟨producer', hsupplies'⟩ := hs'.supplies
    rw [hinput.size, hweights.size]
    exact ⟨edges, hedges, (Padding.within_max_left _ _).trans (h.met hsupplies')⟩
  · exact exists_inputs_widened hw hlays hs.contains hs

theorem padConvolution_widens (conv : Convolution) (plane : Planar) (hl : p.Linked) (hp : p.Ordered)
    (hc : p.Coherent) (hconv : p.shapeOf id = some (Operation.convolution conv).shape) :
    Ends (padConvolution id conv plane) (fun _ q => Widened p q ∧ Roomy q id conv plane)
      (fun _ _ => True) p := by
  have hid : ¬ p.isReorder id := fun ⟨_, hr⟩ => by
    rw [hconv] at hr
    cases hr
  refine (padConvolution_ends conv plane hl hc hid).imp (fun b q hq => ?_) fun _ _ _ => trivial
  obtain ⟨p', input, weights, rest, hfill, hs, needed, hneeded, hpads⟩ := hq
  have hw := Widened.of_filled hfill hl hp
  have hconv' := (congrFun (hfill.touched hl).shapes id).trans hconv
  obtain ⟨hw', hroomy⟩ := hpads.roomy hneeded hconv' hs hw.kept.linked hw.ordered hfill.coherent
  exact ⟨hw.trans hw', hroomy⟩

/-- **Where there is room, nothing is done.** -/
theorem padConvolution_rests (hl : p.Linked) (hc : p.Coherent) (hid : ¬ p.isReorder id)
    (hlays : p.LaysReorders) (hr : Roomy p id conv plane) :
    Ends (padConvolution id conv plane) (fun b q => b = false ∧ Filled p q) (fun _ _ => False) p := by
  have hneeded : ∀ input weights rest, Sees p id (input :: weights :: rest) →
      neededPadding? conv input weights plane = some input.padding := fun input weights rest hs => by
    obtain ⟨edges, hedges, hwithin⟩ := hr.room input weights rest hs
    rw [neededPadding?_eq, hedges, Option.map_some, Padding.max_eq_right_iff.mpr hwithin]
  refine (padConvolution_ends conv plane hl hc hid).imp (fun b q hq => ?_) fun e _ he => ?_
  · obtain ⟨p', input, weights, rest, hfill, hs, needed, hneeds, hpads⟩ := hq
    obtain ⟨producer, hsupplies⟩ := hs.supplies
    have hmet : input.padding = needed := Option.some.inj
      ((hneeded input weights rest ((sees_congr hfill hl).mp hs)).symm.trans hneeds)
    cases hpads with
    | enough _ _ same => exact ⟨rfl, same ▸ hfill⟩
    | producer supplies unmet =>
      rw [(supplies.unique hsupplies).2] at unmet
      exact absurd hmet unmet
    | reorder supplies unmet =>
      rw [(supplies.unique hsupplies).2] at unmet
      exact absurd hmet unmet
  · obtain ⟨input, weights, rest, hs⟩ := hr.seen hlays
    exact he.2 input weights rest hs (hneeded input weights rest hs)

/-! ## The two reasons to pad -/

/-- There is room for the output size that a convolution asks for. -/
def RoomForSize (p : Program) (id : String) : Prop :=
  ∀ c size, p.shapeOf id = some (.convolution c) → c.outputSize = some size →
    Roomy p id c ⟨size.x, size.y⟩

/-- There is room for the output of a convolution that is laid out by feature planes. -/
structure RoomForOutput (p : Program) (id : String) : Prop where
  room : ∀ c output, p.shapeOf id = some (.convolution c) → p.freshLayout id = .ok output →
    output.format = .bfyx ∨ output.format = .bf8Xy16 → Roomy p id c ⟨output.size.x, output.size.y⟩
  laid : p.LaysReorders → ∀ c, p.shapeOf id = some (.convolution c) →
    ∃ output, p.freshLayout id = .ok output

theorem shapeOf_convolution {n : Node} (hn : p.node? id = some n)
    (hop : n.operation = .convolution conv) :
    p.shapeOf id = some (Operation.convolution conv).shape := by
  rw [shapeOf, hn, Option.map_some, hop]

theorem shapeOf_ne_convolution {n : Node} (hn : p.node? id = some n)
    (hop : ∀ conv, n.operation = .convolution conv → False) (c : Convolution) :
    p.shapeOf id ≠ some (.convolution c) := fun hc => by
  rw [shapeOf, hn, Option.map_some, Option.some.injEq] at hc
  cases h : n.operation with
  | convolution conv => exact hop conv h
  | _ =>
    rw [h] at hc
    cases hc

theorem not_contains_shapeOf (hid : ¬ p.contains id = true) (op : Operation) :
    p.shapeOf id ≠ some op := fun hop => by
  rw [contains_eq_isSome_shapeOf, hop] at hid
  exact hid rfl

/-- Room is a matter of the window, not of what the slots name. -/
theorem roomy_congr {c : Convolution} (hc : (Operation.convolution conv).shape = .convolution c) :
    Roomy p id c plane ↔ Roomy p id conv plane := by
  cases hc
  exact ⟨fun h => ⟨h.room, h.seen⟩, fun h => ⟨h.room, h.seen⟩⟩

theorem RoomForSize.widened (hr : RoomForSize p id) (h : Widened p q) : RoomForSize q id :=
  fun c size hc hsize => by
    obtain ⟨hid, hc⟩ := h.shapeOf_narrowed hc
    exact (hr c size hc hsize).widened h hid

theorem RoomForOutput.widened (hr : RoomForOutput p id) (h : Widened p q) : RoomForOutput q id where
  room c output' hc houtput' hformat := by
    obtain ⟨hid, hc⟩ := h.shapeOf_narrowed hc
    obtain ⟨output, houtput, hwiden⟩ := (h.layouts id hid).narrowed output' houtput'
    rw [hwiden.size]
    rw [hwiden.format] at hformat
    exact (hr.room c output hc houtput hformat).widened h hid
  laid hlays c hc := by
    obtain ⟨hid, hc⟩ := h.shapeOf_narrowed hc
    obtain ⟨output, houtput⟩ := hr.laid (h.laysReorders hlays) c hc
    obtain ⟨output', houtput', -⟩ := (h.layouts id hid).widened hlays output houtput
    exact ⟨output', houtput'⟩

/-- Room for the layout that the output had before. -/
theorem Roomy.forOutput {output : Layout} (h : Widened p q)
    (hc : p.shapeOf id = some (Operation.convolution conv).shape)
    (houtput : p.freshLayout id = .ok output)
    (hr : Roomy q id conv ⟨output.size.x, output.size.y⟩) : RoomForOutput q id where
  room c output' hc' houtput' _ := by
    obtain ⟨hid, hc'⟩ := h.shapeOf_narrowed hc'
    obtain ⟨_, hl, hwiden⟩ := (h.layouts id hid).narrowed output' houtput'
    obtain rfl := Except.ok.inj (houtput.symm.trans hl)
    rw [hwiden.size]
    exact (roomy_congr (Option.some.inj (hc.symm.trans hc'))).mpr hr
  laid hlays _ _ := by
    have hid : p.contains id = true := by
      rw [contains_eq_isSome_shapeOf, hc, Option.isSome_some]
    obtain ⟨output', houtput', -⟩ := (h.layouts id hid).widened hlays output houtput
    exact ⟨output', houtput'⟩

section Steps

variable (hl : p.Linked) (hp : p.Ordered) (hc : p.Coherent)
include hl hp hc

theorem padForSize_widens : Ends (padForSize id) (fun _ q => Widened p q ∧ RoomForSize q id)
    (fun _ _ => True) p := by
  have hsame : Widened p p := .of_filled ⟨rfl, hc⟩ hl hp
  rw [padForSize, ends_bind, ends_node]
  refine ⟨fun n hn => ?_, fun _ => trivial⟩
  split
  case h_1 conv hop =>
    have hshape := shapeOf_convolution hn hop
    split
    case h_1 size hsize =>
      refine (padConvolution_widens _ _ hl hp hc hshape).imp_good
        fun _ q hq => ⟨hq.1, fun c size' hc' hsize' => ?_⟩
      have hcc := Option.some.inj (hshape.symm.trans (hq.1.shapeOf_narrowed hc').2)
      rw [roomy_congr hcc]
      cases hcc
      cases hsize.symm.trans hsize'
      exact hq.2
    case h_2 hsize =>
      refine ⟨hsame, fun c size hc' hsize' => ?_⟩
      cases hshape.symm.trans hc'
      exact absurd hsize' (hsize _)
  case h_2 hop => exact ⟨hsame, fun c _ hc' => absurd hc' (shapeOf_ne_convolution hn hop c)⟩

theorem padForOutput_widens : Ends (padForOutput id) (fun _ q => Widened p q ∧ RoomForOutput q id)
    (fun _ _ => True) p := by
  rw [padForOutput, ends_bind, ends_node]
  refine ⟨fun n hn => ?_, fun _ => trivial⟩
  split
  case h_1 conv hop =>
    rw [ends_bind]
    refine (layout_ends id hc).imp (fun output p₁ h₁ => ?_) fun _ _ _ => trivial
    obtain ⟨hfill, houtput⟩ := h₁
    have hw₁ : Widened p p₁ := .of_filled hfill hl hp
    split
    case isTrue hformat =>
      have houtput₁ : p₁.freshLayout id = .ok output := by
        rw [freshLayout_of_uncached hfill.same, houtput]
      refine ⟨hw₁, fun c output' _ houtput' hformat' => ?_, fun _ _ _ => ⟨output, houtput₁⟩⟩
      cases houtput₁.symm.trans houtput'
      simp only [Bool.and_eq_true, decide_eq_true_eq] at hformat
      exact absurd hformat' (not_or.mpr hformat)
    case isFalse =>
      have hconv₁ := (congrFun (hfill.touched hl).shapes id).trans (shapeOf_convolution hn hop)
      refine (padConvolution_widens _ _ hw₁.kept.linked hw₁.ordered hfill.coherent hconv₁).imp_good
        fun _ q hq => ?_
      have hw := hw₁.trans hq.1
      exact ⟨hw, hq.2.forOutput hw (shapeOf_convolution hn hop) houtput⟩
  case h_2 hop =>
    have hno := shapeOf_ne_convolution hn hop
    exact ⟨.of_filled ⟨rfl, hc⟩ hl hp, fun c _ hc' => absurd hc' (hno c),
      fun _ c hc' => absurd hc' (hno c)⟩

theorem padForOutput_rests (hlays : p.LaysReorders) (hid : p.contains id = true)
    (hroom : RoomForOutput p id) :
    Ends (padForOutput id) (fun b q => b = false ∧ Filled p q) (fun _ _ => False) p := by
  rw [padForOutput, ends_bind, ends_node]
  refine ⟨fun n hn => ?_, fun hnone => absurd hid (node?_eq_none.mp hnone)⟩
  split
  case h_1 conv hop =>
    have hshape := shapeOf_convolution hn hop
    rw [ends_bind]
    refine (layout_ends id hc).imp (fun l p₁ h₁ => ?_) fun e _ he => ?_
    · obtain ⟨hfill, hl'⟩ := h₁
      have hw₁ : Widened p p₁ := .of_filled hfill hl hp
      split
      case isTrue => exact ⟨rfl, hfill⟩
      case isFalse hformat =>
        have hformat : l.format = .bfyx ∨ l.format = .bf8Xy16 := by
          simpa only [Bool.and_eq_true, decide_eq_true_eq, not_and_or, not_not] using hformat
        have hid₁ : ¬ p₁.isReorder id := by
          rw [isReorder, (hfill.touched hl).shapes]
          exact not_isReorder_of_convolution hn hop
        have hroom₁ := (hroom.room _ l hshape hl' hformat).widened hw₁ hid
        exact (padConvolution_rests hw₁.kept.linked hfill.coherent hid₁
          (hfill.laysReorders hl hlays) ((roomy_congr rfl).mp hroom₁)).imp_good
          fun _ q hq => ⟨hq.1, hfill.trans hq.2⟩
    · obtain ⟨output, houtput⟩ := hroom.laid hlays _ hshape
      rw [houtput] at he
      cases he.2
  case h_2 => exact ⟨rfl, rfl, hc⟩

end Steps

theorem padForSize_rests (hl : p.Linked) (hc : p.Coherent) (hlays : p.LaysReorders)
    (hid : p.contains id = true) (hroom : RoomForSize p id) :
    Ends (padForSize id) (fun b q => b = false ∧ Filled p q) (fun _ _ => False) p := by
  rw [padForSize, ends_bind, ends_node]
  refine ⟨fun n hn => ?_, fun hnone => absurd hid (node?_eq_none.mp hnone)⟩
  split
  case h_1 conv hop =>
    split
    case h_1 size hsize =>
      exact padConvolution_rests hl hc (not_isReorder_of_convolution hn hop) hlays
        ((roomy_congr rfl).mp (hroom _ size (shapeOf_convolution hn hop) hsize))
    case h_2 => exact ⟨rfl, rfl, hc⟩
  case h_2 => exact ⟨rfl, rfl, hc⟩

/-- What a part of the pass does: it makes room, which more padding leaves, and does nothing where
there is room. -/
structure MakesRoom (pad : String → Edit Bool) (Room : Program → String → Prop) : Prop where
  widens : ∀ {p id}, p.Linked → p.Ordered → p.Coherent →
    Ends (pad id) (fun _ q => Widened p q ∧ Room q id) (fun _ _ => True) p
  rests : ∀ {p id}, p.Linked → p.Ordered → p.Coherent → p.LaysReorders → p.contains id = true →
    Room p id → Ends (pad id) (fun b q => b = false ∧ Filled p q) (fun _ _ => False) p
  kept : ∀ {p q id}, Room p id → Widened p q → Room q id
  absent : ∀ {p id}, ¬ p.contains id = true → Room p id

theorem makesRoom_padForSize : MakesRoom padForSize RoomForSize where
  widens := padForSize_widens
  rests hl _ hc := padForSize_rests hl hc
  kept := RoomForSize.widened
  absent hid _ _ hc := absurd hc (not_contains_shapeOf hid _)

theorem makesRoom_padForOutput : MakesRoom padForOutput RoomForOutput where
  widens := padForOutput_widens
  rests := padForOutput_rests
  kept := RoomForOutput.widened
  absent hid := ⟨fun _ _ hc => absurd hc (not_contains_shapeOf hid _),
    fun _ _ hc => absurd hc (not_contains_shapeOf hid _)⟩

end Pass

end NetPlan
