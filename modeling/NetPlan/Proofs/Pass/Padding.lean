import NetPlan.Pass.Padding
import NetPlan.Proofs.Graph.Insert
import NetPlan.Proofs.Graph.View
import NetPlan.Proofs.Layout.Cache

/-!
# Proofs/Pass/Padding — padding for convolutions

The input of a convolution gets another padding, or a new reorder is put in front of it (`Padded`).

`padInputs_ends` — an invariant of these rewrites is an invariant of the pass.
-/

namespace NetPlan.Pass

open Program Edit

variable {p q : Program} {c : Compilation} {id : String}

/-- `q` is `p` with padding in front of a node. -/
inductive Padded (p q : Program) (id : String) : Prop where
  | none (same : q = p)
  | producer (input : String) (padding : Padding)
      (work : Reworked p q input fun t => { t with padding }) (kept : Kept p q)
  | reorder (prim : Primitive) (source : String) (layout : Layout) (padding : Padding)
      (reader : ¬ p.isReorder id) (shape : prim = .reorder prim.id source layout padding)
      (named : ∃ rest, prim.id = "reorder_input_" ++ rest)
      (inserted : Inserted p q prim id 0 source)

/-! ## The input of a node -/

/-- The first input of a node, and its layout. -/
def Supplies (p : Program) (id input : String) (current : Layout) : Prop :=
  (p.depsOf id)[0]? = some input ∧ p.freshLayout input = .ok current

theorem supplies_congr (h : Filled p q) (hl : p.Linked) {input : String} {current : Layout} :
    Supplies q id input current ↔ Supplies p id input current := by
  rw [Supplies, Supplies, (h.touched hl).deps, freshLayout_of_uncached h.same]

/-- What giving the input of a node a padding does, and whether that is a change: the input has it, or
the node that produces it takes it on, or a new reorder is put in front of the reader. -/
inductive Pads (p q : Program) (id : String) (needed : Padding) : Bool → Prop where
  | enough {input : String} {current : Layout} (supplies : Supplies p id input current)
      (met : current.padding = needed) (same : q = p) : Pads p q id needed false
  | producer {input : String} {current : Layout} {t : Task} (supplies : Supplies p id input current)
      (unmet : current.padding ≠ needed) (task : p.taskOf input = some t)
      (runs : t.operation.kind.runsKernel = true)
      (work : Reworked p q input fun u => { u with padding := t.padding.max needed })
      (kept : Kept p q) : Pads p q id needed true
  | reorder {input new : String} {current : Layout} (supplies : Supplies p id input current)
      (unmet : current.padding ≠ needed) (reader : ¬ p.isReorder id)
      (named : ∃ rest, new = "reorder_input_" ++ rest)
      (inserted : Inserted p q (Primitive.reorder new input current needed) id 0 input) :
      Pads p q id needed true

theorem Pads.padded {needed : Padding} {b : Bool} (h : Pads p q id needed b) : Padded p q id := by
  cases h with
  | enough _ _ same => exact .none same
  | producer _ _ _ _ work kept => exact .producer _ _ work kept
  | reorder _ _ reader named inserted => exact .reorder _ _ _ _ reader rfl named inserted

theorem inputOf_ends :
    Ends (inputOf id) (fun input q => q = p ∧ (p.depsOf id)[0]? = some input)
      (fun e _ => e.closes = false ∧ (p.depsOf id)[0]? = none) p := by
  rw [inputOf, ends_bind, ends_node]
  refine ⟨fun n hn => ?_, fun hnone => ⟨rfl, ?_⟩⟩
  · rw [depsOf_of_node? hn]
    split
    case h_1 input hinput => exact ⟨rfl, hinput⟩
    case h_2 hinput => exact ⟨rfl, hinput⟩
  · rw [depsOf_of_not_contains (node?_eq_none.mp hnone)]
    rfl

/-- **Giving an input a padding** stops only where there is no input with that padding. -/
theorem padInput_ends (needed : Padding) (hl : p.Linked) (hc : p.Coherent)
    (hid : ¬ p.isReorder id) :
    Ends (padInput id needed) (fun b q => ∃ p', Filled p p' ∧ Pads p' q id needed b)
      (fun e _ => e.closes = false ∧
        ∀ input current, Supplies p id input current → current.padding ≠ needed) p := by
  rw [padInput, ends_bind]
  refine inputOf_ends.imp (fun input q hq => ?_) fun e _ he => ⟨he.1, fun _ _ hf => ?_⟩
  · obtain ⟨rfl, hinput⟩ := hq
    rw [ends_bind]
    refine (layout_ends input hc).imp (fun current p₁ h₁ => ?_) fun e _ he => ⟨?_, fun _ _ hf => ?_⟩
    · obtain ⟨hfill, hcurrent⟩ := h₁
      have htouch := hfill.touched hl
      have hl₁ := htouch.kept.linked
      have hsupplies : Supplies p₁ id input current := (supplies_congr hfill hl).mpr ⟨hinput, hcurrent⟩
      have hsole : ∀ i l, Supplies q id i l → l = current := fun i l hf => by
        obtain rfl : input = i := Option.some.inj (hinput.symm.trans hf.1)
        exact Except.ok.inj (hf.2.symm.trans hcurrent)
      split
      case isTrue hmet => exact ⟨p₁, hfill, .enough hsupplies hmet rfl⟩
      case isFalse hunmet =>
      have hbad : ∀ i l, Supplies q id i l → l.padding ≠ needed := fun i l hf => hsole i l hf ▸ hunmet
      rw [ends_bind, ends_node]
      refine ⟨fun producer hproducer => ?_, fun _ => ⟨rfl, hbad⟩⟩
      dsimp only
      split
      case isTrue hruns =>
        rw [ends_bind]
        refine (setPadding_effect hl₁ _).imp (fun _ q₂ h₂ => ⟨p₁, hfill, ?_⟩)
          fun _ _ hb => ⟨hb.1, hbad⟩
        refine .producer hsupplies hunmet (taskOf_of_node? hproducer) ?_ h₂.1 h₂.2.1
        have hkind : producer.runsKernel = producer.kind.runsKernel := Bool.and_comm ..
        rwa [Node.task, Operation.kind_shape, ← Node.kind, ← hkind]
      case isFalse =>
        rw [ends_bind, ends_get, ends_bind]
        have hfree := not_contains_unusedId p₁ ("reorder_input_" ++ id)
        obtain ⟨rest, hrest⟩ := unusedId_eq_append p₁ ("reorder_input_" ++ id)
        refine (addIntermediate_effect hl₁ fun he hr => ?_).imp (fun _ q₂ h₂ => ?_)
          fun _ _ hb => ⟨hb.1, hbad⟩
        · exact hfree ((congrArg p₁.contains he).trans (contains_of_isReorder hr))
        · obtain ⟨source, hins | hshare⟩ := h₂
          · obtain rfl : input = source := Option.some.inj (hsupplies.1.symm.trans hins.source_eq)
            refine ⟨p₁, hfill, .reorder hsupplies hunmet ?_ ⟨id ++ rest, ?_⟩ hins⟩
            · rwa [isReorder, htouch.shapes]
            · rw [← String.append_assoc]
              exact hrest
          · exact absurd (contains_of_isReorder hshare.reorder) hfree
    · exact closes_of_freshWithin he.2
    · obtain rfl : input = _ := Option.some.inj (hinput.symm.trans hf.1)
      rw [hf.2] at he
      cases he.2
  · rw [hf.1] at he
    cases he.2

/-! ## The input of a convolution -/

/-- The layouts of what a node reads, slot by slot. -/
def Sees (p : Program) (id : String) (layouts : List Layout) : Prop :=
  List.Forall₂ (fun d l => p.freshLayout d = .ok l) (p.depsOf id) layouts

theorem sees_congr (h : Filled p q) (hl : p.Linked) {layouts : List Layout} :
    Sees q id layouts ↔ Sees p id layouts := by
  rw [Sees, Sees, (h.touched hl).deps, freshLayout_of_uncached h.same]

theorem Sees.unique {ls ls' : List Layout} (h : Sees p id ls) (h' : Sees p id ls') : ls = ls' :=
  Except.ok.inj ((mapM_eq_ok_iff.mpr h).symm.trans (mapM_eq_ok_iff.mpr h'))

theorem Sees.supplies {l : Layout} {rest : List Layout} (h : Sees p id (l :: rest)) :
    ∃ input, Supplies p id input l := by
  obtain ⟨input, deps, hl, -, hdeps⟩ := List.forall₂_cons_right_iff.mp h
  exact ⟨input, by rw [hdeps]; rfl, hl⟩

theorem Sees.contains {l : Layout} {rest : List Layout} (h : Sees p id (l :: rest)) :
    p.contains id = true := by
  obtain ⟨input, hinput, -⟩ := h.supplies
  exact contains_of_mem_depsOf (List.mem_of_getElem? hinput)

/-- **Padding the input of a convolution** stops only where the input does not have what is needed. -/
theorem padConvolution_ends (conv : Convolution) (plane : Planar) (hl : p.Linked)
    (hc : p.Coherent) (hid : ¬ p.isReorder id) :
    Ends (padConvolution id conv plane)
      (fun b q => ∃ p' input weights rest, Filled p p' ∧ Sees p' id (input :: weights :: rest) ∧
        ∃ needed, neededPadding? conv input weights plane = some needed ∧ Pads p' q id needed b)
      (fun e _ => e.closes = false ∧ ∀ input weights rest, Sees p id (input :: weights :: rest) →
        neededPadding? conv input weights plane ≠ some input.padding) p := by
  rw [padConvolution, ends_bind]
  refine (inputLayouts_ends id hc).imp (fun ls p₁ h₁ => ?_) fun e _ he => ⟨he.2.1, fun _ _ _ hs => ?_⟩
  · obtain ⟨hfill, hls⟩ := h₁
    have hsees : Sees p id ls := mapM_eq_ok_iff.mp hls
    have htouch := hfill.touched hl
    split
    case h_1 input weights rest =>
      have hid₁ : ¬ p₁.isReorder id := by rwa [isReorder, htouch.shapes]
      have hsole : ∀ input' weights' rest', Sees p id (input' :: weights' :: rest') →
          input' = input ∧ weights' = weights := fun _ _ _ hs => by
        obtain ⟨rfl, rfl, -⟩ : input = _ ∧ weights = _ ∧ rest = _ := by
          simpa using hsees.unique hs
        exact ⟨rfl, rfl⟩
      generalize hneeds : neededPadding? conv input weights plane = needs
      cases needs with
      | none =>
        refine ⟨rfl, fun input' weights' rest' hs => ?_⟩
        obtain ⟨rfl, rfl⟩ := hsole _ _ _ hs
        rw [hneeds]
        exact Option.some_ne_none _ ∘ Eq.symm
      | some needed =>
        refine (padInput_ends _ htouch.kept.linked hfill.coherent hid₁).imp (fun b q hq => ?_)
          fun e _ he => ⟨he.1, fun input' weights' rest' hs => ?_⟩
        · obtain ⟨p', hfill', hpads⟩ := hq
          exact ⟨p', input, weights, rest, hfill.trans hfill',
            (sees_congr (hfill.trans hfill') hl).mpr hsees, needed, hneeds, hpads⟩
        · obtain ⟨rfl, rfl⟩ := hsole _ _ _ hs
          obtain ⟨producer, hsupplies⟩ := hsees.supplies
          rw [hneeds]
          exact fun h => he.2 producer _ ((supplies_congr hfill hl).mpr hsupplies)
            (Option.some.inj h).symm
    case h_2 hshort => exact ⟨rfl, fun _ _ _ hs => absurd (hsees.unique hs) (hshort _ _ _)⟩
  · have hls := mapM_eq_ok_iff.mpr hs
    rw [he.2.2 hs.contains] at hls
    cases hls

theorem padConvolution_effect (conv : Convolution) (plane : Planar) (hl : p.Linked)
    (hc : p.Coherent) (hid : ¬ p.isReorder id) :
    Ends (padConvolution id conv plane) (fun _ q => ∃ p', Filled p p' ∧ Padded p' q id)
      (fun e _ => e.closes = false) p := by
  refine (padConvolution_ends conv plane hl hc hid).imp (fun _ q hq => ?_) fun _ _ he => he.1
  obtain ⟨p', _, _, _, hfill, -, _, -, hpads⟩ := hq
  exact ⟨p', hfill, hpads.padded⟩

theorem not_isReorder_of_convolution {n : Node} {conv : Convolution} (hn : p.node? id = some n)
    (hop : n.operation = .convolution conv) : ¬ p.isReorder id := by
  rw [isReorder_iff_of_node? hn, hop]
  rintro ⟨r, hr⟩
  cases hr

theorem padForSize_effect (hl : p.Linked) (hc : p.Coherent) :
    Ends (padForSize id) (fun _ q => ∃ p', Filled p p' ∧ Padded p' q id)
      (fun e _ => e.closes = false) p := by
  rw [padForSize, ends_bind, ends_node]
  refine ⟨fun n hn => ?_, fun _ => rfl⟩
  split
  case h_1 conv hop =>
    split
    · exact padConvolution_effect _ _ hl hc (not_isReorder_of_convolution hn hop)
    · exact ⟨p, ⟨rfl, hc⟩, .none rfl⟩
  · exact ⟨p, ⟨rfl, hc⟩, .none rfl⟩

theorem padForOutput_effect (hl : p.Linked) (hc : p.Coherent) :
    Ends (padForOutput id) (fun _ q => ∃ p', Filled p p' ∧ Padded p' q id)
      (fun e _ => e.closes = false) p := by
  rw [padForOutput, ends_bind, ends_node]
  refine ⟨fun n hn => ?_, fun _ => rfl⟩
  split
  case h_1 conv hop =>
    rw [ends_bind]
    refine (layout_effect id hc).imp_good fun output p₁ h₁ => ?_
    have htouch := h₁.1.touched hl
    split
    · exact ⟨p₁, h₁.1, .none rfl⟩
    · refine (padConvolution_effect _ _ htouch.kept.linked h₁.1.coherent ?_).imp_good
        fun _ q hq => ?_
      · rw [isReorder, htouch.shapes]
        exact not_isReorder_of_convolution hn hop
      · obtain ⟨p', hfill, hpad⟩ := hq
        exact ⟨p', h₁.1.trans hfill, hpad⟩
  · exact ⟨p, ⟨rfl, hc⟩, .none rfl⟩

/-! ## Whether a size is asked for -/

/-- Whether an operation asks for another output size than its window has positions, by the layouts of
what its node reads. -/
def askedBy (p : Program) (id : String) : Operation → Except CompileError Bool
  | .convolution c =>
    match c.outputSize with
    | some requested => do
      match ← (p.depsOf id).mapM p.freshLayout with
      | input :: weights :: _ => differs (convolutionPlane? c input weights) requested
      | _ => return false
    | none => .ok false
  | .pooling w =>
    match w.outputSize with
    | some requested =>
      match (p.depsOf id)[0]? with
      | some input => do differs (poolingPlane? w (← p.freshLayout input)) requested
      | none => .error (.invalidPrimitive id .noInput)
    | none => .ok false
  | _ => .ok false

/-- Whether a node does. -/
def asked (p : Program) (id : String) : Except CompileError Bool :=
  match p.shapeOf id with
  | some op => askedBy p id op
  | none => .error (.missingNode id)

/-- Whether one of the nodes does. -/
def anyAsked (p : Program) : List String → Except CompileError Bool
  | [] => .ok false
  | id :: rest => do
    if ← asked p id then
      return true
    anyAsked p rest

theorem asked_of_node? {n : Node} (hn : p.node? id = some n) :
    asked p id = askedBy p id n.operation := by
  have hshape : askedBy p id n.operation.shape = askedBy p id n.operation := by
    cases n.operation <;> rfl
  rw [asked, shapeOf, hn, ← hshape]
  rfl

/-- The question is one of what nodes do and read, and of layouts. -/
theorem asked_congr (shapes : q.shapeOf = p.shapeOf) (deps : q.depsOf = p.depsOf)
    (layouts : q.freshLayout = p.freshLayout) : asked q = asked p := funext fun id => by
  have hby : askedBy q id = askedBy p id := funext fun op => by
    unfold askedBy
    rw [deps, layouts]
  rw [asked, asked, shapes, hby]

theorem anyAsked_congr (h : asked q = asked p) : ∀ ids, anyAsked q ids = anyAsked p ids
  | [] => rfl
  | id :: ids => by
      rw [anyAsked, anyAsked, h]
      exact congrArg (Bind.bind _) (funext fun b => by rw [anyAsked_congr h ids])

/-- Positions that are no machine words give no answer. -/
theorem differs_ends (h : Filled p q) {answer : Except CompileError Bool}
    {plane : Option (Option Nat × Option Nat)} {requested : Shape}
    (ha : answer = differs plane requested) :
    Ends (Edit.ofExcept (differs plane requested)) (fun b r => Filled p r ∧ answer = .ok b)
      (fun e _ => e.closes = false ∧ ∀ b, answer ≠ .ok b) q := by
  rw [ends_ofExcept]
  refine ⟨fun b hb => ⟨h, ha.trans hb⟩, fun e he => ⟨?_, fun b hb => ?_⟩⟩
  · cases plane with
    | none =>
      cases he
      rfl
    | some positions => cases he
  · rw [ha.symm.trans hb] at he
    cases he

/-- **The question is answered** as the layouts answer it, and not just if one is missing. -/
theorem asksForSize_ends (hc : p.Coherent) :
    Ends (asksForSize id) (fun b q => Filled p q ∧ asked p id = .ok b)
      (fun e _ => e.closes = false ∧ ∀ b, asked p id ≠ .ok b) p := by
  rw [asksForSize, ends_bind, ends_node]
  refine ⟨fun n hn => ?_, fun hnone => ⟨rfl, fun b hb => ?_⟩⟩
  · rw [asked_of_node? hn]
    split
    case h_1 c hop =>
      rw [hop, askedBy]
      cases c.outputSize with
      | none => exact ⟨⟨rfl, hc⟩, rfl⟩
      | some requested =>
        dsimp only
        rw [ends_bind]
        refine (inputLayouts_ends id hc).imp (fun ls q hq => ?_) fun e _ he => ⟨he.2.1, fun b hb => ?_⟩
        · rw [hq.2]
          rcases ls with _ | ⟨_, _ | ⟨_, _⟩⟩
          · exact ⟨hq.1, rfl⟩
          · exact ⟨hq.1, rfl⟩
          · exact differs_ends hq.1 rfl
        · rw [he.2.2 (contains_of_node? hn)] at hb
          cases hb
    case h_2 w hop =>
      rw [hop, askedBy]
      cases w.outputSize with
      | none => exact ⟨⟨rfl, hc⟩, rfl⟩
      | some requested =>
        dsimp only
        rw [ends_bind]
        refine inputOf_ends.imp (fun input q hq => ?_) fun e _ he => ⟨he.1, fun b hb => ?_⟩
        · obtain ⟨rfl, hinput⟩ := hq
          rw [ends_bind, hinput]
          dsimp only
          refine (layout_ends input hc).imp (fun l q hq => differs_ends hq.1 (by rw [hq.2]; rfl))
            fun e _ he => ⟨?_, fun b hb => ?_⟩
          · exact closes_of_freshWithin he.2
          · obtain ⟨l, hl, -⟩ := bind_eq_ok_iff.mp hb
            rw [hl] at he
            cases he.2
        · rw [he.2] at hb
          cases hb
    case h_3 hconv hpool =>
      refine ⟨⟨rfl, hc⟩, ?_⟩
      cases hop : n.operation with
      | convolution c => exact absurd hop (hconv c)
      | pooling w => exact absurd hop (hpool w)
      | _ => rfl
  · rw [asked, shapeOf_of_not_contains (node?_eq_none.mp hnone)] at hb
    cases hb

theorem anyAsksForSize_ends : ∀ (ids : List String) {p : Program}, p.Linked → p.Coherent →
    Ends (anyAsksForSize ids) (fun b q => Filled p q ∧ anyAsked p ids = .ok b)
      (fun e _ => e.closes = false ∧ ∀ b, anyAsked p ids ≠ .ok b) p
  | [], _, _, hc => ⟨⟨rfl, hc⟩, rfl⟩
  | id :: ids, p, hl, hc => by
      rw [anyAsksForSize, ends_bind]
      refine (asksForSize_ends hc).imp (fun asks q hq => ?_) fun e _ he => ⟨he.1, fun b hb => ?_⟩
      · obtain ⟨hfill, hasks⟩ := hq
        have hrest : ∀ b, anyAsked p (id :: ids) = .ok b ↔
            if asks then b = true else anyAsked p ids = .ok b := fun b => by
          rw [anyAsked, hasks]
          cases asks with
          | true => exact ⟨fun h => (Except.ok.inj h).symm, fun h => congrArg Except.ok h.symm⟩
          | false => rfl
        split
        case isTrue h => exact ⟨hfill, (hrest true).mpr ((if_pos h).mpr rfl)⟩
        case isFalse h =>
          have htouch := hfill.touched hl
          have hsame := anyAsked_congr (asked_congr htouch.shapes htouch.deps
            (freshLayout_of_uncached hfill.same)) ids
          refine (anyAsksForSize_ends ids htouch.kept.linked hfill.coherent).imp
            (fun b r hr => ⟨hfill.trans hr.1, (hrest b).mpr ?_⟩) fun e _ he => ⟨he.1, fun b hb => ?_⟩
          · rw [if_neg h, ← hsame]
            exact hr.2
          · refine he.2 b ?_
            rw [hsame]
            exact (if_neg h).mp ((hrest b).mp hb)
      · obtain ⟨asks, hasks, -⟩ := bind_eq_ok_iff.mp hb
        exact he.2 asks hasks

/-- **What padding keeps, the pass keeps.** -/
theorem padInputs_ends (inv : Program → Prop)
    (base : ∀ {p}, inv p → p.Linked ∧ p.Coherent)
    (touched : ∀ {p q}, inv p → Touched p q → inv q)
    (padded : ∀ {p q id}, inv p → Padded p q id → inv q) (h : inv c.program) :
    Ends padInputs (fun _ c' => inv c'.program ∧ c'.preferences = c.preferences)
      (fun e _ => e.closes = false) c := by
  have step : ∀ {p q : Program} {id : String}, inv p → (∃ p', Filled p p' ∧ Padded p' q id) →
      inv q := by
    rintro p q id hp ⟨p', hfill, hpad⟩
    exact padded (touched hp (hfill.touched (base hp).1)) hpad
  have hrest : ∀ (d : Compilation) (before : Program) (sized : Nat),
      inv d.program ∧ d.preferences = c.preferences →
      Ends (do
        let rest ← Transform.countNodes fun id => padForOutput id
        return PassStats.ofCounts (sized + rest) (before.size - (← Transform.program).size))
        (fun _ c' => inv c'.program ∧ c'.preferences = c.preferences)
        (fun e _ => e.closes = false) d := by
    intro d before sized hd
    rw [ends_bind]
    refine (Transform.ends_countNodes (fun c' => inv c'.program ∧ c'.preferences = c.preferences)
      (fun id d hd => ?_) hd).imp_good fun _ d hd => ?_
    · rw [Transform.ends_liftM]
      exact (padForOutput_effect (base hd.1).1 (base hd.1).2).imp_good
        fun _ q hq => ⟨step hd.1 hq, hd.2⟩
    · rw [ends_bind, Transform.ends_program]
      exact hd
  rw [padInputs, ends_bind, Transform.ends_program, ends_bind, Transform.ends_liftM]
  refine (anyAsksForSize_ends _ (base h).1 (base h).2).imp (fun asks q hq => ?_) fun _ _ he => he.1
  have hq' := touched h (hq.1.touched (base h).1)
  dsimp only
  split
  · rw [ends_bind]
    refine (Transform.ends_countNodes (c := { c with program := q })
      (fun c' => inv c'.program ∧ c'.preferences = c.preferences) (fun id d hd => ?_)
      ⟨hq', rfl⟩).imp_good fun sized d hd => hrest d _ sized hd
    rw [Transform.ends_liftM]
    exact (padForSize_effect (base hd.1).1 (base hd.1).2).imp_good
      fun _ q hq => ⟨step hd.1 hq, hd.2⟩
  · exact hrest _ _ 0 ⟨hq', rfl⟩

end NetPlan.Pass
