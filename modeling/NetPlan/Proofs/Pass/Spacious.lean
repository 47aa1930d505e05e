import NetPlan.Proofs.Layout.Coherence
import NetPlan.Proofs.Pass.Room

/-!
# Proofs/Pass/Spacious — padding once and again

A program is **spacious** when no convolution lacks room for what the pass pads it for.  The pass
widens a program into a spacious one (`padInputs_widens`), and does nothing to one that is spacious and
whose reorders can be laid out (`padInputs_rests`).  So padding only grows, and one run pads all
(`padding_settles`).
-/

namespace NetPlan

open Program Edit

namespace Pass

variable {p q : Program} {id : String} {c : Compilation}

/-! ## The question again -/

theorem askedBy_widened (h : Widened p q) (hlays : q.LaysReorders) (hid : p.contains id = true)
    {op : Operation} {b : Bool} : askedBy p id op = .ok b → askedBy q id op = .ok b := by
  unfold askedBy
  cases op with
  | convolution w =>
    dsimp only
    cases w.outputSize with
    | none => exact fun ha => ha
    | some requested =>
      intro ha
      obtain ⟨ls, hls, ha⟩ := bind_eq_ok_iff.mp ha
      obtain ⟨ls', hls', hwiden⟩ := sees_widened h hlays hid (mapM_eq_ok_iff.mp hls)
      refine bind_eq_ok_iff.mpr ⟨ls', mapM_eq_ok_iff.mpr hls', ?_⟩
      rw [← ha]
      match hwiden with
      | .nil => rfl
      | .cons _ .nil => rfl
      | .cons hinput (.cons hweights _) =>
        dsimp only
        rw [convolutionPlane?, convolutionPlane?, hinput.size, hweights.size]
  | pooling w =>
    dsimp only
    cases w.outputSize with
    | none => exact fun ha => ha
    | some requested =>
      dsimp only
      intro ha
      split at ha
      case h_2 => cases ha
      case h_1 input hinput =>
        obtain ⟨l, hl, ha⟩ := bind_eq_ok_iff.mp ha
        obtain ⟨input', l', ⟨hinput', hl'⟩, hwiden⟩ := supplies_widened h hlays hid ⟨hinput, hl⟩
        rw [hinput']
        refine bind_eq_ok_iff.mpr ⟨l', hl', ?_⟩
        rw [← ha, poolingPlane?, poolingPlane?, hwiden.size]
  | _ => exact fun ha => ha

/-- **More padding changes no answer.** -/
theorem asked_widened (h : Widened p q) (hlays : q.LaysReorders) (hid : p.contains id = true)
    {b : Bool} (ha : asked p id = .ok b) : asked q id = .ok b := by
  rw [asked] at ha
  rw [asked, h.shapeOf hid]
  split at ha
  · exact askedBy_widened h hlays hid ha
  · cases ha

/-- A reorder asks for no size. -/
theorem asked_reorder (hid : p.isReorder id) : asked p id = .ok false := by
  obtain ⟨r, hr⟩ := hid
  rw [asked, hr]
  rfl

/-- **Nor the answer to whether one of the nodes asks.** -/
theorem anyAsked_widened (h : Widened p q) (hlays : q.LaysReorders) {b : Bool} :
    ∀ {ids : List String}, (∀ id ∈ ids, q.contains id = true) →
      anyAsked p (ids.filter p.contains) = .ok b → anyAsked q ids = .ok b
  | [], _, ha => ha
  | id :: ids, hids, ha => by
      obtain ⟨hid, hids⟩ := List.forall_mem_cons.mp hids
      rw [anyAsked]
      by_cases hold : p.contains id = true
      · rw [List.filter_cons_of_pos hold] at ha
        obtain ⟨asks, hasks, ha⟩ := bind_eq_ok_iff.mp ha
        refine bind_eq_ok_iff.mpr ⟨asks, asked_widened h hlays hold hasks, ?_⟩
        cases asks with
        | true => exact ha
        | false => exact anyAsked_widened h hlays hids ha
      · rw [List.filter_cons_of_neg hold] at ha
        exact bind_eq_ok_iff.mpr ⟨false, asked_reorder ((h.news id hid).resolve_left hold).isReorder,
          anyAsked_widened h hlays hids ha⟩

/-! ## All nodes -/

namespace MakesRoom

variable {pad : String → Edit Bool} {Room : Program → String → Prop} (h : MakesRoom pad Room)
  (hl : c.program.Linked) (hp : c.program.Ordered) (hc : c.program.Coherent)
include h hl hp hc

/-- **Padding every node makes room for all.** -/
theorem countNodes_widens : Ends (Transform.countNodes fun id => pad id)
    (fun _ c' => Widened c.program c'.program ∧ ∀ id, Room c'.program id) (fun _ _ => True) c := by
  rw [Transform.countNodes, ends_bind, Transform.ends_program]
  refine (Transform.ends_countM (fun rest d => Widened c.program d.program ∧
    ∀ id, id ∉ rest → Room d.program id) (fun id rest d hd => ?_) _ c ⟨?_, fun id hid => ?_⟩).imp_good
    fun _ d hd => ⟨hd.1, fun id => hd.2 id List.not_mem_nil⟩
  · obtain ⟨hw, hroom⟩ := hd
    rw [Transform.ends_liftM]
    refine (h.widens hw.kept.linked hw.ordered (hw.kept.coherent hc)).imp_good
      fun _ q hq => ⟨hw.trans hq.1, fun j hj => ?_⟩
    by_cases he : j = id
    · exact he ▸ hq.2
    · exact h.kept (hroom j (List.not_mem_cons_of_ne_of_not_mem he hj)) hq.1
  · exact .of_filled ⟨rfl, hc⟩ hl hp
  · exact h.absent fun hthere => hid ((hp.mem id).mpr hthere)

/-- **Where there is room for all, none is padded.** -/
theorem countNodes_rests (hlays : c.program.LaysReorders) (hroom : ∀ id, Room c.program id) :
    Ends (Transform.countNodes fun id => pad id)
      (fun count c' => count = 0 ∧ Filled c.program c'.program) (fun _ _ => False) c := by
  rw [Transform.countNodes, ends_bind, Transform.ends_program]
  refine (Transform.ends_countM_any (fun b rest d => b = false ∧ Filled c.program d.program ∧
    ∀ id ∈ rest, c.program.contains id = true) (fun b id rest d hd => ?_) _ false c
    ⟨rfl, ⟨rfl, hc⟩, fun id hid => (hp.mem id).mp hid⟩).imp_good fun count d hd => ?_
  · obtain ⟨rfl, hfill, hids⟩ := hd
    obtain ⟨hid, hids⟩ := List.forall_mem_cons.mp hids
    have hw : Widened c.program d.program := .of_filled hfill hl hp
    rw [Transform.ends_liftM]
    exact (h.rests hw.kept.linked hw.ordered hfill.coherent (hfill.laysReorders hl hlays)
      (hw.contains hid) (h.kept (hroom id) hw)).imp_good
      fun b q hq => ⟨hq.1, hfill.trans hq.2, hids⟩
  · obtain ⟨b, ⟨hb, hfill, -⟩, hcount⟩ := hd
    exact ⟨(hcount.mp hb).2, hfill⟩

end MakesRoom

/-! ## The pass -/

/-- Every convolution has room for what it is padded for. -/
structure Spacious (p : Program) : Prop where
  sized : p.LaysReorders → ∃ b, anyAsked p p.order.ids = .ok b ∧ (b = true → ∀ id, RoomForSize p id)
  output : ∀ id, RoomForOutput p id

section Run

variable (hl : c.program.Linked) (hp : c.program.Ordered) (hc : c.program.Coherent)
include hl hp hc

/-- **The pass makes room**, by more padding and reorders. -/
theorem padInputs_widens : Ends padInputs
    (fun _ c' => Widened c.program c'.program ∧ Spacious c'.program) (fun _ _ => True) c := by
  rw [padInputs, ends_bind, Transform.ends_program, ends_bind, Transform.ends_liftM]
  refine (anyAsksForSize_ends _ hl hc).imp (fun asks q hq => ?_) fun _ _ _ => trivial
  obtain ⟨hfill, hasks⟩ := hq
  have hw : Widened c.program q := .of_filled hfill hl hp
  have hrest : ∀ (d : Compilation) (sized : Nat), Widened c.program d.program →
      (asks = true → ∀ id, RoomForSize d.program id) →
      Ends (do
        let rest ← Transform.countNodes fun id => padForOutput id
        return PassStats.ofCounts (sized + rest) (c.program.size - (← Transform.program).size))
        (fun _ c' => Widened c.program c'.program ∧ Spacious c'.program) (fun _ _ => True) d := by
    intro d sized hd hsized
    rw [ends_bind]
    refine (makesRoom_padForOutput.countNodes_widens hd.kept.linked hd.ordered
      (hd.kept.coherent hc)).imp_good fun _ d' hd' => ?_
    have hw' := hd.trans hd'.1
    rw [ends_bind, Transform.ends_program]
    refine ⟨hw', fun hlays => ⟨asks, ?_, fun h id => ?_⟩, hd'.2⟩
    · refine anyAsked_widened hw' hlays (fun id hid => (hw'.ordered.mem id).mp hid) ?_
      rw [hw'.order, hasks]
    · exact makesRoom_padForSize.kept (hsized h id) hd'.1
  dsimp only
  split
  case isTrue =>
    rw [ends_bind]
    exact (makesRoom_padForSize.countNodes_widens (c := { c with program := q }) hw.kept.linked
      hw.ordered hfill.coherent).imp_good fun sized d hd =>
        hrest d sized (hw.trans hd.1) fun _ => hd.2
  case isFalse h => exact hrest _ 0 hw fun h' => absurd h' h

/-- **Where there is room, the pass does nothing.** -/
theorem padInputs_rests (h : Spacious c.program) (hlays : c.program.LaysReorders) : Ends padInputs
    (fun stats c' => stats = PassStats.ofCounts 0 0 ∧ Filled c.program c'.program)
    (fun _ _ => False) c := by
  obtain ⟨b, hb, hsized⟩ := h.sized hlays
  rw [padInputs, ends_bind, Transform.ends_program, ends_bind, Transform.ends_liftM]
  refine (anyAsksForSize_ends _ hl hc).imp (fun asks q hq => ?_) fun _ _ he => he.2 b hb
  obtain ⟨hfill, hasks⟩ := hq
  obtain rfl : asks = b := Except.ok.inj (hasks.symm.trans hb)
  have hrest : ∀ d : Compilation, Filled c.program d.program →
      Ends (do
        let rest ← Transform.countNodes fun id => padForOutput id
        return PassStats.ofCounts (0 + rest) (c.program.size - (← Transform.program).size))
        (fun stats c' => stats = PassStats.ofCounts 0 0 ∧ Filled c.program c'.program)
        (fun _ _ => False) d := by
    intro d hd
    have hw : Widened c.program d.program := .of_filled hd hl hp
    rw [ends_bind]
    refine (makesRoom_padForOutput.countNodes_rests hw.kept.linked hw.ordered hd.coherent
      (hd.laysReorders hl hlays) fun id => makesRoom_padForOutput.kept (h.output id) hw).imp_good
      fun rest d' hd' => ?_
    obtain ⟨rfl, hfill'⟩ := hd'
    have hids := congrArg List.length (ids_of_uncached (hd.trans hfill').same)
    rw [ids, ids, List.length_map, List.length_map] at hids
    rw [ends_bind, Transform.ends_program]
    refine ⟨?_, hd.trans hfill'⟩
    rw [size, size, hids, Nat.sub_self]
  have hw : Widened c.program q := .of_filled hfill hl hp
  dsimp only
  split
  case isTrue hasked =>
    rw [ends_bind]
    refine (makesRoom_padForSize.countNodes_rests (c := { c with program := q }) hw.kept.linked
      hw.ordered hfill.coherent (hfill.laysReorders hl hlays)
      fun id => makesRoom_padForSize.kept (hsized hasked id) hw).imp_good fun sized d hd => ?_
    obtain ⟨rfl, hfill'⟩ := hd
    exact hrest d (hfill.trans hfill')
  case isFalse => exact hrest _ hfill

end Run

/-- **Padding only grows, and one run pads all.**  Behind the pass every node asks for no less padding,
and has its layout from before but for more padding.  If reorders can be laid out there no layout is
lost, and the pass once more does nothing. -/
theorem padding_settles {env : Environment} {c c' : Compilation} {stats : PassStats}
    (hw : c.program.WellFormed) (ho : c.program.isOrdered = true) (hc : c.program.Coherent)
    (hrun : (Pass.padding.run env).run.run c = (.ok stats, c')) :
    (∀ id n, c.program.node? id = some n → ∃ n', c'.program.node? id = some n' ∧
      n.padding.Within n'.padding ∧ ∀ l', c'.program.freshLayout id = .ok l' →
        ∃ l, c.program.freshLayout id = .ok l ∧ l'.size = l.size ∧ l'.format = l.format ∧
          l.padding.Within l'.padding) ∧
    (c'.program.LaysReorders →
      (∀ id l, c.program.freshLayout id = .ok l → ∃ l', c'.program.freshLayout id = .ok l') ∧
      ∃ stats' c'', (Pass.padding.run env).run.run c' = (.ok stats', c'') ∧
        stats'.changed = false ∧ c''.program.uncached = c'.program.uncached) := by
  have hp := (isOrdered_iff hw.toLinked).mp ho
  have hends := padInputs_widens hw.toLinked hp hc
  change padInputs.run.run c = _ at hrun
  rw [Ends, hrun] at hends
  obtain ⟨hwide, hspace⟩ := hends
  refine ⟨fun id n hn => ?_, fun hlays => ⟨fun id l hl => ?_, ?_⟩⟩
  · obtain ⟨padding, hwithin, htask⟩ := hwide.tasks id _ (taskOf_of_node? hn)
    rw [taskOf, Option.map_eq_some_iff] at htask
    obtain ⟨n', hn', htask⟩ := htask
    have hpadding : n'.padding = padding := congrArg Task.padding htask
    refine ⟨n', hn', hpadding ▸ hwithin, fun l' hl' => ?_⟩
    obtain ⟨l, hl, hwiden⟩ := (hwide.layouts id (contains_of_node? hn)).narrowed l' hl'
    exact ⟨l, hl, hwiden.size, hwiden.format, hwiden.padding⟩
  · obtain ⟨l', hl', -⟩ := (hwide.layouts id (contains_of_freshLayout hl)).widened hlays l hl
    exact ⟨l', hl'⟩
  · obtain ⟨stats', c'', hagain, rfl, hfill⟩ := (padInputs_rests hwide.kept.linked hwide.ordered
      (hwide.kept.coherent hc) hspace hlays).exists_ok
    exact ⟨_, c'', hagain, rfl, hfill.same⟩

end Pass

/-- An input, a result that two convolutions read, and one that reads the input. -/
def Topology.fanned : Topology :=
  ⟨[⟨"x", Padding.none, .inputLayout (.dense .f32 .bfyx ⟨1, 1, 2, 2⟩)⟩,
    ⟨"w", Padding.none, .inputLayout (.dense .f32 .oiyx ⟨1, 1, 1, 1⟩)⟩,
    ⟨"s", Padding.none, .softmax ⟨"x", .x⟩⟩,
    ⟨"a", Padding.none, .convolution ⟨"s", ["w"], [], Planar.one, Planar.one, ⟨-1, 0⟩, none,
      Activation.none⟩⟩,
    ⟨"b", Padding.none, .convolution ⟨"s", ["w"], [], Planar.one, Planar.one, ⟨0, -1⟩, none,
      Activation.none⟩⟩,
    ⟨"c", Padding.none, .convolution ⟨"x", ["w"], [], Planar.one, Planar.one, ⟨-1, -1⟩, none,
      Activation.none⟩⟩]⟩

/-- The result is padded for both, the input by a reorder, and then there is nothing left to pad. -/
theorem Pass.padding_settles_fanned : ∃ stats c',
    (Pass.padding.run ⟨.builtin .default, none, false⟩).run.run
      (.exposing .fanned ["a", "b", "c"]) = (.ok stats, c') ∧
    stats.applied = 3 ∧ c'.program.depsOf "c" = ["reorder_input_c", "w"] ∧
    (c'.program.freshLayout "s").toOption.map (·.padding) = some (Padding.spatial 1 1 1 1) ∧
    ∃ stats' c'', (Pass.padding.run ⟨.builtin .default, none, false⟩).run.run c' = (.ok stats', c'') ∧
      stats'.changed = false ∧ c''.program.uncached = c'.program.uncached := by
  have hdistinct : Topology.fanned.Distinct := by unfold Topology.Distinct; decide
  obtain ⟨hw, hc⟩ := Compilation.exposing_spec hdistinct ["a", "b", "c"]
  obtain ⟨stats, c', hrun, hresult⟩ := exists_run_of_map
    (x := Pass.padding.run ⟨.builtin .default, none, false⟩)
    (s := .exposing .fanned ["a", "b", "c"])
    (f := fun stats c' => (stats.applied, c'.program.depsOf "c",
      (c'.program.freshLayout "s").toOption.map (·.padding),
      c'.program.behaviours.kinds.contains .reorder))
    (b := (3, ["reorder_input_c", "w"], some (Padding.spatial 1 1 1 1), true)) (by decide +kernel)
  obtain ⟨happlied, hdeps, hpadding, hreg⟩ := by simpa only [Prod.mk.injEq] using hresult
  obtain ⟨-, hagain⟩ := padding_settles hw (by decide +kernel) hc hrun
  exact ⟨stats, c', hrun, happlied, hdeps, hpadding,
    (hagain fun _ _ => ⟨.reorder, if_pos hreg⟩).2⟩

/-- **Reorders that cannot be laid out.**  The pass puts one in front of a convolution all the same,
and once more it stops at it. -/
theorem Pass.padding_unregistered : ∃ p,
    Program.ofTopology .fanned (.ofList [.inputLayout, .softmax, .convolution]) = .ok p ∧
    p.WellFormed ∧ p.isOrdered = true ∧ p.Coherent ∧ ∃ stats c',
      (Pass.padding.run ⟨.builtin .default, none, false⟩).run.run ⟨p, .initial, ⟨.unset, []⟩⟩
        = (.ok stats, c') ∧
      ((Pass.padding.run ⟨.builtin .default, none, false⟩).run.run c').1
        = .error (.invalidGraph (.unregistered .reorder)) := by
  have hdistinct : Topology.fanned.Distinct := by unfold Topology.Distinct; decide
  have hruns : (Program.ofTopology .fanned (.ofList [.inputLayout, .softmax, .convolution])).map
      (fun p => (p.isOrdered, ((Pass.padding.run ⟨.builtin .default, none, false⟩).run.run
        ⟨p, .initial, ⟨.unset, []⟩⟩).1.toBool,
        ((Pass.padding.run ⟨.builtin .default, none, false⟩).run.run
          ((Pass.padding.run ⟨.builtin .default, none, false⟩).run.run
            ⟨p, .initial, ⟨.unset, []⟩⟩).2).1))
      = .ok (true, true, .error (.invalidGraph (.unregistered .reorder))) := by decide +kernel
  cases hp : Program.ofTopology .fanned (.ofList [.inputLayout, .softmax, .convolution]) with
  | error e =>
    rw [hp] at hruns
    cases hruns
  | ok p =>
    rw [hp] at hruns
    obtain ⟨hordered, hfirst, hsecond⟩ := by
      simpa only [Prod.mk.injEq] using Except.ok.inj hruns
    have hbuilt := Program.built_of_ofTopology hdistinct hp
    obtain ⟨stats, hrun⟩ := exists_run_eq_ok hfirst
    exact ⟨p, rfl, hbuilt.wellFormed, hordered, hbuilt.coherent, stats, _, hrun, hsecond⟩

end NetPlan
