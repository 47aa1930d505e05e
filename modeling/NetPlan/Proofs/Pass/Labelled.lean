import NetPlan.Proofs.Pass.Rendering
import NetPlan.Proofs.Pass.Rewrite

/-!
# Proofs/Pass/Labelled — reorders on record make what they are on record for

A reorder on record may be taken for a later request only if it still makes the layout it was made for
(`Labelled`).  It would not if it were merged into a reorder that reads it.  None does: every slot is
asked for once, before anything on record is read there (`Clear`), so the sources on record are no
reorders on record, and none of these is an output (`Shelved`).

`labelled_front` — up to the binding every reorder on record is labelled.
-/

namespace NetPlan

open Program Edit Preferences

namespace Pass

variable {p q r : Program} {m m' m'' : List Entry} {c : Compilation} {env : Environment}
  {id input next u : String} {index i : Nat} {made : Option String}

/-! ## Labels -/

/-- A reorder on record that is in the graph makes the layout it is on record for. -/
def Labelled (p : Program) (m : List Entry) : Prop :=
  ∀ e ∈ m, p.isReorder e.2.id →
    p.shapeOf e.2.id = some (.reorder ⟨"", e.1.2.format, e.1.2.element, []⟩)

theorem labelled_nil (p : Program) : Labelled p [] := fun _ he => absurd he List.not_mem_nil

/-- **It does so as long as no reorder becomes another.** -/
theorem Labelled.of_shapes (h : Labelled p m)
    (hq : ∀ e ∈ m, q.isReorder e.2.id → q.shapeOf e.2.id = p.shapeOf e.2.id) : Labelled q m :=
  fun e he hr => by
    have hshape := hq e he hr
    rw [hshape]
    exact h e he (by rwa [isReorder, ← hshape])

theorem Labelled.sameGraph (h : Labelled p m) (hq : SameGraph p q) : Labelled q m :=
  h.of_shapes fun _ _ _ => by rw [hq.shapes]

/-- A new reorder is labelled. -/
theorem Labelled.inserted {e : Entry} (h : Labelled p m) (hm : Numbered m') (he : e ∈ m')
    (hold : ∀ e' ∈ m', e' ∈ m ∨ e' = e) (hq : Inserted p q e.2 next index e.1.1) :
    Labelled q m' := fun e' he' hr => by
  by_cases hid : e'.2.id = e.2.id
  · rw [hq.shapes, if_pos hid, hm.eq_of_id he' he hid, hm.reorder_of_mem he]
    rfl
  · have hmem := (hold e' he').resolve_right fun heq => hid (by rw [heq])
    rw [isReorder, hq.shapes, if_neg hid] at hr
    rw [hq.shapes, if_neg hid]
    exact h e' hmem hr

/-- **Answered requests leave all labelled.** -/
theorem Labelled.served (h : Labelled p m) (hm : Numbered m)
    (hq : Served p q m m' next index made) : Labelled q m' := by
  obtain ⟨rfl, rfl⟩ | ⟨e, he, hins, hold⟩ | ⟨rfl, e, -, hshare⟩ := hq.cases hm
  · exact h
  · exact h.inserted (hq.numbered hm) he hold hins
  · exact h.of_shapes fun _ _ _ => by rw [hshare.shapes]

/-- A reorder that padding puts in front of a node is not on record. -/
theorem Labelled.padded (h : Labelled p m) (hm : Numbered m) (hq : Padded p q id) :
    Labelled q m := by
  cases hq with
  | none same => exact same ▸ h
  | producer input padding work kept =>
    refine h.of_shapes fun e _ _ => ?_
    rw [work.shapes (k := fun op => op) fun _ => rfl, Option.map_id', ite_self]
  | reorder prim source layout padding reader shape named inserted =>
    refine h.of_shapes fun e he _ => ?_
    obtain ⟨rest, hrest⟩ := named
    obtain ⟨k, hk⟩ := List.mem_iff_getElem?.mp he
    obtain ⟨-, rest', hrest'⟩ := hm k e hk
    rw [inserted.shapes, if_neg fun hid : e.2.id = prim.id =>
      input_ne_reorderId (hrest.symm.trans (hid.symm.trans hrest'))]

theorem Labelled.folded (h : Labelled p m) (hq : Folded p q id) : Labelled q m := by
  obtain ⟨prim, ⟨l, v, hprim⟩, hreplaced⟩ := hq.steps
  refine h.of_shapes fun e _ hr => ?_
  rw [hreplaced.shapes, if_neg (hreplaced.isReorder_of (by rw [hprim]; exact nofun) hr).1]

theorem Labelled.removed (h : Labelled p m) (hq : Removed p q id) : Labelled q m :=
  h.of_shapes fun e _ hr => by rw [hq.shapes, if_neg (hq.isReorder_of hr).1]

/-! ## Reorders on record that stay what they are -/

/-- The reorders on record are labelled, none of them is an output, and no reorder reads one. -/
structure Shelved (p : Program) (m : List Entry) : Prop extends Based p m where
  labelled : Labelled p m
  unmarked : ∀ e ∈ m, p.isMarked e.2.id = false
  unread : ∀ e ∈ m, ∀ u, e.2.id ∈ p.depsOf u → ¬ p.isReorder u

theorem shelved_nil (h : Based p []) : Shelved p [] :=
  ⟨h, labelled_nil p, fun _ he => absurd he List.not_mem_nil, fun _ he => absurd he List.not_mem_nil⟩

theorem Shelved.touched (h : Shelved p m) (hq : Touched p q) : Shelved q m where
  toBased := Rewrite.based h.toBased (.touched hq.toReflagged)
  labelled := h.labelled.sameGraph hq.toSameGraph
  unmarked e he := by rw [hq.marks, h.unmarked e he]
  unread e he u hu := by
    rw [hq.deps] at hu
    rw [isReorder, hq.shapes]
    exact h.unread e he u hu

/-- **Two nodes become one**, the second of them a reorder: neither is on record then. -/
theorem Shelved.contracted {g : Task → Task} (h : Shelved p m) (hq : Contracted p q id input g)
    (hbased : Based q m) (hid : p.isReorder id)
    (hg : q.isReorder (survivor p id input) → p.isReorder input) : Shelved q m := by
  have hinput : ∀ e ∈ m, e.2.id ≠ input := fun e he heq =>
    h.unread e he id (by rw [hq.only, heq]; exact List.mem_singleton_self input) hid
  have hsurvivor : ∀ e ∈ m, e.2.id ≠ survivor p id input := fun e he heq => by
    unfold survivor at heq
    split at heq
    case isTrue hmarked =>
      rw [← heq, h.unmarked e he] at hmarked
      cases hmarked
    case isFalse => exact hinput e he heq
  have hread : ∀ e ∈ m, ∀ d, onto p id input d = e.2.id → d = e.2.id := fun e he d hd => by
    unfold onto at hd
    split at hd
    · exact absurd hd.symm (hsurvivor e he)
    · exact hd
  refine ⟨hbased, h.labelled.of_shapes fun e he hr => ?_, fun e he => ?_, fun e he u hu hr => ?_⟩
  · obtain ⟨hne, hne', -⟩ :=
      (hq.exists_onto (contains_of_isReorder hr)).resolve_left (hsurvivor e he)
    rw [shapeOf_eq_taskOf, hq.tasks _ hne hne', ← shapeOf_eq_taskOf]
  · rw [hq.marks, h.unmarked e he]
  · rcases hq.exists_onto (contains_of_isReorder hr) with rfl | ⟨hne, hne', -⟩
    · rw [hq.reads] at hu
      exact h.unread e he input hu (hg hr)
    · rw [hq.deps u hne hne'] at hu
      obtain ⟨d, hd, honto⟩ := List.mem_map.mp hu
      rw [isReorder, shapeOf_eq_taskOf, hq.tasks u hne hne', ← shapeOf_eq_taskOf] at hr
      exact h.unread e he u (hread e he d honto ▸ hd) hr

theorem Shelved.merged {selector : Option Selector} (h : Shelved p m)
    (hq : Rebound selector p q id) : Shelved q m := by
  obtain ⟨input, format, element, padding, absorbed, t, r, hcon, htask, ht, hr, -⟩ :=
    hq.toMerged.contracted h.linked
  refine h.contracted hcon (Rewrite.based h.toBased (.merged hq))
    ⟨⟨"", format, element, []⟩, ?_⟩ fun _ => ⟨r, ?_⟩
  · rw [shapeOf_eq_taskOf, htask, Option.map_some]
  · rw [shapeOf_eq_taskOf, ht, Option.map_some, hr]

theorem Shelved.dropped (h : Shelved p m) (hq : Dropped p q id input) : Shelved q m := by
  have hcon := hq.extracted.contracted h.linked
  refine h.contracted hcon (Rewrite.based h.toBased (.dropped hq)) hq.copy.isReorder fun hr => ?_
  rwa [isReorder, shapeOf_eq_taskOf, hcon.task, Option.map_id', ← shapeOf_eq_taskOf] at hr

/-! ## Slots that nothing on record was put into -/

/-- What the node reads in the slot is not on record. -/
def Clear (p : Program) (m : List Entry) (u : String) (i : Nat) : Prop :=
  ∀ e ∈ m, (p.depsOf u)[i]? ≠ some e.2.id

/-- From one graph to another requests were answered in some slots of weighted nodes: reorders on record
are still shelved, and the other slots are as clear as they were. -/
structure Advanced (visited : String → Nat → Prop) (p q : Program) (m m' : List Entry) : Prop where
  shelved : Shelved q m'
  weighted : ∀ u, q.isWeighted u → q.shapeOf u = p.shapeOf u
  clear : ∀ u i, ¬ visited u i → Clear p m u i → Clear q m' u i

namespace Advanced

variable {visited visited' : String → Nat → Prop}

theorem refl (h : Shelved p m) : Advanced visited p p m m :=
  ⟨h, fun _ _ => rfl, fun _ _ _ hc => hc⟩

theorem touched (h : Shelved p m) (hq : Touched p q) : Advanced visited p q m m :=
  ⟨h.touched hq, fun _ _ => by rw [hq.shapes], fun u i _ hc => by rwa [Clear, hq.deps]⟩

theorem isWeighted (h : Advanced visited p q m m') (hu : q.isWeighted u) : p.isWeighted u :=
  (isWeighted_congr (h.weighted u hu)).mp hu

theorem trans (h : Advanced visited p q m m') (h' : Advanced visited' q r m' m'') :
    Advanced (fun u i => visited u i ∨ visited' u i) p r m m'' where
  shelved := h'.shelved
  weighted u hu := (h'.weighted u hu).trans (h.weighted u (h'.isWeighted hu))
  clear u i hnot hc :=
    h'.clear u i (fun hv => hnot (Or.inr hv)) (h.clear u i (fun hv => hnot (Or.inl hv)) hc)

theorem imp (h : Advanced visited p q m m') (hv : ∀ u i, visited u i → visited' u i) :
    Advanced visited' p q m m' :=
  ⟨h.shelved, h.weighted, fun u i hnot => h.clear u i fun hvu => hnot (hv u i hvu)⟩

end Advanced

/-- **A clear slot can be asked for**: what goes in front of it reads nothing on record. -/
theorem Shelved.served (h : Shelved p m) (hnext : p.isWeighted next)
    (hclear : Clear p m next index) (hq : Served p q m m' next index made) :
    Advanced (fun u i => u = next ∧ i = index) p q m m' := by
  have hbased := Rewrite.based h.toBased (.served hnext hq)
  have hlabelled := h.labelled.served h.numbered hq
  obtain ⟨rfl, rfl⟩ | ⟨e, he, hins, hold⟩ | ⟨rfl, e, -, hshare⟩ := hq.cases h.numbered
  · exact .refl h
  · have hargs : e.2.arguments = [e.1.1] := by
      rw [hbased.numbered.reorder_of_mem he]
      rfl
    -- nothing read the new reorder before, and it reads nothing on record
    have hfree : ∀ u, e.2.id ∉ p.depsOf u := fun u hu => hins.free (h.linked.contains_dep hu)
    have hsource : ∀ e' ∈ m', e'.2.id ≠ e.1.1 := fun e' he' heq => by
      rcases hold e' he' with hmem | rfl
      · exact hclear e' hmem (by rw [hins.source_eq, heq])
      · exact hins.free (heq ▸ hins.known _ hins.consumes)
    have hread : ∀ e' ∈ m', ∀ u, e'.2.id ∈ p.depsOf u → e' ∈ m := fun e' he' u hu =>
      (hold e' he').resolve_right fun heq => hfree u (heq ▸ hu)
    refine ⟨⟨hbased, hlabelled, fun e' he' => ?_, fun e' he' u hu hr => ?_⟩, fun u hu => ?_,
      fun u i hnot hc e' he' hd => ?_⟩
    · rw [hins.marks]
      rcases hold e' he' with hmem | rfl
      · exact h.unmarked e' hmem
      · rw [isMarked, node?_eq_none.mpr hins.free]
        rfl
    · rw [hins.deps] at hu
      rw [isReorder, hins.shapes] at hr
      split at hu
      · rw [hargs, List.mem_singleton] at hu
        exact hsource e' he' hu
      case isFalse hne =>
      rw [if_neg hne] at hr
      split at hu
      case isTrue heq => exact hnext.not_isReorder (heq ▸ hr)
      case isFalse => exact h.unread e' (hread e' he' u hu) u hu hr
    · obtain ⟨op, hop, hk⟩ := hu
      rw [hins.shapes] at hop ⊢
      split
      case isTrue heq =>
        rw [if_pos heq, hbased.numbered.reorder_of_mem he] at hop
        rw [← Option.some.inj hop] at hk
        cases hk
      case isFalse => rfl
    · rw [hins.deps] at hd
      split at hd
      · rw [hargs] at hd
        exact hsource e' he' (List.mem_singleton.mp (List.mem_of_getElem? hd))
      · split at hd
        case isTrue heq =>
          rw [List.getElem?_set_ne fun hi : index = i => hnot ⟨heq, hi.symm⟩] at hd
          exact hc e' (hread e' he' u (List.mem_of_getElem? hd)) hd
        case isFalse => exact hc e' (hread e' he' u (List.mem_of_getElem? hd)) hd
  · refine ⟨⟨hbased, hlabelled, fun e' he' => ?_, fun e' he' u hu hr => ?_⟩, fun u _ => ?_,
      fun u i hnot hc e' he' hd => ?_⟩
    · rw [hshare.marks, h.unmarked e' he']
    · rw [isReorder, hshare.shapes] at hr
      rw [hshare.deps, if_neg fun heq : u = next => hnext.not_isReorder (heq ▸ hr)] at hu
      exact h.unread e' he' u hu hr
    · rw [hshare.shapes]
    · rw [hshare.deps] at hd
      split at hd
      case isTrue heq =>
        rw [List.getElem?_set_ne fun hi : index = i => hnot ⟨heq, hi.symm⟩] at hd
        exact hc e' he' hd
      case isFalse => exact hc e' he' hd

/-! ## The slots of a node, and of every node -/

/-- The slots are those of one node. -/
def SlotsOf (id : String) (wanted : List (Role × Nat)) (u : String) (i : Nat) : Prop :=
  u = id ∧ ∃ role, (role, i) ∈ wanted

theorem advanced_reorderDependencies (kind : OpKind) (output : Layout) :
    ∀ (wanted : List (Role × Nat)) (c : Compilation), Shelved c.program c.preferences.made →
      c.program.isWeighted id → (wanted.map (·.2)).Nodup →
      (∀ x ∈ wanted, Clear c.program c.preferences.made id x.2) →
      Ends (reorderDependencies id kind output wanted)
        (fun _ c' => Advanced (SlotsOf id wanted) c.program c'.program c.preferences.made
          c'.preferences.made) (fun e _ => e.closes = false) c
  | [], _, h, _, _, _ => .refl h
  | (role, index) :: wanted, c, h, hid, hslots, hclear => by
      rw [List.map_cons, List.nodup_cons] at hslots
      rw [reorderDependencies, ends_bind]
      refine (reorderDependency_effect kind output role h.linked h.coherent
        hid.not_isReorder).imp_good fun _ d hd => ?_
      obtain ⟨p', made, hfill, ⟨hserved, -, -⟩⟩ := hd
      have htouch := hfill.touched h.linked
      have hid' := (isWeighted_congr (congrFun htouch.shapes id)).mpr hid
      have hstart : Advanced (fun _ _ => False) c.program p' c.preferences.made
          c.preferences.made := .touched h htouch
      have hstep := hstart.shelved.served hid'
        (hstart.clear id index (fun hf => hf) (hclear _ List.mem_cons_self)) hserved
      rw [ends_bind]
      refine (advanced_reorderDependencies kind output wanted d hstep.shelved
        ((isWeighted_congr hserved.shape_next).mpr hid') hslots.2 fun x hx => ?_).imp_good
        fun _ d' hd' => ?_
      · refine hstep.clear id x.2 (fun hv => hslots.1 ?_)
          (hstart.clear id x.2 (fun hf => hf) (hclear x (List.mem_cons_of_mem _ hx)))
        exact List.mem_map.mpr ⟨x, hx, hv.2⟩
      · refine ((hstart.trans hstep).trans hd').imp fun u i hv => ?_
        rcases hv with (hf | ⟨rfl, rfl⟩) | ⟨hu, role', hmem⟩
        · exact hf.elim
        · exact ⟨rfl, role, List.mem_cons_self⟩
        · exact ⟨hu, role', List.mem_cons_of_mem _ hmem⟩

/-- The slots that are asked for are those of weighted nodes of the graph. -/
def SlotsIn (slots : Operation → List (Role × Nat)) (p : Program) (u : String) (i : Nat) : Prop :=
  ∃ op role, p.shapeOf u = some op ∧ op.kind.isWeighted = true ∧ (role, i) ∈ slots op

/-- **Every slot is asked for once.** -/
theorem advanced_reorderSlots (slots : Operation → List (Role × Nat))
    (hweighted : ∀ op, slots op ≠ [] → op.kind.isWeighted = true)
    (hshape : ∀ op, slots op.shape = slots op) (hnodup : ∀ op, ((slots op).map (·.2)).Nodup) :
    ∀ (ids : List String) (c : Compilation), Shelved c.program c.preferences.made → ids.Nodup →
      (∀ u ∈ ids, ∀ i, SlotsIn slots c.program u i → Clear c.program c.preferences.made u i) →
      Ends (reorderSlots slots ids)
        (fun _ c' => Advanced (SlotsIn slots c.program) c.program c'.program c.preferences.made
          c'.preferences.made) (fun e _ => e.closes = false) c
  | [], _, h, _, _ => .refl h
  | id :: ids, c, h, hids, hclear => by
      obtain ⟨hnot, hids⟩ := List.nodup_cons.mp hids
      -- what the rest of the nodes is asked for does not depend on what `id` was asked for
      have hrest : ∀ (here : Nat) (d : Compilation) (visited : String → Nat → Prop),
          (∀ u i, visited u i → u = id ∧ SlotsIn slots c.program u i) →
          Advanced visited c.program d.program c.preferences.made d.preferences.made →
          Ends (do
            let further ← reorderSlots slots ids
            return here + further : Transform Nat)
            (fun _ c' => Advanced (SlotsIn slots c.program) c.program c'.program c.preferences.made
              c'.preferences.made) (fun e _ => e.closes = false) d := by
        intro here d visited hvisited hd
        have hback : ∀ u i, SlotsIn slots d.program u i → SlotsIn slots c.program u i := by
          rintro u i ⟨op, role, hop, hk, hmem⟩
          exact ⟨op, role, (hd.weighted u ⟨op, hop, hk⟩).symm.trans hop, hk, hmem⟩
        rw [ends_bind]
        refine (advanced_reorderSlots slots hweighted hshape hnodup ids d hd.shelved hids
          fun u hu i hv => ?_).imp_good fun _ d' hd' => (hd.trans hd').imp fun u i hv => ?_
        · refine hd.clear u i (fun hvu => hnot ?_) (hclear u (List.mem_cons_of_mem _ hu) i
            (hback u i hv))
          rw [← (hvisited u i hvu).1]
          exact hu
        · exact hv.elim (fun hvu => (hvisited u i hvu).2) (hback u i)
      rw [reorderSlots, ends_bind, Transform.ends_liftM, ends_node]
      refine ⟨fun n hn => ?_, fun _ => rfl⟩
      dsimp only
      split
      · exact hrest 0 c (fun _ _ => False) (fun _ _ hf => hf.elim) (.refl h)
      case isFalse hwanted =>
        have hop : c.program.shapeOf id = some n.operation.shape := by
          rw [shapeOf, hn, Option.map_some]
        have hk : n.operation.shape.kind.isWeighted = true := by
          rw [Operation.kind_shape]
          exact hweighted _ fun hnil => hwanted (List.isEmpty_iff.mpr hnil)
        have hslot : ∀ x ∈ slots n.operation, SlotsIn slots c.program id x.2 := fun x hx =>
          ⟨_, x.1, hop, hk, (hshape n.operation).symm ▸ hx⟩
        rw [ends_bind, Transform.ends_liftM]
        refine (layout_effect id h.coherent).imp_good fun output p' hp' => ?_
        have htouch := hp'.1.touched h.linked
        have hstart : Advanced (fun _ _ => False) c.program p' c.preferences.made
            c.preferences.made := .touched h htouch
        rw [ends_bind]
        refine (advanced_reorderDependencies n.kind output _ { c with program := p' } hstart.shelved
          ((isWeighted_congr (congrFun htouch.shapes id)).mpr ⟨_, hop, hk⟩) (hnodup _)
          fun x hx => hstart.clear id x.2 (fun hf => hf) (hclear id List.mem_cons_self x.2
            (hslot x hx))).imp_good fun here d hd => hrest here d _ (fun u i hv => ?_) (hstart.trans hd)
        obtain ⟨rfl, role, hmem⟩ := hv.resolve_left fun hf => hf
        exact ⟨rfl, hslot _ hmem⟩

/-! ## Passes -/

theorem isWeighted_of_preferredSlots {op : Operation} (h : preferredSlots op ≠ []) :
    op.kind.isWeighted = true := by
  cases op with
  | convolution | fusedConvBnScale | fullyConnected => rfl
  | _ => exact absurd rfl h

theorem isWeighted_of_biasSlots {op : Operation} (h : op.biasSlots ≠ []) :
    op.kind.isWeighted = true := by
  cases op with
  | convolution | fusedConvBnScale | fullyConnected => rfl
  | _ => exact absurd rfl h

theorem preferredSlots_shape (op : Operation) : preferredSlots op.shape = preferredSlots op := by
  unfold preferredSlots
  rw [Operation.weightSlots_shape]
  cases op <;> rfl

theorem nodup_preferredSlots (op : Operation) : ((preferredSlots op).map (·.2)).Nodup := by
  have hweights : ∀ k n : Nat, k ∉ List.range' (k + 1) n := fun k n hmem => by
    have := (List.mem_range'_1.mp hmem).1
    omega
  cases op <;>
    simp [preferredSlots, Operation.weightSlots, List.map_map, Function.comp_def,
      List.nodup_range', hweights]

theorem nodup_biasSlots (op : Operation) : op.biasSlots.Nodup := by
  cases op <;> simp [Operation.biasSlots, List.nodup_range']
  split <;> simp

/-- Weights and bias are in different slots. -/
theorem biasSlots_disjoint {op : Operation} {role : Role} {i : Nat} (hi : i ∈ op.biasSlots) :
    (role, i) ∉ preferredSlots op := by
  cases op <;> simp [preferredSlots, Operation.weightSlots, Operation.biasSlots] at hi ⊢ <;> omega

theorem advanced_reorderInputs (h : Shelved c.program c.preferences.made)
    (hclear : ∀ u i, Clear c.program c.preferences.made u i) :
    Ends reorderInputs
      (fun _ c' => Advanced (SlotsIn preferredSlots c.program) c.program c'.program
        c.preferences.made c'.preferences.made) (fun e _ => e.closes = false) c := by
  rw [reorderInputs, ends_bind, Transform.ends_program, ends_bind, Transform.ends_preferences,
    ends_bind, Transform.ends_setPreferences, ends_bind]
  exact (advanced_reorderSlots preferredSlots (fun _ => isWeighted_of_preferredSlots)
    preferredSlots_shape nodup_preferredSlots c.program.order.ids
    { c with preferences := ⟨c.program.nodes.any isGrouped, c.preferences.made⟩ } h
    h.linked.order_nodup fun u _ i _ => hclear u i).imp_good fun _ _ hd => hd

/-- The bias slots are clear when they are asked for. -/
theorem shelved_reorderBias (h : Shelved c.program c.preferences.made)
    (hclear : ∀ u op, c.program.shapeOf u = some op → ∀ i ∈ op.biasSlots,
      Clear c.program c.preferences.made u i) :
    Ends reorderBias (fun _ c' => Shelved c'.program c'.preferences.made)
      (fun e _ => e.closes = false) c := by
  rw [reorderBias, ends_bind, Transform.ends_program, ends_bind]
  refine (advanced_reorderSlots (fun op => op.biasSlots.map fun i => (Role.bias, i))
    (fun op hop => isWeighted_of_biasSlots fun hnil => hop (by rw [hnil, List.map_nil]))
    (fun op => by rw [Operation.biasSlots_shape]) (fun op => ?_) c.program.order.ids c h
    h.linked.order_nodup fun u _ i hi => ?_).imp_good fun _ _ hd => hd.shelved
  · rw [List.map_map]
    exact (List.map_id _).symm ▸ nodup_biasSlots op
  · obtain ⟨op, role, hop, -, hmem⟩ := hi
    obtain ⟨_, hmem, heq⟩ := List.mem_map.mp hmem
    cases heq
    exact hclear u op hop i hmem

/-- **Putting slots into preferred layouts** leaves the reorders on record shelved. -/
theorem shelved_requests (h : Based c.program c.preferences.made) (hm : c.preferences.made = []) :
    Ends (runSteps env [.pass .inputReorders, .pass .biasReorders])
      (fun _ c' => Shelved c'.program c'.preferences.made) (fun e _ => e.closes = false) c := by
  have hstart : Shelved c.program c.preferences.made := by
    rw [hm] at h ⊢
    exact shelved_nil h
  have hclear : ∀ u i, Clear c.program c.preferences.made u i := fun u i e he => by
    rw [hm] at he
    cases he
  refine ends_runSteps_pass (advanced_reorderInputs hstart hclear) fun c₁ h₁ =>
    ends_runSteps_last (shelved_reorderBias h₁.shelved fun u op hop i hi => ?_)
  refine h₁.clear u i (fun hvisited => ?_) (hclear u i)
  obtain ⟨op', role', hop', -, hmem⟩ := hvisited
  have hk : op.kind.isWeighted = true := isWeighted_of_biasSlots (List.ne_nil_of_mem hi)
  rw [h₁.weighted u ⟨op, hop, hk⟩, hop'] at hop
  cases hop
  exact biasSlots_disjoint hi hmem

/-- **The passes in front of the binding** leave all labelled. -/
theorem labelled_front {optimize : Bool} (h : Based c.program c.preferences.made)
    (hm : c.preferences.made = []) :
    Ends (runSteps env ((front optimize).map Step.pass))
      (fun _ c' => Labelled c'.program c'.preferences.made) (fun e _ => e.closes = false) c := by
  cases optimize with
  | false =>
    refine (rewrites_runSteps env (front false) c (isRewriting_front false) h).imp_good
      fun _ c' hc => ?_
    rw [hc.2 (by decide), hm]
    exact labelled_nil _
  | true =>
    have hfront : (front true).map Step.pass
        = ([.trim, .layouts, .fusion] : List Pass).map Step.pass
          ++ ([Step.pass .inputReorders, .pass .biasReorders]
            ++ [Step.pass .redundantReorders, .pass .padding, .pass .constants]) := rfl
    rw [hfront, ends_runSteps_append (I := fun c' => Labelled c'.program c'.preferences.made)]
    refine (rewrites_runSteps env [.trim, .layouts, .fusion] c (by decide) h).imp_good fun _ c₁ h₁ => ?_
    rw [ends_runSteps_append]
    refine (shelved_requests h₁.1.toBased (by rw [h₁.2 (by decide), hm])).imp_good fun _ c₂ h₂ => ?_
    refine ends_runSteps_pass (removeRedundantReorders_ends env (Shelved · c₂.preferences.made)
      (fun hp => ⟨hp.linked, hp.coherent, hp.ranked⟩) (fun hp hq => hp.touched hq)
      (fun hp hq => hp.merged hq) (fun hp hq => hp.dropped hq) h₂) fun c₃ h₃ => ?_
    obtain ⟨h₃, hpref₃⟩ := h₃
    refine ends_runSteps_pass (padInputs_ends
      (fun p => Based p c₂.preferences.made ∧ Labelled p c₂.preferences.made)
      (fun hp => ⟨hp.1.linked, hp.1.coherent⟩)
      (fun hp hq => ⟨Rewrite.based hp.1 (.touched hq.toReflagged), hp.2.sameGraph hq.toSameGraph⟩)
      (fun hp hq => ⟨Rewrite.based hp.1 (.padded hq), hp.2.padded hp.1.numbered hq⟩)
      ⟨h₃.toBased, h₃.labelled⟩) fun c₄ h₄ => ends_runSteps_last ?_
    obtain ⟨h₄, hpref₄⟩ := h₄
    refine (propagateConstants_ends env
      (fun p => Based p c₂.preferences.made ∧ Labelled p c₂.preferences.made)
      (fun hp => ⟨hp.1.linked, hp.1.coherent⟩)
      (fun hp hq => ⟨Rewrite.based hp.1 (.touched hq), hp.2.sameGraph hq.toSameGraph⟩)
      (fun hp hq => ⟨Rewrite.based hp.1 (.folded hq), hp.2.folded hq⟩)
      (fun hp hunread hmark hq => ⟨Rewrite.based hp.1 (.swept hunread hmark hq), hp.2.removed hq⟩)
      h₄).imp_good fun _ c₅ h₅ => ?_
    rw [h₅.2, hpref₄, hpref₃]
    exact h₅.1.2

end Pass

end NetPlan
