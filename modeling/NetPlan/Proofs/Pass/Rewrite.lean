import NetPlan.Proofs.Pass.Coherence
import NetPlan.Proofs.Pass.Pipeline

/-!
# Proofs/Pass/Rewrite — passes as sequences of rewrites

Whatever a pass does to the graph before nodes are bound, and in the rounds of cleanup behind that, it
does by the rewrites of `Rewrite`, one after another (`rewrites_run`).  So an invariant of single
rewrites is one of every such pass, of a fixed point of them, and of the whole way to the binding
(`rewrites_runSteps`).
-/

namespace NetPlan

open Program Edit Preferences

theorem Edit.Cleared.ranked {p q : Program} {doomed : List String} (h : Cleared p q doomed)
    (hp : p.Ranked) : q.Ranked := by
  have hold : ∀ {j}, q.isReorder j → p.isReorder j := by
    rintro j ⟨r, hr⟩
    rw [h.shapes] at hr
    split at hr
    · cases hr
    · exact ⟨r, hr⟩
  refine hp.of_edges fun u d hd hrd hru => ⟨?_, hold hrd, hold hru⟩
  rw [h.deps] at hd
  split at hd
  · cases hd
  · exact List.mem_of_mem_filter hd

namespace Pass

variable {p q : Program} {m m' : List Entry} {c : Compilation} {env : Environment}

/-- One rewrite of a graph; what is on record changes where a request for a layout is answered. -/
inductive Rewrite (p : Program) (m : List Entry) : Program → List Entry → Prop where
  | touched {q : Program} (h : Reflagged p q) : Rewrite p m q m
  | sorted {q : Program} (h : Reordered p q) : Rewrite p m q m
  | cleared {q : Program} {doomed : List String} (h : Cleared p q doomed)
      (unmarked : p.WellFormed → ∀ j ∈ doomed, p.isMarked j = false) : Rewrite p m q m
  | fused {q : Program} {id norm scale : String} {prim : Primitive}
      (h : Fused p q id norm scale prim) : Rewrite p m q m
  | absorbed {q : Program} {id input : String} (h : Absorbed p q id input) : Rewrite p m q m
  | merged {q : Program} {selector : Option Selector} {id : String} (h : Rebound selector p q id) :
    Rewrite p m q m
  | dropped {q : Program} {id input : String} (h : Dropped p q id input) : Rewrite p m q m
  | served {q : Program} {m' : List Entry} {next : String} {index : Nat} {made : Option String}
      (weighted : p.isWeighted next)
      (h : Served p q m m' next index made) : Rewrite p m q m'
  | padded {q : Program} {id : String} (h : Padded p q id) : Rewrite p m q m
  | folded {q : Program} {id : String} (h : Folded p q id) : Rewrite p m q m
  | swept {q : Program} {id : String} (unread : p.usersOf id = []) (unmarked : p.isMarked id = false)
      (h : Removed p q id) : Rewrite p m q m

/-- Any number of rewrites. -/
def Rewrites (p : Program) (m : List Entry) (q : Program) (m' : List Entry) : Prop :=
  Relation.ReflTransGen (fun s t : Program × List Entry => Rewrite s.1 s.2 t.1 t.2) (p, m) (q, m')

/-- **What every rewrite keeps, all of them keep.** -/
theorem Rewrites.invariant {I : Program → List Entry → Prop}
    (step : ∀ {p m q m'}, I p m → Rewrite p m q m' → I q m') (h : I p m)
    (hr : Rewrites p m q m') : I q m' :=
  Relation.ReflTransGen.head_induction_on (motive := fun s _ => I s.1 s.2 → I q m') hr
    (fun hq => hq) (fun hstep _ ih hp => ih (step hp hstep)) h

/-! ## What passes need -/

/-- What the passes need of a graph: the caches are right, reorders do not read each other in a circle,
and the reorders on record are numbered. -/
structure Based (p : Program) (m : List Entry) : Prop extends Sound p where
  ranked : p.Ranked
  numbered : Numbered m

theorem Served.ranked {next : String} {index : Nat} {made : Option String}
    (h : Served p q m m' next index made) (hm : Numbered m) (hnext : ¬ p.isReorder next)
    (hl : p.Linked) (hp : p.Ranked) : q.Ranked := by
  obtain ⟨rfl, -⟩ | ⟨e, he, hins, -⟩ | ⟨-, e, he, hshare⟩ := h.cases hm
  · exact hp
  · have hargs : e.2.arguments = [e.1.1] := by
      rw [(h.numbered hm).reorder_of_mem he]
      rfl
    exact hins.ranked hargs hnext hl hp
  · exact hshare.ranked hnext hp

theorem Padded.ranked {id : String} (h : Padded p q id) (hl : p.Linked) (hp : p.Ranked) :
    q.Ranked := by
  cases h with
  | none same => exact same ▸ hp
  | producer input padding work kept => exact work.ranked (fun _ => rfl) hp
  | reorder prim source layout padding reader shape named inserted =>
    have hargs : prim.arguments = [source] := by
      rw [shape]
      rfl
    exact inserted.ranked hargs reader hl hp

theorem Rewrite.kept (h : Rewrite p m q m') (hl : p.Linked) : Kept p q := by
  cases h with
  | touched hq => exact hq.kept
  | sorted hq => exact hq.kept
  | cleared hq => exact hq.kept
  | fused hq => exact hq.kept
  | absorbed hq => exact hq.kept
  | merged hq => exact hq.toMerged.kept
  | dropped hq => exact hq.extracted.kept
  | served _ hq => exact hq.kept hl
  | padded hq => exact hq.kept hl
  | folded hq => exact hq.kept
  | swept _ _ hq => exact hq.kept

theorem Rewrite.ranked (h : Rewrite p m q m') (hl : p.Linked) (hm : Numbered m) (hp : p.Ranked) :
    q.Ranked := by
  cases h with
  | touched hq => exact hq.ranked hp
  | sorted hq => exact hq.ranked hp
  | cleared hq => exact hq.ranked hp
  | fused hq => exact hq.ranked hp
  | absorbed hq => exact hq.ranked hp
  | merged hq => exact hq.toMerged.ranked hp
  | dropped hq => exact hq.extracted.ranked hq.copy.isReorder hp
  | served weighted hq => exact hq.ranked hm weighted.not_isReorder hl hp
  | padded hq => exact hq.ranked hl hp
  | folded hq =>
    obtain ⟨prim, ⟨l, v, hprim⟩, hreplaced⟩ := hq.steps
    exact hreplaced.ranked (by rw [hprim]; exact fun hk => nomatch hk) hp
  | swept _ _ hq => exact hq.ranked hp

theorem Rewrite.numbered (h : Rewrite p m q m') (hm : Numbered m) : Numbered m' := by
  cases h with
  | served _ hq => exact hq.numbered hm
  | _ => exact hm

/-- **Rewrites keep what passes need.** -/
theorem Rewrite.based (h : Based p m) (hr : Rewrite p m q m') : Based q m' :=
  ⟨h.toSound.kept (hr.kept h.linked), hr.ranked h.linked h.numbered h.ranked,
    hr.numbered h.numbered⟩

/-! ## Passes -/

/-- Rewrites that came from a graph as passes need it lead to one. -/
structure Rewritten (p₀ : Program) (m₀ : List Entry) (p : Program) (m : List Entry) : Prop
    extends Based p m where
  rewrites : Rewrites p₀ m₀ p m

theorem Rewritten.refl (h : Based p m) : Rewritten p m p m := ⟨h, .refl⟩

theorem Rewritten.step {p₀ : Program} {m₀ : List Entry} (h : Rewritten p₀ m₀ p m)
    (hq : Rewrite p m q m') : Rewritten p₀ m₀ q m' :=
  ⟨hq.based h.toBased, h.rewrites.tail hq⟩

theorem Rewritten.trans {p₀ : Program} {m₀ : List Entry} (h : Rewritten p₀ m₀ p m)
    (hq : Rewritten p m q m') : Rewritten p₀ m₀ q m' :=
  ⟨hq.toBased, h.rewrites.trans hq.rewrites⟩

/-- The passes that bind no node for good: all but the binding and the one for its weights. -/
def isRewriting : Pass → Bool
  | .binding | .weightReorders => false
  | _ => true

/-- The passes that ask for preferred layouts. -/
def isRequesting : Pass → Bool
  | .inputReorders | .biasReorders => true
  | _ => false

/-- **A pass is a sequence of rewrites**, and leaves the records alone unless it asks for layouts. -/
theorem rewrites_run (env : Environment) (pass : Pass) (hpass : pass.isRewriting = true)
    (h : Based c.program c.preferences.made) :
    Ends (pass.run env)
      (fun _ c' => Rewritten c.program c.preferences.made c'.program c'.preferences.made ∧
        (pass.isRequesting = false → c'.preferences = c.preferences))
      (fun e _ => e.closes = false) c := by
  have hbase : ∀ {p m}, Rewritten c.program c.preferences.made p m → p.Linked ∧ p.Coherent :=
    fun hp => ⟨hp.linked, hp.coherent⟩
  have hranked : ∀ {p m}, Rewritten c.program c.preferences.made p m →
      p.Linked ∧ p.Coherent ∧ p.Ranked := fun hp => ⟨hp.linked, hp.coherent, hp.ranked⟩
  have hdone : ∀ {c' : Compilation},
      Rewritten c.program c.preferences.made c'.program c.preferences.made ∧
        c'.preferences = c.preferences →
      Rewritten c.program c.preferences.made c'.program c'.preferences.made ∧
        (pass.isRequesting = false → c'.preferences = c.preferences) := by
    intro c' hc
    rw [hc.2]
    exact ⟨hc.1, fun _ => rfl⟩
  cases pass with
  | trim =>
    rw [run, trimToOutputs]
    split
    · exact ⟨.refl h, fun _ => rfl⟩
    · rw [ends_bind, Transform.ends_liftM]
      refine (trim_effect h.linked).imp_good fun _ q hq => ?_
      obtain ⟨doomed, hq, hdoomed⟩ := hq
      refine ⟨(Rewritten.refl h).step (.cleared hq fun hw j hj => ?_), fun _ => rfl⟩
      by_contra hm
      rw [Bool.not_eq_false] at hm
      exact ((hdoomed j).mp hj).2.1 ⟨j, (hw.mem_outputs j).mpr hm, .refl⟩
  | layouts =>
    refine (calculateLayouts_ends h.linked h.coherent).imp_good fun _ d hd => ?_
    obtain ⟨hpref, p, hp, -, hfill⟩ := hd
    have hsorted := (Rewritten.refl h).step (.sorted hp)
    exact hdone ⟨hsorted.step (.touched (hfill.touched hp.kept.linked).toReflagged), hpref⟩
  | fusion =>
    exact (fuse_ends env (Rewritten c.program c.preferences.made · c.preferences.made)
      (Rewritten c.program c.preferences.made · c.preferences.made) (fun hp => hp.linked)
      (fun hp hq => hp.step (.touched hq.toReflagged)) (fun hp hq => hp.step (.fused hq)) (fun hp => hp)
      (fun hp => ⟨hp.linked, Or.inl hp.coherent, hp.ranked⟩)
      (fun hp hq => hp.step (.touched hq.toReflagged)) (fun hp hq _ => hp.step (.absorbed hq))
      (fun hp hq => hp.step (.merged hq)) (.refl h)).imp (fun _ _ hd => hdone hd) fun _ _ hb => hb.1
  | inputReorders =>
    exact (reorderInputs_ends (Rewritten c.program c.preferences.made) hbase
      (fun hp hq => hp.step (.touched hq.toReflagged)) (fun hp hn hq => hp.step (.served hn hq))
      (.refl h)).imp_good
      fun _ _ hd => ⟨hd, fun hr => by cases hr⟩
  | biasReorders =>
    exact (reorderBias_ends (Rewritten c.program c.preferences.made) hbase
      (fun hp hq => hp.step (.touched hq.toReflagged)) (fun hp hn hq => hp.step (.served hn hq))
      (.refl h)).imp_good
      fun _ _ hd => ⟨hd, fun hr => by cases hr⟩
  | redundantReorders =>
    exact (removeRedundantReorders_ends env
      (Rewritten c.program c.preferences.made · c.preferences.made) hranked
      (fun hp hq => hp.step (.touched hq.toReflagged)) (fun hp hq => hp.step (.merged hq))
      (fun hp hq => hp.step (.dropped hq)) (.refl h)).imp_good fun _ _ hd => hdone hd
  | padding =>
    exact (padInputs_ends (Rewritten c.program c.preferences.made · c.preferences.made) hbase
      (fun hp hq => hp.step (.touched hq.toReflagged)) (fun hp hq => hp.step (.padded hq))
      (.refl h)).imp_good
      fun _ _ hd => hdone hd
  | constants =>
    exact (propagateConstants_ends env
      (Rewritten c.program c.preferences.made · c.preferences.made) hbase
      (fun hp hq => hp.step (.touched hq)) (fun hp hq => hp.step (.folded hq))
      (fun hp hu hm hq => hp.step (.swept hu hm hq)) (.refl h)).imp_good fun _ _ hd => hdone hd
  | binding => cases hpass
  | weightReorders => cases hpass

/-- **So are passes in sequence.** -/
theorem rewrites_runSteps (env : Environment) : ∀ (passes : List Pass) (c : Compilation),
    (∀ pass ∈ passes, pass.isRewriting = true) → Based c.program c.preferences.made →
      Ends (runSteps env (passes.map .pass))
        (fun _ c' => Rewritten c.program c.preferences.made c'.program c'.preferences.made ∧
          ((∀ pass ∈ passes, pass.isRequesting = false) → c'.preferences = c.preferences))
        (fun e _ => e.closes = false) c
  | [], c, _, h => by
      rw [List.map_nil, ends_runSteps_nil (I := fun c' =>
        Rewritten c.program c.preferences.made c'.program c'.preferences.made ∧
          ((∀ pass ∈ [], Pass.isRequesting pass = false) → c'.preferences = c.preferences))]
      exact ⟨.refl h, fun _ => rfl⟩
  | pass :: passes, c, hpasses, h => by
      obtain ⟨hpass, hrest⟩ := List.forall_mem_cons.mp hpasses
      rw [List.map_cons, ends_runSteps_cons (I := fun c' =>
        Rewritten c.program c.preferences.made c'.program c'.preferences.made ∧
          ((∀ p ∈ pass :: passes, p.isRequesting = false) → c'.preferences = c.preferences)),
        ends_pass]
      refine (rewrites_run env pass hpass h).imp_good fun _ d hd => ?_
      refine (rewrites_runSteps env passes d hrest hd.1.toBased).imp_good fun _ _ hr => ?_
      refine ⟨hd.1.trans hr.1, fun hnone => ?_⟩
      obtain ⟨hone, hothers⟩ := List.forall_mem_cons.mp hnone
      exact (hr.2 hothers).trans (hd.2 hone)

theorem isRewriting_front (optimize : Bool) : ∀ pass ∈ front optimize, pass.isRewriting = true := by
  cases optimize <;> decide

end Pass

/-- **A graph is as passes need it** when it is built and marked. -/
theorem Program.Built.based {p q : Program} {t : Topology} {b : Behaviours} (h : Built t b p)
    (hq : Remarked p q) : Pass.Based q [] := by
  have hl := hq.kept.linked
  have hordered : q.Ordered := hq.ordered (congrArg Order.ids hq.order) h.topological
  exact ⟨⟨hl, hq.kept.coherent h.coherent⟩, hordered.acyclic.ranked hl, numbered_nil⟩

end NetPlan
