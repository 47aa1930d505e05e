import NetPlan.Proofs.Pass.Sweeps
import NetPlan.Proofs.Pass.Twin

/-!
# Proofs/Pass/Rounds — one round of cleanup after another

A round removes reorders and then folds constants.  From a graph without dead ends, each pass keeps what
the other needs (`Tended`), and every round gets one step further:

1. no two reorders can be merged, but for those behind a constant that was folded around them, and all
   that is left to fold cannot be folded (`Spent`);
2. those are merged too, and there is still nothing to fold;
3. what is left of the reorders has to stay (`Inert`).

* `removeRedundantReorders_tended`, `propagateConstants_tended` — what one pass gets to;
* `round_phase` — what one round gets to, and that one without a change is at the end;
* `cleanup_atRest` — so four rounds are enough.
-/

namespace NetPlan

open Program Edit Preferences

namespace Pass

variable {p q r : Program} {m m' : List Entry} {env : Environment} {c : Compilation} {id input : String}

/-- A graph as the cleanup needs it: the flags are exact, there are no dead ends, and literals have a
layout. -/
structure Tended (p : Program) (m : List Entry) : Prop extends Tracked p m where
  tidy : p.Tidy
  registered : p.behaviours.find .data = .ok .data

theorem Tended.rewrite (h : Tended p m) (hr : Rewrite p m q m') (hq : q.Flagged) (ht : q.Tidy) :
    Tended q m' :=
  ⟨h.toTracked.rewrite hr hq, ht, (hr.kept h.linked).behaviours ▸ h.registered⟩

theorem Tended.sameGraph (h : Tended p m) (hq : SameGraph p q) (order : q.order.ids = p.order.ids)
    (marks : q.isMarked = p.isMarked) (flags : q.flagsOf = p.flagsOf) : Tended q m :=
  ⟨h.toTracked.sameGraph hq flags, h.tidy.sameGraph hq order (isMarked_of_eq marks),
    hq.kept.behaviours ▸ h.registered⟩

theorem Tended.touched (h : Tended p m) (hq : Touched p q) : Tended q m :=
  h.sameGraph hq.toSameGraph (congrArg Order.ids hq.order) hq.marks hq.flags

theorem Tended.merged {selector : Option Selector} (h : Tended p m) (hq : Rebound selector p q id) :
    Tended q m :=
  h.rewrite (.merged hq) (hq.toMerged.flagged h.linked h.flagged) (hq.toMerged.tidy h.linked h.tidy)

theorem Tended.dropped (h : Tended p m) (hq : Dropped p q id input) : Tended q m :=
  h.rewrite (.dropped hq) (hq.flagged h.linked h.flagged) (hq.tidy h.linked h.tidy)

theorem Spent.touched (h : Spent p) (hq : Touched p q) : Spent q where
  asked _ hj := hq.toSameGraph.unfit_of_asked hq.flags hq.marks h.asked hj
  mergeable a b hm := hq.toSameGraph.fit_iff.mpr
    (h.mergeable a b (hm.sameGraph hq.toSameGraph (isMarked_of_eq hq.marks)))

/-! ## Reorders -/

theorem Tended.walkable (h : Tended p m) : Walkable p :=
  ⟨h.tidy.toSeated, h.linked, h.ranked, h.tidy.live⟩

/-- **One pass over the reorders** leaves none that can be merged.  If none could be before, or the pass
reports no change, those that are left have to stay; and there is nothing to fold if there was not. -/
theorem removeRedundantReorders_tended (env : Environment) (h : Tended c.program m) :
    Ends (removeRedundantReorders env)
      (fun stats c' => c'.preferences = c.preferences ∧ Tended c'.program m ∧
        Unmergeable c'.program ∧ (Spent c.program → Spent c'.program) ∧
        (stats.changed = false ∨ Unmergeable c.program → Inert c'.program))
      (fun _ _ => True) c := by
  have htended := removeRedundantReorders_visits env
    (fun _ _ p => Tended p m ∧ (Spent c.program → Spent p))
    (fun hp => ⟨hp.1.linked, hp.1.coherent, hp.1.ranked⟩)
    (fun hp hq _ => ⟨hp.1.touched hq, fun h₀ => (hp.2 h₀).touched hq⟩)
    (fun hp hq => ⟨hp.1.merged hq, fun h₀ => ?_⟩)
    (fun hp hq hnot hd _ => ⟨(hp.1.touched hq).dropped hd, fun h₀ => ?_⟩) ⟨h, id⟩
  · refine ((removeRedundantReorders_walkable env h.walkable h.coherent).and htended).imp
      (fun stats d hd => ?_) fun _ _ _ => trivial
    obtain ⟨⟨-, hnone, hinert⟩, hpref, -, ⟨hten, hspent⟩, -⟩ := hd
    exact ⟨hpref, hten, hnone, hspent, hinert⟩
  · obtain ⟨input, format, element, padding, hj⟩ := hq.toMerged.joined hp.1.linked
    exact hj.spent hp.1.linked hp.1.flagged hp.1.tidy.grounded (hp.2 h₀)
  · have hp' := hp.1.touched hq
    exact hd.spent hp'.linked hp'.flagged hp'.registered hp'.tidy.live
      (fun hm => hnot _ (hm.sameGraph hq.toSameGraph (isMarked_of_eq hq.marks)))
      ((hp.2 h₀).touched hq)

/-! ## Constants -/

/-- All that is left to fold, the host cannot fold. -/
def Drained (env : Environment) (p : Program) : Prop :=
  env.evaluator = none ∨ ∀ j, p.Asked j → p.Unfit j

/-- Folding has succeeded without a change. -/
def Repeatable (env : Environment) (p : Program) : Prop :=
  env.evaluator = none ∨ ∃ (p₀ p₁ : Program) (stats : PassStats), Twin p₀ p ∧ p₀.Flagged ∧
    (foldConstants .reference).run.run p₀ = (.ok stats, p₁) ∧ stats.changed = false

/-- Nothing is left to fold, and no reorders can be merged but with one around which a constant was
folded. -/
def Near (env : Environment) (p : Program) : Prop := env.evaluator = none ∧ Unmergeable p ∨ Spent p

theorem Near.of_unmergeable (hd : Drained env p) (h : Unmergeable p) : Near env p :=
  hd.imp (fun hnone => ⟨hnone, h⟩) fun hun => ⟨hun, fun a b hm => absurd hm (h a b)⟩

theorem Drained.touched (h : Drained env p) (hq : Touched p q) : Drained env q :=
  h.imp_right fun hun _ hj => hq.toSameGraph.unfit_of_asked hq.flags hq.marks hun hj

/-- A program that is the same but for flags and caches, and has the same flags. -/
theorem Reduced.touched_of_idle (h : Reduced p q) (hidle : p.Idle q) : Touched p q where
  kept := h.kept
  ids := hidle.ids
  deps := funext (hidle.view Node.depsIn fun _ => rfl)
  users := funext (hidle.view Node.usersIn fun _ => rfl)
  args := funext (hidle.view Node.argsIn fun _ => rfl)
  tasks := funext (hidle.view (Option.map Node.task) fun _ => rfl)
  plans := funext (hidle.view (Option.bind · (·.plan)) fun _ => rfl)
  order := congrArg (·.order) hidle.same
  marks := h.marks
  flags := funext fun j => by
    by_cases hj : q.contains j = true
    · exact h.flags j hj
    · have hj' : ¬ p.contains j = true := hidle.contains ▸ hj
      rw [flagsOf, node?_eq_none.mpr hj, flagsOf, node?_eq_none.mpr hj']

/-- **One pass over the constants** leaves none that the host can fold.  A pass that reports no change,
as there was nothing to fold, can be run again. -/
theorem propagateConstants_tended (henv : env.evaluator = none ∨ env.evaluator = some .reference)
    (h : Tended c.program c.preferences.made) :
    Ends (propagateConstants env)
      (fun stats c' => c'.preferences = c.preferences ∧ Tended c'.program c'.preferences.made ∧
        Drained env c'.program ∧ (Unmergeable c.program → Near env c'.program) ∧
        (Drained env c.program ∨ stats.changed = false →
          Touched c.program c'.program ∧ Repeatable env c'.program))
      (fun _ _ => True) c := by
  have htracked : Ends (propagateConstants env)
      (fun _ c' => Tracked c'.program c'.preferences.made) (fun e _ => e.closes = false) c :=
    tracks_constants (fun hp => hp) (fun hp => hp.rewrite) h.toTracked
  rw [propagateConstants] at htracked ⊢
  rcases henv with hnone | hsome
  · rw [hnone]
    exact ⟨rfl, h, .inl hnone, fun hp => .inl ⟨hnone, hp⟩, fun _ => ⟨.refl h.linked, .inl hnone⟩⟩
  · rw [hsome, Transform.ends_liftM] at htracked ⊢
    have hreduced := foldConstants_reduced h.linked h.coherent h.registered h.flagged h.tidy
    refine ((htracked.and hreduced).and ((leaves_foldConstants .reference c.program).and
      (ends_run _ c.program))).imp (fun stats q hq => ?_) fun _ _ _ => trivial
    obtain ⟨⟨htr, hred, htidy, hun⟩, hidle, hrun⟩ := hq
    refine ⟨rfl, ⟨htr, htidy, hred.kept.behaviours ▸ h.registered⟩, .inr hun,
      fun hp => .inr ⟨hun, fun a b hm => (hred.mergeable hm).resolve_left (hp a b)⟩,
      fun hstill => ?_⟩
    have hquiet : stats.changed = false ∧ Touched c.program q := by
      rcases hstill with (hnone | hdrained) | hstill
      · rw [hsome] at hnone
        cases hnone
      · have hends := foldConstants_spent h.linked h.coherent h.registered h.flagged h.tidy.live
          hdrained
        rw [Ends, hrun] at hends
        exact hends
      · exact ⟨hstill, hred.touched_of_idle (hidle hstill)⟩
    refine ⟨hquiet.2, .inr ⟨c.program, q, stats, ?_, h.flagged, hrun, hquiet.1⟩⟩
    exact (Twin.refl h.linked h.coherent).touched (.refl h.linked) hquiet.2

/-! ## Rounds -/

/-- Nothing is left for either pass. -/
structure AtRest (env : Environment) (p : Program) (m : List Entry) : Prop extends Tended p m where
  inert : Inert p
  drained : Drained env p
  repeatable : Repeatable env p

/-- **One round** from a graph without dead ends. -/
theorem round_tended (henv : env.evaluator = none ∨ env.evaluator = some .reference)
    (h : Tended c.program c.preferences.made) :
    Ends (runSteps env (cleanup.map .pass))
      (fun stats c' => c'.preferences = c.preferences ∧ Tended c'.program c'.preferences.made ∧
        Drained env c'.program ∧ Near env c'.program ∧
        (Near env c.program → Unmergeable c'.program) ∧
        (Unmergeable c.program ∧ Drained env c.program ∨ stats.changed = false →
          AtRest env c'.program c'.preferences.made))
      (fun _ _ => True) c := by
  change Ends (removeRedundantReorders env >>= fun s => _) _ _ c
  rw [ends_bind]
  refine (removeRedundantReorders_tended env h).imp_good fun s₁ c₁ h₁ => ?_
  obtain ⟨hpref₁, hten₁, hun₁, hspent₁, hinert₁⟩ := h₁
  rw [← hpref₁] at hten₁
  have hmid : Near env c.program → Drained env c₁.program := fun hnear =>
    hnear.imp And.left fun hs => (hspent₁ hs).asked
  rw [ends_bind]
  change Ends (propagateConstants env >>= fun s => _) _ _ c₁
  rw [ends_bind]
  refine (propagateConstants_tended henv hten₁).imp_good fun s₂ c₂ h₂ => ?_
  obtain ⟨hpref₂, hten₂, hdrained₂, hnear₂, htouch₂⟩ := h₂
  refine ⟨hpref₂.trans hpref₁, hten₂, hdrained₂, hnear₂ hun₁,
    fun hnear => hun₁.touched (htouch₂ (.inl (hmid hnear))).1, fun hstill => ?_⟩
  have hquiet : Inert c₁.program ∧ (Drained env c₁.program ∨ s₂.changed = false) := by
    rcases hstill with ⟨hun, hdrained⟩ | hstill
    · exact ⟨hinert₁ (.inr hun), .inl (hmid (.of_unmergeable hdrained hun))⟩
    · obtain ⟨hs₁, hs₂⟩ := Bool.or_eq_false_iff.mp hstill
      exact ⟨hinert₁ (.inl hs₁), .inr (Bool.or_eq_false_iff.mp hs₂).1⟩
  obtain ⟨htouch, hrepeatable⟩ := htouch₂ hquiet.2
  exact ⟨hten₂, hquiet.1.touched htouch, hdrained₂, hrepeatable⟩

/-- How far the rounds have got. -/
def Phase (env : Environment) (p : Program) (m : List Entry) : Nat → Prop
  | 0 => Tended p m
  | 1 => Tended p m ∧ Near env p
  | 2 => Tended p m ∧ Unmergeable p ∧ Drained env p
  | _ + 3 => AtRest env p m

/-- **One round** takes cleanup a phase further, and to the end if it changes nothing. -/
theorem round_phase (henv : env.evaluator = none ∨ env.evaluator = some .reference) : ∀ (k : Nat)
    (c : Compilation), Phase env c.program c.preferences.made k →
    Ends (runSteps env (cleanup.map .pass))
      (fun stats c' => Phase env c'.program c'.preferences.made (k + 1) ∧
        (stats.changed = false → AtRest env c'.program c'.preferences.made))
      (fun _ _ => True) c
  | 0, _, h => (round_tended henv h).imp_good fun _ _ ⟨_, hten, _, hnear, _, hrest⟩ =>
      ⟨⟨hten, hnear⟩, fun hs => hrest (.inr hs)⟩
  | 1, _, h => (round_tended henv h.1).imp_good fun _ _ ⟨_, hten, hdrained, _, hun, hrest⟩ =>
      ⟨⟨hten, hun h.2, hdrained⟩, fun hs => hrest (.inr hs)⟩
  | 2, _, h => (round_tended henv h.1).imp_good fun _ _ ⟨_, _, _, _, _, hrest⟩ =>
      ⟨hrest (.inl h.2), fun hs => hrest (.inr hs)⟩
  | _ + 3, _, h => (round_tended henv h.toTended).imp_good fun _ _ ⟨_, _, _, _, _, hrest⟩ =>
      ⟨hrest (.inl ⟨h.inert.unmergeable, h.drained⟩), fun hs => hrest (.inr hs)⟩

/-- **Rounds that each take a phase**, and that come to the end where they change nothing. -/
theorem repeatWhileChanged_phase {round : Transform PassStats} {phase : Nat → Compilation → Prop}
    {done : Compilation → Prop} {bad : CompileError → Compilation → Prop}
    (step : ∀ k c, phase k c →
      Ends round (fun stats c' => phase (k + 1) c' ∧ (stats.changed = false → done c')) bad c) :
    ∀ (rounds k : Nat) (c : Compilation), phase k c →
      Ends (repeatWhileChanged round rounds) (fun _ c' => phase (k + rounds) c' ∨ done c') bad c
  | 0, _, _, h => .inl h
  | rounds + 1, k, c, h => by
      rw [repeatWhileChanged, ends_bind]
      refine (step k c h).imp_good fun stats c' h' => ?_
      dsimp only
      split
      case isTrue =>
        rw [ends_bind]
        refine (repeatWhileChanged_phase step rounds (k + 1) c' h'.1).imp_good fun _ c'' h'' => ?_
        rwa [Nat.add_assoc, Nat.add_comm 1] at h''
      case isFalse hstill => exact .inr (h'.2 (Bool.eq_false_iff.mpr hstill))

/-- **Four rounds are enough.** -/
theorem cleanup_atRest (henv : env.evaluator = none ∨ env.evaluator = some .reference)
    (h : Tended c.program c.preferences.made) :
    Ends ((Step.fixedPoint 4 (cleanup.map .pass)).run env)
      (fun _ c' => AtRest env c'.program c'.preferences.made) (fun _ _ => True) c := by
  rw [Step.run]
  exact (repeatWhileChanged_phase (round_phase henv) 4 0 c h).imp_good fun _ _ h' => h'.elim id id

end Pass

end NetPlan
