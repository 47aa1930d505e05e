import NetPlan.Proofs.Pass.Fit
import NetPlan.Proofs.Pass.Quiet

/-!
# Proofs/Pass/Spent — what folding leaves

Folding asks the host for the constants that are outputs or that something not constant reads
(`Asked`).  It makes literals of those that are fit and then sweeps what nothing reads any more, back to
front.  Where an edge is lost on the way, the node at its far end is fit (`Reduced.lost`), so it stands
in front of whatever read it (`Fit.not_isWeighted`), and the sweep is still to come by.

* `foldConstants_reduced` — in the end no constant is a dead end, and what is asked for is unfit;
* `Reduced.mergeable` — two reorders that can be merged could be before, or the first is fit;
* `foldConstants_spent` — where all that is asked for is unfit, folding changes nothing.
-/

namespace NetPlan

open Program Edit

namespace Program

variable {p q : Program} {id j a b : String}

/-- Folding asks the host for it: a constant, but no literal, that is an output or is read by something
that is not constant. -/
@[mk_iff]
structure Asked (p : Program) (id : String) : Prop where
  constant : p.isConstant id = true
  computed : p.kindOf id ≠ some .data
  needed : p.isMarked id = true ∨ ∃ u, id ∈ p.depsOf u ∧ p.isConstant u = false

/-- A constant that is neither an output nor read. -/
structure Dead (p : Program) (id : String) : Prop where
  constant : p.isConstant id = true
  unmarked : p.isMarked id = false
  unread : p.usersOf id = []

theorem contains_of_isConstant (h : p.isConstant id = true) : p.contains id = true := by
  by_contra hno
  rw [← node?_eq_none] at hno
  rw [isConstant, hno] at h
  cases h

theorem isFoldable_iff_asked (hl : p.Linked) {n : Node} (hn : p.node? id = some n) :
    Pass.isFoldable p n = true ↔ p.Asked id := by
  have hread : (∃ u ∈ n.users, p.isVariable u = true) ↔
      ∃ u, id ∈ p.depsOf u ∧ p.isConstant u = false := by
    refine exists_congr fun u => ?_
    rw [isVariable_iff, ← usersOf_of_node? hn, ← hl.edges]
    exact ⟨fun h => ⟨h.1, h.2.2⟩, fun h => ⟨h.1, contains_of_mem_depsOf h.1, h.2⟩⟩
  rw [asked_iff, ← hread, isConstant_of_node? hn, kindOf_of_node? hn, isMarked_of_node? hn,
    Pass.isFoldable, Bool.and_eq_true, Bool.and_eq_true, Bool.or_eq_true, List.any_eq_true,
    Node.isLiteral, Bool.not_eq_true', decide_eq_false_iff_not, and_assoc, ne_eq, Option.some.injEq]

theorem SameGraph.asked_iff (h : SameGraph p q) (flags : q.flagsOf = p.flagsOf)
    (marks : q.isMarked = p.isMarked) : q.Asked j ↔ p.Asked j := by
  have hconst : q.isConstant = p.isConstant := funext fun j => isConstant_congr (congrFun flags j)
  rw [Program.asked_iff, Program.asked_iff, hconst, h.kinds, marks, h.deps]

theorem SameGraph.unfit_of_asked (h : SameGraph p q) (flags : q.flagsOf = p.flagsOf)
    (marks : q.isMarked = p.isMarked) (hun : ∀ j, p.Asked j → p.Unfit j) (hj : q.Asked j) :
    q.Unfit j :=
  h.unfit_iff.mpr (hun j ((h.asked_iff flags marks).mp hj))

/-- Without dead ends no constant is dead. -/
theorem Live.not_dead (h : p.Live) (hl : p.Linked) (hf : p.Flagged) :
    ¬ p.Dead id := fun hid => by
  have hthere := contains_of_isConstant hid.constant
  rcases h id hthere with hm | ⟨u, hu⟩ | hk
  · rw [hid.unmarked] at hm
    cases hm
  · exact absurd hu (hl.usersOf_eq_nil_iff.mp hid.unread u)
  · rcases (hf.constant id hthere).mp hid.constant with hk' | hk'
    · rw [hk] at hk'
      cases hk'
    · exact hk'.1 hk

end Program

namespace Pass

variable {p q r s : Program} {known : Known} {id j a b : String} {ids : List String}

/-! ## Folding -/

/-- Folding was told of it: it is a literal by now, or cannot be made one. -/
def Tried (p : Program) (id : String) : Prop := p.kindOf id = some .data ∨ p.Unfit id

theorem AllValued.evaluated (h : AllValued p known) (hq : Evaluated p q id)
    (hb : p.behaviours.find .data = .ok .data) (hkind : p.kindOf id ≠ some .data) :
    AllValued q known := fun j v hv =>
  ⟨fun hl => hq.fit_of hb ((h j v hv).placed hl), fun hl => by
    obtain ⟨hdata, hun⟩ := (h j v hv).scattered hl
    have hne : j ≠ id := fun he => hkind (he ▸ hdata)
    rw [hq.kinds, if_neg hne]
    exact ⟨hdata, hq.unfit_of hb hun⟩⟩

/-- **Folding a constant** makes it a literal if it is fit, and nothing of it if not. -/
theorem fold_fit (hl : p.Linked) (hc : p.Coherent) (hb : p.behaviours.find .data = .ok .data)
    (hconst : p.isConstant id = true) (hkind : p.kindOf id ≠ some .data) (hk : AllRight p known)
    (hv : AllValued p known) :
    Ends ((fold .reference id).run known)
      (fun r q => (∃ p', Filled p p' ∧
        if r.1 = true then Evaluated p' q id else q = p' ∧ p'.Unfit id) ∧
        AllRight q r.2 ∧ AllValued q r.2) (fun _ _ => True) p := by
  rw [fold, StateT.run_bind, ends_bind, ends_run_liftM, ends_get, StateT.run_bind, ends_bind]
  refine ((valueWithin_effect .reference _ id known hc hk).and
    (valueWithin_fit _ id known hl hc hv)).imp (fun r q hq => ?_) fun _ _ _ => trivial
  obtain ⟨⟨hfill, hknown, hvalue⟩, -, hvalued, hsome, hnone⟩ := hq
  have htouch := hfill.touched hl
  split
  case h_1 hn =>
    exact ⟨⟨q, hfill, rfl, htouch.toSameGraph.unfit_iff.mpr (hnone hn)⟩, hknown, hvalued⟩
  case h_2 v hv =>
    rw [StateT.run_bind, ends_bind, ends_run_liftM]
    refine (replace_effect htouch.kept.linked false).imp (fun _ s hs => ?_) fun _ _ _ => trivial
    have hlookup := hvalue v hv
    have hkind' : q.kindOf id ≠ some .data := htouch.toSameGraph.kinds ▸ hkind
    have hplaced : v.layout.isAddressable = true := by
      by_contra hno
      exact hkind ((hsome v hv).scattered (Bool.eq_false_iff.mpr hno)).1
    have hev : Evaluated q s id :=
      { constant := by rw [isConstant_congr (congrFun htouch.flags id), hconst]
        steps := ⟨_, ⟨_, _, rfl⟩, hs⟩
        layouts := fun hb j l hl => freshLayout_replaced hs (hknown id v hlookup) hb hl
        fit := htouch.toSameGraph.fit_iff.mpr ((hsome v hv).placed hplaced)
        literal := ⟨v.layout, v.values, (hs.shapes id).trans (if_pos rfl), hplaced⟩ }
    exact ⟨⟨q, hfill, hev⟩, hknown.replaced hlookup hs,
      hvalued.evaluated hev (htouch.kept.behaviours ▸ hb) hkind'⟩

/-- `q` is what folding has made of `p` by now. -/
structure Reduced (p q : Program) : Prop where
  kept : Kept p q
  seated : q.Seated
  grounded : q.Grounded
  flagged : q.Flagged
  marks : q.isMarked = p.isMarked
  flags : ∀ j, q.contains j = true → q.flagsOf j = p.flagsOf j
  /-- A node is a literal, or as it was. -/
  same : ∀ j, q.contains j = true →
    q.kindOf j = some .data ∨ q.shapeOf j = p.shapeOf j ∧ q.depsOf j = p.depsOf j
  /-- What is not read any more from somewhere is fit. -/
  lost : ∀ u d, d ∈ p.depsOf u → d ∉ q.depsOf u → q.contains d = true → q.Fit d
  shrinks : ∀ u d, d ∈ q.depsOf u → d ∈ p.depsOf u

namespace Reduced

theorem refl (hl : p.Linked) (hf : p.Flagged) (ht : p.Tidy) : Reduced p p where
  kept := .refl hl
  seated := ht.toSeated
  grounded := ht.grounded
  flagged := hf
  marks := rfl
  flags _ _ := rfl
  same _ _ := Or.inr ⟨rfl, rfl⟩
  lost _ _ hd hd' := absurd hd hd'
  shrinks _ _ hd := hd

variable (h : Reduced p q)
include h

theorem linked : q.Linked := h.kept.linked

theorem touched (ht : Touched q r) : Reduced p r := by
  have hs := ht.toSameGraph
  exact
    { kept := h.kept.trans ht.kept
      seated := h.seated.of_views (congrArg Order.ids ht.order) hs.contains hs.kinds hs.deps
      grounded := h.grounded.of_views hs.kinds hs.deps
      flagged := h.flagged.sameGraph hs ht.flags
      marks := ht.marks.trans h.marks
      flags := fun j hj => (congrFun ht.flags j).trans (h.flags j (hs.contains ▸ hj))
      same := fun j hj => by
        rw [hs.kinds, hs.shapes, hs.deps]
        exact h.same j (hs.contains ▸ hj)
      lost := fun u d hd hd' hc => hs.fit_iff.mpr (h.lost u d hd (hs.deps ▸ hd') (hs.contains ▸ hc))
      shrinks := fun u d hd => h.shrinks u d (hs.deps ▸ hd) }

theorem evaluated (hr : Evaluated q r id) (hb : q.behaviours.find .data = .ok .data) :
    Reduced p r := by
  have hold : r.contains = q.contains := by
    obtain ⟨_, -, hq⟩ := hr.steps
    exact hq.contains
  exact
    { kept := h.kept.trans hr.kept
      seated := hr.toFolded.seated h.seated
      grounded := hr.toFolded.grounded h.grounded
      flagged := hr.toFolded.flagged h.flagged
      marks := by
        obtain ⟨_, -, hq⟩ := hr.steps
        exact hq.marks.trans h.marks
      flags := fun j hj => (congrFun hr.flags j).trans (h.flags j (hold ▸ hj))
      same := fun j hj => by
        rw [hr.kinds, hr.deps]
        by_cases hji : j = id
        · exact Or.inl (if_pos hji)
        · rw [if_neg hji, if_neg hji, hr.shapes hji]
          exact h.same j (hold ▸ hj)
      lost := fun u d hd hd' hc => by
        rw [hr.deps] at hd'
        refine hr.fit_of hb ?_
        by_cases hdq : d ∈ q.depsOf u
        · -- the edge goes by this step, so the node that read it is fit
          by_cases hu : u = id
          · exact (hr.fit).dep h.grounded (hu ▸ hdq)
          · rw [if_neg hu] at hd'
            exact absurd hdq hd'
        · exact h.lost u d hd hdq (hold ▸ hc)
      shrinks := fun u d hd => by
        rw [hr.deps] at hd
        split at hd
        · cases hd
        · exact h.shrinks u d hd }

/-- **What is dead is fit**, for it was read once. -/
theorem fit_of_dead (hlive : p.Live) (hf : p.Flagged) (hid : q.Dead id) : q.Fit id := by
  have hthere := contains_of_isConstant hid.constant
  have hconst : p.isConstant id = true :=
    isConstant_congr (h.flags id hthere) ▸ hid.constant
  have hthere' := contains_of_isConstant hconst
  rcases hlive id hthere' with hm | ⟨u, hu⟩ | hk
  · rw [← h.marks, hid.unmarked] at hm
    cases hm
  · exact h.lost u id hu (h.linked.usersOf_eq_nil_iff.mp hid.unread u) hthere
  · rcases (hf.constant id hthere').mp hconst with hk' | hk'
    · rw [hk] at hk'
      cases hk'
    · exact absurd hk hk'.1

theorem removed (hr : Removed q r id) (hid : q.Dead id) (hfit : q.Fit id) : Reduced p r := by
  have hold : ∀ {j}, r.contains j = true → j ≠ id ∧ q.contains j = true :=
    fun hj => (hr.contains_iff _).mp hj
  obtain ⟨hclosed, htasks, hdeps, -⟩ := hr.frame h.linked hid.unread
  have hshapes : ∀ j, j ≠ id → r.shapeOf j = q.shapeOf j := fun j hj => by
    rw [shapeOf_eq_taskOf, htasks j hj, shapeOf_eq_taskOf]
  exact
    { kept := h.kept.trans hr.kept
      seated := hr.seated h.seated
      grounded := hr.grounded h.grounded
      flagged := hr.flagged h.linked hid.unread h.flagged
      marks := (hr.marks hid.unmarked).trans h.marks
      flags := fun j hj => by
        rw [hr.flags, if_neg (hold hj).1]
        exact h.flags j (hold hj).2
      same := fun j hj => by
        obtain ⟨hne, hj⟩ := hold hj
        rw [kindOf_congr (hshapes j hne), hshapes j hne, hdeps j hne]
        exact h.same j hj
      lost := fun u d hd hd' hc => by
        obtain ⟨hne, hc⟩ := hold hc
        refine hr.fit h.linked hid.unread ?_ hne
        by_cases hdq : d ∈ q.depsOf u
        · by_cases hu : u = id
          · exact hfit.dep h.grounded (hu ▸ hdq)
          · rw [hdeps u hu] at hd'
            exact absurd hdq hd'
        · exact h.lost u d hd hdq hc
      shrinks := fun u d hd => by
        rw [hr.deps] at hd
        split at hd
        · cases hd
        · exact h.shrinks u d (List.mem_of_mem_filter hd) }

end Reduced

/-! ## The pass -/

theorem Tried.evaluated (h : Tried p j) (hq : Evaluated p q id)
    (hb : p.behaviours.find .data = .ok .data) : Tried q j := by
  refine h.imp (fun hk => ?_) (hq.unfit_of hb)
  rw [hq.kinds]
  split
  · rfl
  · exact hk

theorem Tried.sameGraph (h : Tried p j) (hq : SameGraph p q) : Tried q j :=
  h.imp (fun hk => hq.kinds ▸ hk) hq.unfit_iff.mpr

theorem Tried.removed (h : Tried p j) (hl : p.Linked) (hq : Removed p q id)
    (unread : p.usersOf id = []) (hne : j ≠ id) : Tried q j :=
  h.imp (fun hk => by rw [hq.kinds, if_neg hne, hk]) (hq.unfit hl unread · hne)

theorem foldAll_reduced (hc : p.Coherent) (hb : p.behaviours.find .data = .ok .data) :
    ∀ (ids : List String) (known : Known) {q : Program}, ids.Nodup → Reduced p q →
      (∀ i ∈ ids, q.isConstant i = true ∧ q.kindOf i ≠ some .data) → AllRight q known →
      AllValued q known → Ends ((foldAll .reference ids).run known)
        (fun _ r => Reduced p r ∧ (∀ i ∈ ids, Tried r i) ∧ ∀ j, Tried q j → Tried r j)
        (fun _ _ => True) q
  | [], _, _, _, h, _, _, _ => ⟨h, fun _ hi => (nomatch hi), fun _ hj => hj⟩
  | id :: ids, known, q, hnodup, h, hids, hk, hv => by
      obtain ⟨hnot, hnodup⟩ := List.nodup_cons.mp hnodup
      obtain ⟨⟨hconst, hkind⟩, hids⟩ := List.forall_mem_cons.mp hids
      rw [foldAll, StateT.run_bind, ends_bind]
      refine (fold_fit h.linked (h.kept.coherent hc) (h.kept.behaviours ▸ hb) hconst hkind hk
        hv).imp_good fun answer r hr => ?_
      obtain ⟨⟨q', hfill, hr⟩, hknown, hvalued⟩ := hr
      have hsame := (hfill.touched h.linked).toSameGraph
      have hq' := h.touched (hfill.touched h.linked)
      have hb' : q'.behaviours.find .data = .ok .data := hq'.kept.behaviours ▸ hb
      have hflags := congrFun (hfill.touched h.linked).flags
      obtain ⟨hreduced, htried, hkept, hrest⟩ : Reduced p r ∧ Tried r id ∧
          (∀ j, Tried q j → Tried r j) ∧
          ∀ i ∈ ids, r.isConstant i = true ∧ r.kindOf i ≠ some .data := by
        split at hr
        case isTrue =>
          refine ⟨hq'.evaluated hr hb', Or.inl (by rw [hr.kinds, if_pos rfl]),
            fun j hj => (hj.sameGraph hsame).evaluated hr hb', fun i hi => ?_⟩
          have hne : i ≠ id := fun he => hnot (he ▸ hi)
          rw [isConstant_congr (congrFun hr.flags i), isConstant_congr (hflags i), hr.kinds,
            if_neg hne, hsame.kinds]
          exact hids i hi
        case isFalse =>
          obtain ⟨rfl, hun⟩ := hr
          refine ⟨hq', Or.inr hun, fun j hj => hj.sameGraph hsame, fun i hi => ?_⟩
          rw [isConstant_congr (hflags i), hsame.kinds]
          exact hids i hi
      rw [StateT.run_bind, ends_bind]
      refine (foldAll_reduced hc hb ids answer.2 hnodup hreduced hrest hknown hvalued).imp_good
        fun _ s hs => ?_
      obtain ⟨hs, hdone, hstay⟩ := hs
      exact ⟨hs, List.forall_mem_cons.mpr ⟨hstay id htried, hdone⟩,
        fun j hj => hstay j (hkept j hj)⟩

/-- What stands before the head of the rest, back to front, is still to come. -/
theorem mem_of_before_head {l done rest : List String} (hl : l.Nodup)
    (hsplit : l.reverse = done ++ id :: rest) (h : Before l j id) : j ∈ rest := by
  have hmem : j ∈ done ++ id :: rest := hsplit ▸ List.mem_reverse.mpr h.mem_left
  rcases List.mem_append.mp hmem with hj | hj
  · have hbefore : Before l id j := by
      have hrev := congrArg List.reverse hsplit
      rw [List.reverse_reverse, List.reverse_append] at hrev
      rw [hrev, before_iff_append]
      exact ⟨_, _, rfl, by simp, by simpa using hj⟩
    exact absurd hbefore (h.asymm hl)
  · refine (List.mem_cons.mp hj).resolve_left fun he => ?_
    subst he
    exact Before.irrefl hl j h

/-- **Sweeping back to front** leaves nothing dead: what dies is still to come by. -/
theorem sweep_reduced (hlive : p.Live) (hf : p.Flagged) (hs : s.Linked) :
    ∀ (ids done : List String) {q : Program}, s.order.ids.reverse = done ++ ids →
      q.order.ids.Sublist s.order.ids → Reduced p q → (∀ j, q.Dead j → j ∈ ids) →
      Ends (sweep ids) (fun _ r => Reduced p r ∧ (∀ j, ¬ r.Dead j) ∧
        ∀ j, r.contains j = true → q.contains j = true ∧ (Tried q j → Tried r j))
        (fun _ _ => True) q
  | [], _, _, _, _, h, hdead => ⟨h, fun j hj => (nomatch hdead j hj), fun _ hj => ⟨hj, fun ht => ht⟩⟩
  | id :: ids, done, q, hsplit, horder, h, hdead => by
      have hsplit' : s.order.ids.reverse = (done ++ [id]) ++ ids := by rw [hsplit]; simp
      have hrest : ∀ (here : Nat) (r : Program), r.order.ids.Sublist s.order.ids → Reduced p r →
          (∀ j, r.Dead j → j ∈ ids) →
          (∀ j, r.contains j = true → q.contains j = true ∧ (Tried q j → Tried r j)) →
          Ends (do
            let further ← sweep ids
            return here + further) (fun _ r => Reduced p r ∧ (∀ j, ¬ r.Dead j) ∧
              ∀ j, r.contains j = true → q.contains j = true ∧ (Tried q j → Tried r j))
            (fun _ _ => True) r := by
        intro here r horder hr hdead hstay
        rw [ends_bind]
        refine (sweep_reduced hlive hf hs ids (done ++ [id]) hsplit' horder hr hdead).imp_good
          fun _ t ht => ⟨ht.1, ht.2.1, fun j hj => ?_⟩
        obtain ⟨hj, htried⟩ := ht.2.2 j hj
        exact ⟨(hstay j hj).1, fun hq => htried ((hstay j hj).2 hq)⟩
      have hself : ∀ j, q.contains j = true → q.contains j = true ∧ (Tried q j → Tried q j) :=
        fun j hj => ⟨hj, fun ht => ht⟩
      have halive : ¬ q.Dead id → ∀ j, q.Dead j → j ∈ ids := fun hid j hj =>
        (List.mem_cons.mp (hdead j hj)).resolve_left fun he => hid (he ▸ hj)
      rw [sweep, ends_bind, ends_get]
      dsimp only
      split
      case h_2 hnone =>
        refine hrest 0 q horder h (halive fun hid => ?_) hself
        exact node?_eq_none.mp hnone (contains_of_isConstant hid.constant)
      case h_1 n hn =>
        split
        case isFalse hno =>
          refine hrest 0 q horder h (halive fun hid => hno ?_) hself
          rw [Bool.and_eq_true, Bool.and_eq_true, ← isConstant_of_node? hn, ← usersOf_of_node? hn,
            ← isMarked_of_node? hn, hid.constant, hid.unread, hid.unmarked]
          exact ⟨⟨rfl, rfl⟩, rfl⟩
        case isTrue hyes =>
          rw [Bool.and_eq_true, Bool.and_eq_true, ← isConstant_of_node? hn, ← usersOf_of_node? hn,
            ← isMarked_of_node? hn, List.isEmpty_iff, Bool.not_eq_true'] at hyes
          have hid : q.Dead id := ⟨hyes.1.1, hyes.2, hyes.1.2⟩
          have hfit := h.fit_of_dead hlive hf hid
          rw [ends_bind]
          refine (remove_effect h.linked).imp (fun _ r hr => ?_) fun _ _ _ => trivial
          have hold : ∀ {j}, r.contains j = true → j ≠ id ∧ q.contains j = true :=
            fun hj => (hr.contains_iff _).mp hj
          obtain ⟨-, -, hdeps, -⟩ := hr.frame h.linked hid.unread
          refine hrest 1 r ?_ (h.removed hr hid hfit) (fun j hj => ?_) fun j hj =>
            ⟨(hold hj).2, fun ht => ht.removed h.linked hr hid.unread (hold hj).1⟩
          · rw [hr.order]
            exact List.filter_sublist.trans horder
          · obtain ⟨hne, -⟩ := hold (contains_of_isConstant hj.constant)
            have hflag : r.flagsOf j = q.flagsOf j := by rw [hr.flags, if_neg hne]
            have hconst : q.isConstant j = true := isConstant_congr hflag ▸ hj.constant
            have hmark : q.isMarked j = false := hr.marks hid.unmarked ▸ hj.unmarked
            by_cases hread : j ∈ q.depsOf id
            · -- it was read by the node that is gone, which is fit and so stands behind it
              exact mem_of_before_head hs.order_nodup hsplit
                ((h.seated.before id j hfit.not_isWeighted hread).mono horder)
            · refine (List.mem_cons.mp (hdead j ⟨hconst, hmark, ?_⟩)).resolve_left hne
              refine h.linked.usersOf_eq_nil_iff.mpr fun u hu => ?_
              rw [← hdeps u fun he => hread (he ▸ hu)] at hu
              exact hr.kept.linked.usersOf_eq_nil_iff.mp hj.unread u hu

/-- **Nothing dead is left**, so no dead ends are. -/
theorem Reduced.live (h : Reduced p q) (hlive : p.Live) (hdead : ∀ j, ¬ q.Dead j) : q.Live := by
  intro j hj
  have halive : q.isConstant j = true → q.isMarked j = true ∨ ∃ u, j ∈ q.depsOf u := fun hc => by
    by_contra hno
    rw [not_or, Bool.not_eq_true, not_exists] at hno
    refine hdead j ⟨hc, hno.1, List.eq_nil_iff_forall_not_mem.mpr fun u hu => ?_⟩
    exact hno.2 u ((h.linked.edges j u).mpr hu)
  by_cases hc : q.isConstant j = true
  · exact (halive hc).imp_right Or.inl
  · rcases h.same j hj with hk | ⟨hshape, -⟩
    · exact absurd ((h.flagged.constant j hj).mpr (due_of_literal hk)) hc
    · have hthere : p.contains j = true := by
        rw [contains_eq_isSome_shapeOf, ← hshape, ← contains_eq_isSome_shapeOf, hj]
      rw [h.marks, kindOf_congr hshape]
      refine (hlive j hthere).imp_right fun hl => hl.imp_left fun ⟨u, hu⟩ => ⟨u, ?_⟩
      by_contra hd
      exact hc ((h.lost u j hu hd hj).isConstant h.flagged)

/-- What is asked for afterwards was asked for before. -/
theorem Reduced.asked (h : Reduced p q) (hj : q.Asked j) : p.Asked j := by
  have hthere := contains_of_isConstant hj.constant
  refine ⟨isConstant_congr (h.flags j hthere) ▸ hj.constant, ?_, ?_⟩
  · rw [← kindOf_congr ((h.same j hthere).resolve_left hj.computed).1]
    exact hj.computed
  · rw [← h.marks]
    refine hj.needed.imp_right fun ⟨u, hu, hc⟩ => ⟨u, h.shrinks u j hu, ?_⟩
    rw [← isConstant_congr (h.flags u (contains_of_mem_depsOf hu)), hc]

/-- **Reorders that can be merged afterwards** could be before, or the first of them is fit. -/
theorem Reduced.mergeable (h : Reduced p q) (hm : q.Mergeable a b) :
    p.Mergeable a b ∨ q.Fit b := by
  have hcase : ∀ {j}, q.isReorder j → q.shapeOf j = p.shapeOf j ∧ q.depsOf j = p.depsOf j := by
    intro j hj
    refine (h.same j (contains_of_isReorder hj)).resolve_left fun hk => ?_
    rw [kindOf_of_isReorder hj] at hk
    cases hk
  obtain ⟨hshape, hdeps⟩ := hcase hm.copy.isReorder
  obtain ⟨hshape', -⟩ := hcase hm.reorder
  by_cases hall : ∀ u, b ∈ p.depsOf u → b ∈ q.depsOf u
  · refine Or.inl ⟨?_, hdeps ▸ hm.only, ?_, fun u hu => hm.sole u (hall u hu), h.marks ▸ hm.unmarked⟩
    · rw [isCopy, ← hshape]
      exact hm.copy
    · rw [isReorder, ← hshape']
      exact hm.reorder
  · obtain ⟨u, hu⟩ := not_forall.mp hall
    obtain ⟨hread, hlost⟩ := Classical.not_imp.mp hu
    exact Or.inr (h.lost u b hread hlost (contains_of_isReorder hm.reorder))

/-- The nodes that folding asks the host for. -/
def targets (p : Program) : List String :=
  p.order.ids.filter fun id =>
    match p.node? id with
    | some n => isFoldable p n
    | none => false

theorem foldConstants_eq (ev : Evaluator) : foldConstants ev = (do
    Edit.markConstants
    let p ← get
    let (folded, _) ← (foldAll ev (targets p)).run []
    let erased ← sweep (← get).order.ids.reverse
    return .ofCounts folded erased) := rfl

theorem targets_eq (hl : p.Linked) (asked : String → Bool)
    (h : ∀ j, asked j = true ↔ p.Asked j) : targets p = p.order.ids.filter asked := by
  refine List.filter_congr fun id hmem => ?_
  obtain ⟨n, hn⟩ := contains_iff.mp (hl.order_contains id hmem)
  rw [hn, Bool.eq_iff_iff, h]
  exact isFoldable_iff_asked hl hn

theorem mem_targets (hl : p.Linked) : id ∈ targets p ↔ id ∈ p.order.ids ∧ p.Asked id := by
  classical
  rw [targets_eq hl (fun j => decide (p.Asked j)) fun j => decide_eq_true_iff, List.mem_filter,
    decide_eq_true_iff]

/-- **Folding the constants** of a graph without dead ends leaves none, and nothing more to ask for. -/
theorem foldConstants_reduced (hl : p.Linked) (hc : p.Coherent)
    (hb : p.behaviours.find .data = .ok .data) (hf : p.Flagged) (ht : p.Tidy) :
    Ends (foldConstants .reference)
      (fun _ q => Reduced p q ∧ q.Tidy ∧ ∀ j, q.Asked j → q.Unfit j) (fun _ _ => True) p := by
  rw [foldConstants_eq, ends_bind]
  refine (markConstants_touched hl hf).imp (fun _ m hm => ?_) fun _ _ _ => trivial
  have hmarked := (Reduced.refl hl hf ht).touched hm
  have hlm := hmarked.linked
  rw [ends_bind, ends_get]
  dsimp only
  rw [ends_bind]
  refine (foldAll_reduced hc hb _ [] (hlm.order_nodup.filter _) hmarked (fun i hi => ?_)
    (fun _ _ hv => by cases hv) (fun _ _ hv => by cases hv)).imp_good fun _ r hr => ?_
  · obtain ⟨-, hasked⟩ := (mem_targets hlm).mp hi
    exact ⟨hasked.constant, hasked.computed⟩
  obtain ⟨hr, htried, -⟩ := hr
  rw [ends_bind, ends_get, ends_bind]
  refine (sweep_reduced ht.live hf hr.linked _ [] rfl (List.Sublist.refl _) hr fun j hj => ?_).imp_good
    fun _ q hq => ?_
  · exact List.mem_reverse.mpr (hr.seated.mem j (contains_of_isConstant hj.constant))
  obtain ⟨hq, hdead, hleft⟩ := hq
  refine ⟨hq, ⟨hq.seated, hq.grounded, hq.live ht.live hdead⟩, fun j hj => ?_⟩
  -- it was asked for in the beginning, and is no literal
  have hfirst := hq.asked hj
  have hasked : m.Asked j := (hm.toSameGraph.asked_iff hm.flags hm.marks).mpr hfirst
  obtain ⟨-, hstay⟩ := hleft j (contains_of_isConstant hj.constant)
  exact (hstay (htried j ((mem_targets hlm).mpr
    ⟨hmarked.seated.mem j (contains_of_isConstant hasked.constant), hasked⟩))).resolve_left hj.computed

/-! ## Where there is nothing to do -/

theorem foldAll_unfit :
    ∀ (ids : List String) (known : Known) {p : Program}, p.Linked → p.Coherent →
      p.behaviours.find .data = .ok .data →
      (∀ i ∈ ids, p.isConstant i = true ∧ p.kindOf i ≠ some .data ∧ p.Unfit i) →
      AllRight p known → AllValued p known → Ends ((foldAll .reference ids).run known)
        (fun r q => r.1 = 0 ∧ Touched p q) (fun _ _ => True) p
  | [], _, _, hl, _, _, _, _, _ => ⟨rfl, .refl hl⟩
  | id :: ids, known, p, hl, hc, hb, hids, hk, hv => by
      obtain ⟨⟨hconst, hkind, hun⟩, hids⟩ := List.forall_mem_cons.mp hids
      rw [foldAll, StateT.run_bind, ends_bind]
      refine (fold_fit hl hc hb hconst hkind hk hv).imp_good fun answer q hq => ?_
      obtain ⟨⟨p', hfill, hq⟩, hknown, hvalued⟩ := hq
      have htouch := hfill.touched hl
      have hun' : p'.Unfit id := htouch.toSameGraph.unfit_iff.mpr hun
      split at hq
      case isTrue => exact absurd hun' hq.fit.not_unfit
      case isFalse hno =>
        obtain ⟨rfl, -⟩ := hq
        rw [StateT.run_bind, ends_bind]
        refine (foldAll_unfit ids answer.2 htouch.kept.linked (htouch.kept.coherent hc)
          (htouch.kept.behaviours ▸ hb) (fun i hi => ?_) hknown hvalued).imp_good fun r s hs => ?_
        · rw [isConstant_congr (congrFun htouch.flags i), htouch.toSameGraph.kinds,
            htouch.toSameGraph.unfit_iff]
          exact hids i hi
        · refine ⟨?_, htouch.trans hs.2⟩
          change (if answer.1 = true then 1 else 0) + r.1 = 0
          rw [if_neg hno, hs.1]

theorem sweep_alive (h : ∀ j, ¬ p.Dead j) : ∀ ids : List String,
    Ends (sweep ids) (fun removed q => removed = 0 ∧ q = p) (fun _ _ => False) p
  | [] => ⟨rfl, rfl⟩
  | id :: ids => by
      have hrest : Ends (do
          let further ← sweep ids
          return 0 + further) (fun removed q => removed = 0 ∧ q = p) (fun _ _ => False) p := by
        rw [ends_bind]
        refine (sweep_alive h ids).imp_good fun further q hq => ?_
        exact ⟨by rw [hq.1], hq.2⟩
      rw [sweep, ends_bind, ends_get]
      dsimp only
      split
      case h_2 => exact hrest
      case h_1 n hn =>
        split
        case isFalse => exact hrest
        case isTrue hdead =>
          rw [Bool.and_eq_true, Bool.and_eq_true, ← isConstant_of_node? hn, ← usersOf_of_node? hn,
            ← isMarked_of_node? hn, List.isEmpty_iff, Bool.not_eq_true'] at hdead
          exact absurd ⟨hdead.1.1, hdead.2, hdead.1.2⟩ (h id)

/-- **Where all that is asked for is unfit**, and nothing is a dead end, folding changes nothing. -/
theorem foldConstants_spent (hl : p.Linked) (hc : p.Coherent)
    (hb : p.behaviours.find .data = .ok .data) (hf : p.Flagged) (hlive : p.Live)
    (hun : ∀ j, p.Asked j → p.Unfit j) :
    Ends (foldConstants .reference) (fun stats q => stats.changed = false ∧ Touched p q)
      (fun _ _ => True) p := by
  rw [foldConstants_eq, ends_bind]
  refine (markConstants_touched hl hf).imp (fun _ m hm => ?_) fun _ _ _ => trivial
  rw [ends_bind, ends_get]
  dsimp only
  rw [ends_bind]
  refine (foldAll_unfit _ [] hm.kept.linked (hm.kept.coherent hc)
    (hm.kept.behaviours ▸ hb) (fun i hi => ?_) (fun _ _ hv => by cases hv)
    (fun _ _ hv => by cases hv)).imp_good fun r q hq => ?_
  · obtain ⟨-, hasked⟩ := (mem_targets hm.kept.linked).mp hi
    exact ⟨hasked.constant, hasked.computed,
      hm.toSameGraph.unfit_of_asked hm.flags hm.marks hun hasked⟩
  have htouch := hm.trans hq.2
  have hflagged := hf.sameGraph htouch.toSameGraph htouch.flags
  have hlive' := hlive.touched htouch.toReflagged
  rw [ends_bind, ends_get, ends_bind]
  refine (sweep_alive (fun j => hlive'.not_dead htouch.kept.linked hflagged) _).imp
    (fun removed s hs => ?_) fun _ _ hb => hb.elim
  obtain ⟨hremoved, rfl⟩ := hs
  exact ⟨changed_ofCounts.mpr ⟨hq.1, hremoved⟩, htouch⟩

end Pass

end NetPlan
