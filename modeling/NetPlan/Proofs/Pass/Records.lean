import NetPlan.Proofs.Pass.Sequence

/-!
# Proofs/Pass/Records — where reorders on record stand

A request for a layout may be answered with a reorder that was made for another node.  Nothing checks
where that stands; it is taken as long as it reads what the node that asks reads.  It does stand
before that node: a reorder is put right behind its source, and so ahead of every weighted node that
the source is ahead of (`Leads`), and only weighted nodes ask.

* `Recorded` — every reorder on record leads.  Answered requests keep that (`Sequenced.served`), and
  so does whatever lets no reorder come to read another node;
* `Tied` — a reorder on record reads its source as long as that is there.  So taking a reorder out,
  which lets others read something else, leads none of them back to the source it is on record for
  (`Recorded.bypassed`).

An output reorder that is taken out hands its id on, and a reorder may then read a node under an id
that is on record as the source of another place; so these statements are about graphs without.
-/

namespace NetPlan

open Program Edit Preferences

namespace Program

variable {p q : Program} {id source r x : String}

/-- Where one node became something else, the others are weighted if they were. -/
theorem isWeighted.of_shapes {o : Option Operation} (h : q.isWeighted x)
    (hq : q.shapeOf x = if x = id then o else p.shapeOf x)
    (ho : ∀ op, o = some op → op.kind.isWeighted = true → p.isWeighted x) : p.isWeighted x := by
  obtain ⟨op, hop, hk⟩ := h
  rw [hq] at hop
  split at hop
  · exact ho op hop hk
  · exact ⟨op, hop, hk⟩

/-- A reorder that reads `source` stands before every weighted node that `source` stands before. -/
def Leads (p : Program) (source r : String) : Prop :=
  p.isReorder r → (p.depsOf r)[0]? = some source →
    ∀ x, p.isWeighted x → Before p.order.ids source x → Before p.order.ids r x

/-- **Leading is a matter of the sequence**, as long as nothing becomes weighted and the reorder read
the same before. -/
theorem Leads.carry (h : p.Leads source r) (hl : p.Linked) (ho : p.Ordered) (ho' : q.Ordered)
    (hseq : SameSequence p.order.ids q.order.ids)
    (hweighted : ∀ x, q.isWeighted x → p.isWeighted x)
    (hreads : q.isReorder r → (q.depsOf r)[0]? = some source →
      p.isReorder r ∧ (p.depsOf r)[0]? = some source) : q.Leads source r := by
  intro hr hsource x hx hb
  obtain ⟨hr', hsource'⟩ := hreads hr hsource
  have hx' := hweighted x hx
  have hxp : x ∈ p.order.ids := (ho.mem x).mpr hx'.contains
  have hsp : source ∈ p.order.ids :=
    (ho.mem source).mpr (hl.contains_dep (List.mem_of_getElem? hsource'))
  have hrq : r ∈ q.order.ids := (ho'.mem r).mpr (contains_of_isReorder hr)
  have hbefore : Before p.order.ids r x :=
    h hr' hsource' x hx' ((hseq source x hsp hxp hb.mem_left hb.mem_right).mpr hb)
  exact (hseq r x hbefore.mem_left hxp hrq hb.mem_right).mp hbefore

end Program

namespace Pass

variable {p q : Program} {id input next copy source : String} {index : Nat} {prim : Primitive}
  {m m' : List Entry} {made : Option String}

/-! ## Reorders that lead -/

/-- The reorders on record lead, as far as they read what they are on record for. -/
structure Recorded (p : Program) (m : List Entry) : Prop where
  numbered : Numbered m
  leads : ∀ e ∈ m, p.Leads e.1.1 e.2.id

theorem recorded_nil (p : Program) : Recorded p [] :=
  ⟨numbered_nil, fun _ he => absurd he List.not_mem_nil⟩

namespace Recorded

theorem carry (h : Recorded p m) (hs : Sequenced p) (hs' : Sequenced q)
    (hseq : SameSequence p.order.ids q.order.ids)
    (hweighted : ∀ x, q.isWeighted x → p.isWeighted x)
    (hreads : ∀ e ∈ m, q.isReorder e.2.id → (q.depsOf e.2.id)[0]? = some e.1.1 →
      p.isReorder e.2.id ∧ (p.depsOf e.2.id)[0]? = some e.1.1) : Recorded q m :=
  ⟨h.numbered, fun e he =>
    (h.leads e he).carry hs.linked hs.ordered hs'.ordered hseq hweighted (hreads e he)⟩

theorem sameGraph (h : Recorded p m) (hs : Sequenced p) (hq : SameGraph p q)
    (order : q.order = p.order) : Recorded q m := by
  refine h.carry hs (hs.sameGraph hq order) (order ▸ .refl _) (fun x hx => ?_)
    fun e _ hr hsource => ?_
  · exact (isWeighted_congr (congrFun hq.shapes x)).mp hx
  · rw [isReorder, hq.shapes] at hr
    exact ⟨hr, hq.deps ▸ hsource⟩

theorem reworked {g : Task → Task} (h : Recorded p m) (hs : Sequenced p) (hs' : Sequenced q)
    (hq : Reworked p q id g) (hg : ∀ t, (g t).operation.kind = t.operation.kind) :
    Recorded q m := by
  refine h.carry hs hs' (hq.order ▸ .refl _) (fun x hx => ?_)
    fun e _ hr hsource => ⟨hq.isReorder_of hg hr, hq.deps ▸ hsource⟩
  obtain ⟨op, hop, hk⟩ := hx
  obtain ⟨op', hop', hkind⟩ := hq.exists_kind hg hop
  exact ⟨op', hop', hkind ▸ hk⟩

theorem removed (h : Recorded p m) (hs : Sequenced p) (husers : p.usersOf id = [])
    (hq : Removed p q id) : Recorded q m := by
  have hread := hs.linked.usersOf_eq_nil_iff.mp husers
  refine h.carry hs (hs.removed hq) (hq.order ▸ sameSequence_filter _ _)
    (fun x hx => hx.of_shapes (hq.shapes x) fun _ hop => nomatch hop) fun e _ hr hsource => ?_
  obtain ⟨hne, hr'⟩ := hq.isReorder_of hr
  rw [hq.deps, if_neg hne, Order.filter_ne_of_not_mem (hread _)] at hsource
  exact ⟨hr', hsource⟩

theorem folded (h : Recorded p m) (hs : Sequenced p) (hq : Folded p q id) : Recorded q m := by
  obtain ⟨prim, ⟨l, v, hprim⟩, hreplaced⟩ := hq.steps
  refine h.carry hs (hs.folded hq) (hreplaced.order ▸ .refl _)
    (fun x hx => hx.of_shapes (hreplaced.shapes x) fun op hop hk => ?_) fun e _ hr hsource => ?_
  · rw [← Option.some.inj hop, hprim] at hk
    cases hk
  · obtain ⟨hne, hr'⟩ := hreplaced.isReorder_of (by rw [hprim]; exact fun hk => nomatch hk) hr
    rw [hreplaced.deps, if_neg hne] at hsource
    exact ⟨hr', hsource⟩

/-- **A new reorder leads**: it comes right behind its source. -/
theorem inserted {layout : Layout} {padding : Padding} (h : Recorded p m) (hs : Sequenced p)
    (hq : Inserted p q prim next index source) (hnext : ¬ p.isReorder next)
    (hprim : prim = .reorder prim.id source layout padding) (hm : Numbered m')
    (hold : ∀ e ∈ m', e.2.id ≠ prim.id → e ∈ m)
    (hnew : ∀ e ∈ m', e.2.id = prim.id → e.1.1 = source) : Recorded q m' := by
  have hs' := hs.inserted hq hprim
  have hnot : prim.id ∉ p.order.ids := fun hmem => hq.free ((hs.ordered.mem prim.id).mp hmem)
  have hseq : SameSequence p.order.ids q.order.ids := by
    rw [hq.ids_order hs.ordered]
    exact Order.sameSequence_placeAfter source hnot
  have hweighted : ∀ x, q.isWeighted x → p.isWeighted x := fun x hx => by
    refine hx.of_shapes (hq.shapes x) fun op hop hk => ?_
    rw [← Option.some.inj hop, hprim] at hk
    cases hk
  refine ⟨hm, fun e he => ?_⟩
  by_cases hid : e.2.id = prim.id
  · intro _ _ x hx hb
    rw [hnew e he hid] at hb
    have hxp : x ∈ p.order.ids := (hs.ordered.mem x).mpr (hweighted x hx).contains
    have hsp := (hq.source_before hs.ordered).mem_left
    rw [hid, hq.ids_order hs.ordered]
    exact Order.before_placeAfter_of_before hs.ordered.nodup
      ((hseq source x hsp hxp hb.mem_left hb.mem_right).mpr hb)
  · refine (h.leads e (hold e he hid)).carry hs.linked hs.ordered hs'.ordered hseq hweighted
      fun hr hsource => ?_
    rw [isReorder, hq.shapes, if_neg hid] at hr
    have hne : e.2.id ≠ next := fun heq => hnext (heq ▸ hr)
    rw [hq.deps, if_neg hid, if_neg hne] at hsource
    exact ⟨hr, hsource⟩

/-- A reorder that padding puts in front of a convolution is not on record. -/
theorem padded (h : Recorded p m) (hs : Sequenced p) (hq : Padded p q id) : Recorded q m := by
  cases hq with
  | none same => exact same ▸ h
  | producer input padding work kept =>
    exact h.reworked hs (hs.step kept (work.ordered hs.ordered)) work fun _ => rfl
  | reorder prim source layout padding reader shape named inserted =>
    refine h.inserted hs inserted reader shape h.numbered (fun e he _ => he) fun e he hid => ?_
    obtain ⟨rest, hrest⟩ := named
    obtain ⟨k, hk⟩ := List.mem_iff_getElem?.mp he
    obtain ⟨-, rest', hrest'⟩ := h.numbered k e hk
    exact absurd (hrest.symm.trans (hid.symm.trans hrest')) input_ne_reorderId

end Recorded

/-! ## Requests -/

/-- **A reorder that leads can be shared.** -/
theorem Sequenced.shared (hs : Sequenced p) (hlead : p.Leads source copy)
    (hnext : p.isWeighted next) (hq : Shared p q copy next index source) : Sequenced q := by
  have hbefore := hs.ordered.before next source (List.mem_of_getElem? hq.source_eq)
  exact hs.step hq.kept (hq.ordered (hlead hq.reorder hq.reads next hnext hbefore) hs.ordered)

theorem Recorded.shared (h : Recorded p m) (hs : Sequenced p) (hs' : Sequenced q)
    (hnext : p.isWeighted next) (hq : Shared p q copy next index source) : Recorded q m := by
  refine h.carry hs hs' (hq.order ▸ .refl _)
    (fun x hx => (isWeighted_congr (congrFun hq.shapes x)).mp hx) fun e _ hr hsource => ?_
  rw [isReorder, hq.shapes] at hr
  have hne : e.2.id ≠ next := fun he => hnext.not_isReorder (he ▸ hr)
  rw [hq.deps, if_neg hne] at hsource
  exact ⟨hr, hsource⟩

/-- **Answered requests keep the order, and every record leads.** -/
theorem Sequenced.served (hs : Sequenced p) (h : Recorded p m) (hnext : p.isWeighted next)
    (hq : Served p q m m' next index made) : Sequenced q ∧ Recorded q m' := by
  have hm' := hq.numbered h.numbered
  obtain ⟨rfl, rfl⟩ | ⟨e, he, hins, hold⟩ | ⟨rfl, e, he, hshare⟩ := hq.cases h.numbered
  · exact ⟨hs, h⟩
  · have hprim := hm'.reorder_of_mem he
    refine ⟨hs.inserted hins hprim, h.inserted hs hins hnext.not_isReorder hprim hm'
      (fun e' he' hid => (hold e' he').resolve_right fun heq => hid (by rw [heq]))
      fun e' he' hid => ?_⟩
    rw [hm'.eq_of_id he' he hid]
  · have hs' := hs.shared (h.leads e he) hnext hshare
    exact ⟨hs', h.shared hs hs' hnext hshare⟩

theorem Sequenced.weighed (hs : Sequenced p) (h : Recorded p m) (hnext : p.isWeighted next)
    (hq : Weighed p q m m' next index) : Sequenced q ∧ Recorded q m' := by
  cases hq with
  | unchanged served => exact hs.served h hnext served
  | reordered p' r served planned =>
    obtain ⟨hs', h'⟩ := hs.served h hnext served
    exact ⟨hs'.sameGraph planned.toSameGraph planned.order,
      h'.sameGraph hs' planned.toSameGraph planned.order⟩

/-! ## Reorders that read their source -/

/-- A reorder on record reads its source, as long as that is there. -/
def Tied (p : Program) (m : List Entry) : Prop :=
  ∀ e ∈ m, p.contains e.1.1 = true → p.isReorder e.2.id → p.depsOf e.2.id = [e.1.1]

/-- And all sources are there. -/
structure Attached (p : Program) (m : List Entry) : Prop where
  tied : Tied p m
  there : ∀ e ∈ m, p.contains e.1.1 = true

theorem tied_nil (p : Program) : Tied p [] := fun _ he => absurd he List.not_mem_nil

theorem Tied.of_views (h : Tied p m) (contains : q.contains = p.contains)
    (reorders : ∀ j, q.isReorder j → p.isReorder j) (deps : q.depsOf = p.depsOf) : Tied q m :=
  fun e he hc hr => by
    rw [contains] at hc
    rw [deps]
    exact h e he hc (reorders _ hr)

theorem Tied.sameGraph (h : Tied p m) (hq : SameGraph p q) : Tied q m :=
  h.of_views hq.contains (fun j hr => by
    rw [isReorder, hq.shapes] at hr
    exact hr) hq.deps

theorem Attached.sameGraph (h : Attached p m) (hq : SameGraph p q) : Attached q m :=
  ⟨h.tied.sameGraph hq, fun e he => by rw [hq.contains, h.there e he]⟩

/-- **Answered requests leave reorders at their sources.** -/
theorem Attached.served (h : Attached p m) (hm : Numbered m) (hnext : ¬ p.isReorder next)
    (hq : Served p q m m' next index made) : Attached q m' := by
  have hm' := hq.numbered hm
  obtain ⟨rfl, rfl⟩ | ⟨e, he, hins, hold⟩ | ⟨rfl, e, he, hshare⟩ := hq.cases hm
  · exact h
  · have hargs : e.2.arguments = [e.1.1] := by
      rw [hm'.reorder_of_mem he]
      rfl
    refine ⟨fun e' he' _ hr => ?_, fun e' he' => (hins.contains _).mpr (Or.inr ?_)⟩
    · rw [hins.deps]
      by_cases hid : e'.2.id = e.2.id
      · rw [if_pos hid, hargs, hm'.eq_of_id he' he hid]
      · have hmem := (hold e' he').resolve_right fun heq => hid (by rw [heq])
        rw [isReorder, hins.shapes, if_neg hid] at hr
        rw [if_neg hid, if_neg fun heq : e'.2.id = next => hnext (heq ▸ hr)]
        exact h.tied e' hmem (h.there e' hmem) hr
    · rcases hold e' he' with hmem | rfl
      · exact h.there e' hmem
      · exact hins.known _ hins.consumes
  · have hcontains := contains_congr hshare.ids
    refine ⟨fun e' he' hc hr => ?_, fun e' he' => by rw [hcontains, h.there e' he']⟩
    rw [hcontains] at hc
    rw [isReorder, hshare.shapes] at hr
    rw [hshare.deps, if_neg fun heq : e'.2.id = next => hnext (heq ▸ hr)]
    exact h.tied e' he' hc hr

/-- **Taking a node out** leads no reorder back to a source it did not read. -/
theorem Recorded.bypassed (h : Recorded p m) (ht : Tied p m) (hs : Sequenced p)
    (hq : Bypassed p q id input) : Recorded q m ∧ Tied q m := by
  have hs' := hs.step hq.kept (hq.ordered hs.ordered hs.linked)
  have hback : ∀ e ∈ m, q.contains e.1.1 = true → q.isReorder e.2.id →
      e.2.id ≠ id ∧ e.1.1 ≠ id ∧ p.isReorder e.2.id ∧ p.depsOf e.2.id = [e.1.1] := by
    intro e he hc hr
    obtain ⟨hne, hr'⟩ := hq.isReorder_of hr
    obtain ⟨hne', hc'⟩ := (hq.contains_iff _).mp hc
    exact ⟨hne, hne', hr', ht e he hc' hr'⟩
  refine ⟨h.carry hs hs' (hq.order ▸ sameSequence_filter _ _)
    (fun x hx => hx.of_shapes (hq.shapes x) fun _ hop => nomatch hop) fun e he hr hsource => ?_,
    fun e he hc hr => ?_⟩
  · obtain ⟨-, -, hr', hdeps⟩ :=
      hback e he (hs'.linked.contains_dep (List.mem_of_getElem? hsource)) hr
    exact ⟨hr', by rw [hdeps]; rfl⟩
  · obtain ⟨hne, hne', -, hdeps⟩ := hback e he hc hr
    rw [hq.deps, if_neg hne, hdeps, List.map_singleton, swap_of_ne hne']

end Pass

end NetPlan
