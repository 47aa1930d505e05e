import NetPlan.Proofs.Pass.Foldable

/-!
# Proofs/Pass/Lossless — reorders whose removal loses nothing

Two reorders in a row round twice, and the one they are merged into rounds once.  So merging them
keeps the values if both go to one element type, or if the first loses nothing: what it reads is
**exact** in an element type that fits its own (`Exact`).  It may read a reorder itself, and be
merged with that before; hence exactness goes back to where the chain begins.

* `Exact.cast_eq` — a reorder that is exact in an element type has values of it;
* `lossless_shortened` — a lossless program stays so when a reorder goes;
* `removeRedundantReorders_values` — so in a lossless program the pass keeps the logical values of
  every output.  In others it does not (`removeRedundantReorders_rounds`): the pass does not look at
  the element type in the middle.
-/

namespace NetPlan

/-- A tensor of values that fit an element type is not changed by rounding to it. -/
theorem HostTensor.cast_of_fits {t : HostTensor} {e e' : Element} (ht : t.cast e = t)
    (h : e.fits e' = true) : t.cast e' = t := by
  have hmap : t.values.map e.cast = t.values := congrArg HostTensor.values ht
  refine congrArg (HostTensor.mk t.size) ?_
  calc t.values.map e'.cast
      = (t.values.map e.cast).map e'.cast := by rw [hmap]
    _ = t.values.map e.cast := by
        rw [Array.map_map]
        exact Array.map_congr_left fun a _ => Element.cast_of_fits h a
    _ = t.values := hmap

namespace Program

variable {p q : Program} {id input d : String} {e : Element} {l : Layout} {t : HostTensor}
  {r s : Reorder}

/-- What reorder `id` takes in are values of element type `e`: the reorders that it reads through
lost nothing. -/
inductive Exact (p : Program) : String → Element → Prop
  | read {id d : String} {l : Layout} (copy : p.isCopy id) (reads : p.depsOf id = [d])
      (source : ¬ p.isReorder d) (laid : p.freshLayout d = .ok l) : Exact p id l.element
  | passed {id d : String} {r : Reorder} {e : Element} (copy : p.isCopy id)
      (reads : p.depsOf id = [d]) (reorder : p.shapeOf d = some (.reorder r))
      (exact : Exact p d e) (fits : e.fits r.element = true) : Exact p id e
  | subtracted {id : String} {r : Reorder} (reorder : p.shapeOf id = some (.reorder r))
      (some : r.subtract ≠ []) : Exact p id .f32

/-- Where one reorder copies another, they go to the same element type or the first loses nothing. -/
def Lossless (p : Program) : Prop :=
  ∀ id d r s, p.shapeOf id = some (.reorder r) → r.subtract = [] → p.depsOf id = [d] →
    p.shapeOf d = some (.reorder s) →
    s.element = r.element ∨ ∃ e, p.Exact d e ∧ e.fits s.element = true

/-- Literals have buffers of the element type that their layout says. -/
def Typed (p : Program) : Prop := ∀ id l b, p.shapeOf id = some (.data l b) → b.element = l.element

/-- Reorders have not absorbed an activation. -/
def PlainReorders (p : Program) : Prop :=
  ∀ id t, p.taskOf id = some t → t.operation.kind = .reorder → t.absorbed.isNone = true

theorem element_of_reorder (hr : p.shapeOf id = some (.reorder r))
    (hl : p.freshLayout id = .ok l) : l.element = r.element := by
  obtain ⟨t, inputs, ht, -, hlays⟩ := freshLayout_iff.mp hl
  rw [shapeOf_eq_taskOf, ht, Option.map_some, Option.some.injEq] at hr
  obtain ⟨-, i, rest, -, rfl⟩ := (Task.lays_reorder_iff hr).mp hlays
  rfl

/-- The values in a buffer are of the element type of its layout. -/
theorem Shows.cast_eq (h : p.Shows id t) (ht : p.Typed) (hl : p.freshLayout id = .ok l) :
    t.cast l.element = t := by
  obtain ⟨v, hv, -, hunpack⟩ := h
  have helement : v.values.element = l.element := by
    rw [← hv.layout_eq hl]
    rcases hasValue_reference_iff.mp hv with hdata | ⟨s, -, hs⟩
    · exact ht _ _ _ hdata
    · exact (pack_size hs).2.1
  rw [← helement]
  exact (unpack_spec hunpack).2.2

/-- A copy computes what it reads. -/
theorem Produces.shows_of_isCopy (h : p.Produces id l t) (hplain : p.PlainReorders)
    (hcopy : p.isCopy id) (hdeps : p.depsOf id = [d]) : p.Shows d t := by
  obtain ⟨r, hr, hsub⟩ := hcopy
  rw [shapeOf_eq_taskOf, Option.map_eq_some_iff] at hr
  obtain ⟨⟨padding, op, absorbed⟩, htask, hop⟩ := hr
  cases hop
  exact h.copy htask hsub (hplain id _ htask rfl) hdeps

/-- **What is exact in an element type has values of it.** -/
theorem Exact.cast_eq (h : p.Exact id e) (ht : p.Typed) (hplain : p.PlainReorders) :
    ∀ {l t}, p.Produces id l t → t.cast e = t := by
  induction h with
  | read copy reads source laid =>
    intro l t hprod
    exact (hprod.shows_of_isCopy hplain copy reads).cast_eq ht laid
  | @passed id d r e copy reads reorder exact fits ih =>
    intro l t hprod
    have hdata : ∀ l b, p.shapeOf d ≠ some (.data l b) := fun l b hdata => by
      rw [reorder] at hdata
      cases hdata
    obtain ⟨l', s, hs, rfl⟩ := (hprod.shows_of_isCopy hplain copy reads).exists_produces hdata
    have hlaid : p.freshLayout d = .ok l' := by
      obtain ⟨_, _, -, -, -, -, hlaid, -⟩ := hs
      exact hlaid
    -- the reorder that is read through did not change the tensor
    rw [element_of_reorder reorder hlaid, HostTensor.cast_of_fits (ih hs) fits]
    exact ih hs
  | subtracted reorder some => exact fun _ => HostTensor.cast_f32 _

end Program

namespace Pass

open Program Edit

variable {p₀ p q : Program} {id input j : String} {e : Element} {r : Reorder}

/-! ## Reorders that go -/

/-- `q` is `p` with reorder `id`, which does `r`, and its input as one node.  An input that is a
reorder as well has taken over the element type. -/
structure Shortened (p q : Program) (id input : String) (r : Reorder) : Prop where
  copies : p.shapeOf id = some (.reorder r)
  plain : r.subtract = []
  only : p.depsOf id = [input]
  acyclic : id ∉ p.depsOf input
  shapes : ∀ j, j ≠ id → j ≠ input → q.shapeOf j = p.shapeOf j
  deps : ∀ j, j ≠ id → j ≠ input → q.depsOf j = (p.depsOf j).map (onto p id input)
  reads : q.depsOf (survivor p id input) = p.depsOf input
  left : ∀ j, q.contains j = true → j = survivor p id input ∨ (j ≠ id ∧ j ≠ input)
  reorder : ∀ s, p.shapeOf input = some (.reorder s) → ∃ s',
    q.shapeOf (survivor p id input) = some (.reorder s') ∧ s'.subtract = s.subtract ∧
      s'.element = r.element
  other : ¬ p.isReorder input → ¬ q.isReorder (survivor p id input)
  /-- No other node reads the input, or it finds there what it found. -/
  unnoticed : ∀ s, p.shapeOf input = some (.reorder s) →
    p.usersOf input = [id] ∨ s.element = r.element
  layouts : ∀ j l, (j = input → ¬ p.isReorder input) → p.freshLayout j = .ok l →
    q.freshLayout (onto p id input j) = .ok l

namespace Shortened

variable (h : Shortened p q id input r)
include h

theorem isReorder_id : p.isReorder id := ⟨r, h.copies⟩

/-- What the input reads is neither of the two. -/
theorem dep_ne (hl : p.Linked) {d : String} (hd : d ∈ p.depsOf input) : d ≠ id ∧ d ≠ input :=
  ⟨fun he => h.acyclic (he ▸ hd), hl.dep_ne hd⟩

theorem isCopy_survivor (hin : p.isCopy input) : q.isCopy (survivor p id input) := by
  obtain ⟨s, hs, hsub⟩ := hin
  obtain ⟨s', hs', hsame, -⟩ := h.reorder s hs
  exact ⟨s', hs', hsame.trans hsub⟩

theorem isReorder_input (hs : q.isReorder (survivor p id input)) : p.isReorder input := by
  by_contra hno
  exact h.other hno hs

/-- Another node that reads the input finds the element type that it found. -/
theorem element_input (hl : p.Linked) {s : Reorder} (hs : p.shapeOf input = some (.reorder s))
    (hj : j ≠ id) (hd : input ∈ p.depsOf j) : s.element = r.element := by
  exact (h.unnoticed s hs).resolve_left fun husers => hj (hl.eq_of_usersOf husers hd)

end Shortened

/-- **What is exact stays so**, if it is still a reorder. -/
theorem exact_shortened (h : Shortened p q id input r) (hl : p.Linked) (he : p.Exact j e) :
    (j = id → p.isReorder input) → q.Exact (onto p id input j) e := by
  induction he with
  | @read j d l copy reads source laid =>
    intro hj
    by_cases hjid : j = id
    · -- what the reorder reads is its input
      subst hjid
      rw [h.only] at reads
      cases reads
      exact absurd (hj rfl) source
    by_cases hjin : j = input
    · subst hjin
      obtain ⟨hdid, hdin⟩ := h.dep_ne hl (reads ▸ List.mem_singleton_self d)
      have hlaid := h.layouts d l (fun he => absurd he hdin) laid
      rw [onto_of_ne hdid hdin] at hlaid
      rw [onto_input]
      refine .read (h.isCopy_survivor copy) (h.reads.trans reads) ?_ hlaid
      rwa [isReorder, h.shapes d hdid hdin]
    · have hdid : d ≠ id := fun he => source (he ▸ h.isReorder_id)
      have hlaid := h.layouts d l (fun he => he ▸ source) laid
      rw [onto_of_ne hjid hjin]
      refine .read ?_ (by rw [h.deps j hjid hjin, reads]; rfl) ?_ hlaid
      · rwa [isCopy, h.shapes j hjid hjin]
      · by_cases hdin : d = input
        · subst hdin
          rw [onto_input]
          exact h.other source
        · rwa [onto_of_ne hdid hdin, isReorder, h.shapes d hdid hdin]
  | @passed j d s e copy reads reorder exact fits ih =>
    intro hj
    by_cases hjid : j = id
    · subst hjid
      rw [h.only] at reads
      cases reads
      have hd := ih fun he => absurd he (hl.dep_ne (h.only ▸ List.mem_singleton_self input))
      rwa [onto_input, ← onto_id] at hd
    by_cases hjin : j = input
    · subst hjin
      obtain ⟨hdid, hdin⟩ := h.dep_ne hl (reads ▸ List.mem_singleton_self d)
      have hd := ih fun he => absurd he hdid
      rw [onto_of_ne hdid hdin] at hd
      rw [onto_input]
      refine .passed (h.isCopy_survivor copy) (h.reads.trans reads) ?_ hd fits
      rw [h.shapes d hdid hdin, reorder]
    · have hcopy : q.isCopy j := by rwa [isCopy, h.shapes j hjid hjin]
      have hreads : q.depsOf j = [onto p id input d] := by
        rw [h.deps j hjid hjin, reads]
        rfl
      rw [onto_of_ne hjid hjin]
      by_cases hdid : d = id
      · subst hdid
        rw [h.copies] at reorder
        cases reorder
        by_cases hin : p.isReorder input
        · obtain ⟨s, hs⟩ := hin
          obtain ⟨s', hs', -, helement⟩ := h.reorder s hs
          have hd := ih fun _ => ⟨s, hs⟩
          exact .passed hcopy hreads (by rw [onto_id, hs']) hd (helement ▸ fits)
        · -- the reorder made way for what is none
          cases exact with
          | read _ reads' _ laid =>
            rw [h.only] at reads'
            cases reads'
            have hlaid := h.layouts input _ (fun _ => hin) laid
            rw [onto_input, ← onto_id] at hlaid
            refine .read hcopy hreads ?_ hlaid
            rw [onto_id]
            exact h.other hin
          | passed _ reads' reorder' =>
            rw [h.only] at reads'
            cases reads'
            exact absurd ⟨_, reorder'⟩ hin
          | subtracted reorder' some =>
            rw [h.copies] at reorder'
            cases reorder'
            exact absurd h.plain some
      · by_cases hdin : d = input
        · subst hdin
          obtain ⟨s', hs', -, helement⟩ := h.reorder s reorder
          have hsame := h.element_input hl reorder hjid (reads ▸ List.mem_singleton_self d)
          refine .passed hcopy hreads (by rw [onto_input, hs']) (ih fun he => absurd he hdid) ?_
          rw [helement, ← hsame]
          exact fits
        · refine .passed hcopy hreads ?_ (ih fun he => absurd he hdid) fits
          rw [onto_of_ne hdid hdin, h.shapes d hdid hdin, reorder]
  | @subtracted j s reorder some =>
    intro _
    by_cases hjid : j = id
    · subst hjid
      rw [h.copies] at reorder
      cases reorder
      exact absurd h.plain some
    by_cases hjin : j = input
    · subst hjin
      obtain ⟨s', hs', hsame, -⟩ := h.reorder s reorder
      rw [onto_input]
      exact .subtracted hs' (hsame ▸ some)
    · rw [onto_of_ne hjid hjin]
      exact .subtracted (by rw [h.shapes j hjid hjin, reorder]) some

/-- **A lossless program stays lossless.** -/
theorem lossless_shortened (hp : p.Lossless) (h : Shortened p q id input r) (hl : p.Linked) :
    q.Lossless := by
  intro b d' rb s' hb hsub hdeps hd'
  have hexact : ∀ {j e}, p.Exact j e → (j = id → p.isReorder input) →
      q.Exact (onto p id input j) e := fun he hj => exact_shortened h hl he hj
  have hthere : q.contains b = true := by
    rw [contains_eq_isSome_shapeOf, hb, Option.isSome_some]
  rcases h.left b hthere with rfl | ⟨hbid, hbin⟩
  · obtain ⟨s, hs⟩ := h.isReorder_input ⟨rb, hb⟩
    obtain ⟨rb', hb', hsame, helement⟩ := h.reorder s hs
    rw [hb] at hb'
    cases hb'
    rw [h.reads] at hdeps
    obtain ⟨hdid, hdin⟩ := h.dep_ne hl (hdeps ▸ List.mem_singleton_self d')
    rw [h.shapes d' hdid hdin] at hd'
    have hnext : ∀ {e}, p.Exact d' e → q.Exact d' e := fun he => by
      have hq := hexact he fun he => absurd he hdid
      rwa [onto_of_ne hdid hdin] at hq
    rcases hp input d' s s' hs (hsame ▸ hsub) hdeps hd' with hel | ⟨e, he, hfits⟩
    · rcases hp id input r s h.copies h.plain h.only hs with hel' | ⟨e, he, hfits⟩
      · exact Or.inl (hel.trans (hel'.trans helement.symm))
      · -- the input reads a reorder of its own element type, which loses nothing either
        cases he with
        | read _ reads source _ =>
          rw [hdeps] at reads
          cases reads
          exact absurd ⟨s', hd'⟩ source
        | passed _ reads _ exact _ =>
          rw [hdeps] at reads
          cases reads
          exact Or.inr ⟨e, hnext exact, hel ▸ hfits⟩
        | subtracted reorder some =>
          rw [hs] at reorder
          cases reorder
          exact absurd (hsame ▸ hsub) some
    · exact Or.inr ⟨e, hnext he, hfits⟩
  · rw [h.shapes b hbid hbin] at hb
    rw [h.deps b hbid hbin] at hdeps
    obtain ⟨d, hd, rfl⟩ := List.map_eq_singleton_iff.mp hdeps
    by_cases hdid : d = id
    · subst hdid
      rw [onto_id] at hd' ⊢
      have hin := h.isReorder_input ⟨s', hd'⟩
      obtain ⟨s, hs⟩ := hin
      obtain ⟨s'', hs'', -, helement⟩ := h.reorder s hs
      rw [hd'] at hs''
      cases hs''
      rw [helement]
      refine (hp b d rb r hb hsub hd h.copies).imp_right fun ⟨e, he, hfits⟩ => ⟨e, ?_, hfits⟩
      rw [← onto_id]
      exact hexact he fun _ => ⟨s, hs⟩
    by_cases hdin : d = input
    · subst hdin
      rw [onto_input] at hd' ⊢
      obtain ⟨s, hs⟩ := h.isReorder_input ⟨s', hd'⟩
      obtain ⟨s'', hs'', -, helement⟩ := h.reorder s hs
      rw [hd'] at hs''
      cases hs''
      rw [helement, ← h.element_input hl hs hbid (hd ▸ List.mem_singleton_self d)]
      refine (hp b d rb s hb hsub hd hs).imp_right fun ⟨e, he, hfits⟩ => ⟨e, ?_, hfits⟩
      rw [← onto_input]
      exact hexact he fun he => absurd he hdid
    · rw [onto_of_ne hdid hdin] at hd' ⊢
      rw [h.shapes d hdid hdin] at hd'
      refine (hp b d rb s' hb hsub hd hd').imp_right fun ⟨e, he, hfits⟩ => ⟨e, ?_, hfits⟩
      have hq := hexact he fun he => absurd he hdid
      rwa [onto_of_ne hdid hdin] at hq

/-! ## The rewrites -/

theorem shapes_of_contracted {g : Task → Task} (h : Contracted p q id input g) {j : String}
    (hid : j ≠ id) (hin : j ≠ input) : q.shapeOf j = p.shapeOf j := by
  rw [shapeOf_eq_taskOf, h.tasks j hid hin, ← shapeOf_eq_taskOf]

/-- A merged reorder is gone. -/
theorem shortened_merging {format : Format} {element : Element} {padding : Padding}
    {absorbed : Activation} {t : Task} {s : Reorder}
    (h : Contracted p q id input (merging format element padding))
    (hid : p.taskOf id = some ⟨padding, .reorder ⟨"", format, element, []⟩, absorbed⟩)
    (ht : p.taskOf input = some t) (hs : t.operation = .reorder s) (husers : p.usersOf input = [id])
    (hrender : ∀ j, j ≠ input → Renders Eq p q j (onto p id input j)) :
    Shortened p q id input ⟨"", format, element, []⟩ := by
  have hshape : p.shapeOf input = some (.reorder s) := by
    rw [shapeOf_eq_taskOf, ht, Option.map_some, hs]
  exact
    { copies := by rw [shapeOf_eq_taskOf, hid, Option.map_some]
      plain := rfl
      only := h.only
      acyclic := h.acyclic
      shapes := fun j => shapes_of_contracted h
      deps := h.deps
      reads := h.reads
      left := fun j hj => (h.exists_onto hj).imp_right fun hj => ⟨hj.1, hj.2.1⟩
      reorder := fun s' hs' => by
        rw [hshape] at hs'
        cases hs'
        refine ⟨{ s with format, element }, ?_, rfl, rfl⟩
        rw [shapeOf_eq_taskOf, h.task, ht, Option.map_some, Option.map_some, merging, hs]
        rfl
      other := fun hno => absurd ⟨s, hshape⟩ hno
      unnoticed := fun _ _ => Or.inl husers
      layouts := fun j l hj => (hrender j fun he => hj he ⟨s, hshape⟩).layout l }

/-- A dropped reorder is gone. -/
theorem Dropped.shortened (h : Dropped p q id input) (hl : p.Linked)
    (hrender : ∀ j, Renders ConstantValue.Alike p q j (onto p id input j)) :
    ∃ r, Shortened p q id input r := by
  have hcon := h.extracted.contracted hl
  obtain ⟨r, hr, hsub⟩ := h.copy
  obtain ⟨l, hid, hinput⟩ := h.layout
  have hsurvivor : q.shapeOf (survivor p id input) = p.shapeOf input := by
    rw [shapeOf_eq_taskOf, hcon.task, Option.map_id', ← shapeOf_eq_taskOf]
  have helement : ∀ s, p.shapeOf input = some (.reorder s) → s.element = r.element := fun s hs =>
    (element_of_reorder hs hinput).symm.trans (element_of_reorder hr hid)
  exact ⟨r,
    { copies := hr
      plain := hsub
      only := hcon.only
      acyclic := hcon.acyclic
      shapes := fun j => shapes_of_contracted hcon
      deps := hcon.deps
      reads := hcon.reads
      left := fun j hj => (hcon.exists_onto hj).imp_right fun hj => ⟨hj.1, hj.2.1⟩
      reorder := fun s hs => ⟨s, hsurvivor.trans hs, rfl, helement s hs⟩
      other := fun hno => by rwa [isReorder, hsurvivor]
      unnoticed := fun s hs => Or.inr (helement s hs)
      layouts := fun j l _ => (hrender j).layout l }⟩

/-- Literals and activations that were absorbed are where they were. -/
theorem plain_of_contracted {g : Task → Task} (h : Contracted p q id input g)
    (hg : ∀ t, (g t).operation.kind = t.operation.kind ∧ (g t).absorbed = t.absorbed ∧
      ∀ l b, (g t).operation = .data l b → t.operation = .data l b)
    (htyped : p.Typed) (hplain : p.PlainReorders) : q.Typed ∧ q.PlainReorders := by
  have hnode : ∀ j t, q.taskOf j = some t → ∃ i t', p.taskOf i = some t' ∧
      t.operation.kind = t'.operation.kind ∧ t.absorbed = t'.absorbed ∧
      ∀ l b, t.operation = .data l b → t'.operation = .data l b := fun j t ht => by
    have hj : q.contains j = true := by rw [contains_eq_isSome_taskOf, ht, Option.isSome_some]
    rcases h.exists_onto hj with rfl | ⟨hid, hin, -⟩
    · rw [h.task, Option.map_eq_some_iff] at ht
      obtain ⟨t', ht', rfl⟩ := ht
      exact ⟨input, t', ht', hg t'⟩
    · rw [h.tasks j hid hin] at ht
      exact ⟨j, t, ht, rfl, rfl, fun _ _ hdata => hdata⟩
  refine ⟨fun j l b hdata => ?_, fun j t ht hr => ?_⟩
  · rw [shapeOf_eq_taskOf, Option.map_eq_some_iff] at hdata
    obtain ⟨t, ht, hdata⟩ := hdata
    obtain ⟨i, t', ht', -, -, hsame⟩ := hnode j t ht
    exact htyped i l b (by rw [shapeOf_eq_taskOf, ht', Option.map_some, hsame l b hdata])
  · obtain ⟨i, t', ht', hkind, habsorbed, -⟩ := hnode j t ht
    rw [habsorbed]
    exact hplain i t' ht' (hkind ▸ hr)

/-! ## The pass -/

/-- What is left of a lossless program: its outputs have the logical values they had. -/
structure Shortening (p₀ p : Program) : Prop extends Sequenced p where
  lossless : p.Lossless
  typed : p.Typed
  plain : p.PlainReorders
  marks : p.isMarked = p₀.isMarked
  values : ∀ o v, p₀.isMarked o = true → p₀.HasValue .reference o v →
    ∃ v', p.HasValue .reference o v' ∧ v.Alike v'

namespace Shortening

variable (h : Shortening p₀ p)
include h

/-- An output that is rendered keeps its logical values. -/
theorem values_of_renders {o : String} (hr : p.isMarked o = true →
    Renders ConstantValue.Alike p q o o) {v : ConstantValue} (ho : p₀.isMarked o = true)
    (hv : p₀.HasValue .reference o v) : ∃ v', q.HasValue .reference o v' ∧ v.Alike v' := by
  obtain ⟨v', hv', halike⟩ := h.values o v ho hv
  obtain ⟨v'', hv'', halike'⟩ := (hr (h.marks ▸ ho)).value v' hv'
  exact ⟨v'', hv'', halike'.1.trans halike.1, halike'.2.trans halike.2⟩

theorem touched (hq : Touched p q) : Shortening p₀ q where
  toSequenced := h.toSequenced.sameGraph hq.toSameGraph hq.order
  lossless := fun id d r s => by
    have hexact : ∀ {j e}, p.Exact j e → q.Exact j e := fun he => by
      induction he with
      | read copy reads source laid =>
        refine .read (by rwa [isCopy, hq.shapes]) (by rwa [hq.deps]) (by rwa [isReorder, hq.shapes])
          ((hq.toSameGraph.renders h.ordered _).layout _ laid)
      | passed copy reads reorder _ fits ih =>
        exact .passed (by rwa [isCopy, hq.shapes]) (by rwa [hq.deps]) (by rwa [hq.shapes]) ih fits
      | subtracted reorder some => exact .subtracted (by rwa [hq.shapes]) some
    rw [hq.shapes, hq.deps]
    intro hid hsub hdeps hd
    exact (h.lossless id d r s hid hsub hdeps hd).imp_right fun hb =>
      hb.imp fun _ => And.imp_left hexact
  typed id l b hdata := h.typed id l b (hq.shapes ▸ hdata)
  plain id t ht := h.plain id t (hq.toSameGraph.tasks ▸ ht)
  marks := hq.marks.trans h.marks
  values o v := h.values_of_renders fun _ => (hq.toSameGraph.renders h.ordered o).alike

theorem merged {bound : Bool} (hq : Merged p q bound id) : Shortening p₀ q := by
  obtain ⟨input, format, element, padding, absorbed, t, s, hcon, hid, ht, hs, husers, hsilent⟩ :=
    hq.contracted h.linked
  have hshape : p.shapeOf input = some (.reorder s) := by
    rw [shapeOf_eq_taskOf, ht, Option.map_some, hs]
  have hrender : ∀ j, j ≠ input → Renders Eq p q j (onto p id input j) := fun j hj => by
    refine renders_merging hcon h.linked h.ordered hid (h.plain id _ hid rfl) ht hs husers
      (fun l u hu => ?_) hj
    have hloss := h.lossless id input ⟨"", format, element, []⟩ s
      (by rw [shapeOf_eq_taskOf, hid, Option.map_some]) rfl hcon.only hshape
    rcases hloss with hsame | ⟨e, he, hfits⟩
    · exact Or.inr hsame
    · exact Or.inl (HostTensor.cast_of_fits (he.cast_eq h.typed h.plain hu) hfits)
  have hshort := shortened_merging hcon hid ht hs husers hrender
  have hliteral : ∀ {op : Operation} {l b}, retargeted op format element = .data l b →
      op = .data l b := fun {op} {l} {b} hdata => by
    cases op <;> first | exact hdata | cases hdata
  obtain ⟨htyped, hplain⟩ := plain_of_contracted hcon
    (fun t => ⟨kind_retargeted .., rfl, fun l b hdata => hliteral hdata⟩) h.typed h.plain
  exact ⟨h.toSequenced.merged hq, lossless_shortened h.lossless hshort h.linked, htyped, hplain,
    hcon.marks.trans h.marks, fun o v => h.values_of_renders fun ho => by
      have hr := hrender o fun he => by
        rw [he, hsilent] at ho
        cases ho
      rw [hcon.onto_of_marked ho] at hr
      exact hr.alike⟩

theorem dropped (hq : Dropped p q id input) : Shortening p₀ q := by
  have hcon := hq.extracted.contracted h.linked
  have hrender : ∀ j, Renders ConstantValue.Alike p q j (onto p id input j) := fun j => by
    refine (hq.renders h.linked h.ordered (fun t ht => h.plain id t ht ?_)
      fun l b hdata => h.typed input l b hdata).1
    obtain ⟨r, hr, -⟩ := hq.copy
    rw [shapeOf_eq_taskOf, ht, Option.map_some, Option.some.injEq] at hr
    rw [hr]
    rfl
  obtain ⟨r, hshort⟩ := hq.shortened h.linked hrender
  obtain ⟨htyped, hplain⟩ := plain_of_contracted hcon
    (fun t => ⟨rfl, rfl, fun _ _ hdata => hdata⟩) h.typed h.plain
  exact ⟨h.toSequenced.extracted hq.extracted, lossless_shortened h.lossless hshort h.linked,
    htyped, hplain, hcon.marks.trans h.marks, fun o v => h.values_of_renders fun ho => by
      have hr := hrender o
      rwa [hcon.onto_of_marked ho] at hr⟩

end Shortening

end Pass

open Program

/-- **Removing redundant reorders keeps the values** of a lossless program: every output that has a
value before the pass has one after it, in the same layout and with the same logical values. -/
theorem removeRedundantReorders_values (env : Environment) (c c' : Compilation) (stats : PassStats)
    (hw : c.program.WellFormed) (ho : c.program.isOrdered = true) (hc : c.program.Coherent)
    (hlossless : c.program.Lossless) (htyped : c.program.Typed) (hplain : c.program.PlainReorders)
    (hrun : (Pass.removeRedundantReorders env).run.run c = (.ok stats, c')) (o : String)
    (v : ConstantValue) (hmark : c.program.isMarked o = true)
    (hv : c.program.HasValue .reference o v) :
    ∃ v', c'.program.HasValue .reference o v' ∧ v.Alike v' := by
  have hstart : Pass.Shortening c.program c.program :=
    ⟨⟨⟨hw.toLinked, hc⟩, (isOrdered_iff hw.toLinked).mp ho⟩, hlossless, htyped, hplain, rfl,
      fun _ v _ hv => ⟨v, hv, .refl v⟩⟩
  have hends := Pass.removeRedundantReorders_ends env (Pass.Shortening c.program)
    (fun hp => ⟨hp.linked, hp.coherent, hp.ranked⟩) (fun hp hq => hp.touched hq)
    (fun hp hq => hp.merged hq.toMerged) (fun hp hq => hp.dropped hq) hstart
  rw [Ends, hrun] at hends
  exact hends.1.values o v hmark hv

/-- A literal of small integers, copied into half and then into single precision. -/
def Topology.widened : Topology :=
  ⟨[⟨"d", Padding.none, .data (.dense .i8 .bfyx ⟨1, 1, 1, 1⟩) (.i8 #[3])⟩,
    ⟨"r", Padding.none, .reorder ⟨"d", .yxfb, .f16, []⟩⟩,
    ⟨"t", Padding.none, .reorder ⟨"r", .bfyx, .f32, []⟩⟩]⟩

/-- The graph of the widened literal, laid out, with the last copy as its output. -/
def Compilation.widened : Compilation := .exposing .widened ["t"]

/-- Half precision has every small integer. -/
theorem lossless_widened : Compilation.widened.program.Lossless := by
  have hids : ∀ id ∈ Compilation.widened.program.ids, id = "d" ∨ id = "r" ∨ id = "t" := by
    decide +kernel
  have hd : Compilation.widened.program.shapeOf "d"
      = some (.data (.dense .i8 .bfyx ⟨1, 1, 1, 1⟩) (.i8 #[3])) := by decide +kernel
  have hr : Compilation.widened.program.shapeOf "r" = some (.reorder ⟨"", .yxfb, .f16, []⟩) ∧
      Compilation.widened.program.depsOf "r" = ["d"] := by decide +kernel
  have ht : Compilation.widened.program.depsOf "t" = ["r"] := by decide +kernel
  have hsource : ¬ Compilation.widened.program.isReorder "d" := fun ⟨_, h⟩ => by
    rw [hd] at h
    cases h
  have hexact : Compilation.widened.program.Exact "r" .i8 :=
    .read (l := .dense .i8 .bfyx ⟨1, 1, 1, 1⟩) ⟨_, hr.1, rfl⟩ hr.2 hsource (by decide +kernel)
  intro id d r s hid _ hdeps hshape
  have hmem : id ∈ Compilation.widened.program.ids := contains_iff_mem_ids.mp
    (by rw [contains_eq_isSome_shapeOf, hid, Option.isSome_some])
  rcases hids id hmem with rfl | rfl | rfl
  · exact absurd ⟨r, hid⟩ hsource
  · rw [hr.2] at hdeps
    cases hdeps
    exact absurd ⟨s, hshape⟩ hsource
  · rw [ht] at hdeps
    cases hdeps
    rw [hr.1] at hshape
    cases hshape
    exact Or.inr ⟨.i8, hexact, rfl⟩

/-- A check of one node after another. -/
theorem Program.typed_of_nodes {p : Program} (h : ∀ n ∈ p.nodes, (match n.operation with
    | .data l b => decide (b.element = l.element)
    | _ => true) = true) : p.Typed := fun id l b hdata => by
  obtain ⟨n, hn, hop⟩ := Option.map_eq_some_iff.mp hdata
  have hnode := h n (node?_eq_some hn).1
  rw [operation_of_shape hop] at hnode
  exact of_decide_eq_true hnode

theorem Program.plainReorders_of_nodes {p : Program}
    (h : ∀ n ∈ p.nodes, n.absorbed.isNone = true) : p.PlainReorders := fun id t ht _ => by
  obtain ⟨n, hn, rfl⟩ := Option.map_eq_some_iff.mp ht
  exact h n (node?_eq_some hn).1

/-- The value of an output can be read off what folding makes of it. -/
theorem Compilation.hasValue_of_folding {c : Compilation} {o : String} {l : Layout} {b : Buffer}
    (hs : Pass.Sequenced c.program) (ho : c.program.isMarked o = true)
    (hok : ((Pass.propagateConstants .folding).run.run c).1.toBool = true)
    (hdata : ((Pass.propagateConstants .folding).run.run c).2.program.shapeOf o
      = some (.data l b)) : c.program.HasValue .reference o ⟨l, b⟩ := by
  have hends := Pass.propagateConstants_propagated .folding rfl hs.linked hs.ordered hs.coherent
    (Or.inr Evaluator.slotFree_reference)
  obtain ⟨stats, hrun⟩ := exists_run_eq_ok hok
  rw [Ends, hrun] at hends
  exact (hends.output_iff ho).mp hdata

/-- The pass keeps a program in order. -/
theorem sequenced_removeRedundantReorders (env : Environment) {c c' : Compilation}
    {stats : PassStats} (hs : Pass.Sequenced c.program)
    (hrun : (Pass.removeRedundantReorders env).run.run c = (.ok stats, c')) :
    Pass.Sequenced c'.program := by
  have hends := Pass.removeRedundantReorders_ends env Pass.Sequenced
    (fun hp => ⟨hp.linked, hp.coherent, hp.ranked⟩)
    (fun hp hq => hp.sameGraph hq.toSameGraph hq.order) (fun hp hq => hp.merged hq.toMerged)
    (fun hp hq => hp.extracted hq.extracted) hs
  rw [Ends, hrun] at hends
  exact hends.1

/-- The two copies are merged into one, with the value of the second. -/
theorem removeRedundantReorders_widened : ∃ stats c' v v',
    (Pass.removeRedundantReorders .folding).run.run .widened = (.ok stats, c') ∧
    c'.program.order.ids = ["d", "t"] ∧ Compilation.widened.program.HasValue .reference "t" v ∧
    c'.program.HasValue .reference "t" v' ∧ v.Alike v' := by
  obtain ⟨hw, hc⟩ := Compilation.exposing_spec (t := .widened)
    (by unfold Topology.Distinct; decide) ["t"]
  have ho : Compilation.widened.program.isOrdered = true := by decide +kernel
  obtain ⟨stats, hrun⟩ := exists_run_eq_ok (x := Pass.removeRedundantReorders .folding)
    (s := .widened) (by decide +kernel)
  have hv : Compilation.widened.program.HasValue .reference "t"
      ⟨.dense .f32 .bfyx ⟨1, 1, 1, 1⟩, .f32 #[⟨0x40400000⟩]⟩ :=
    Compilation.hasValue_of_folding ⟨⟨hw.toLinked, hc⟩, (isOrdered_iff hw.toLinked).mp ho⟩
      (by decide +kernel) (by decide +kernel) (by decide +kernel)
  obtain ⟨v', hv', halike⟩ := removeRedundantReorders_values .folding .widened _ stats hw ho hc
    lossless_widened (typed_of_nodes (by decide +kernel))
    (plainReorders_of_nodes (by decide +kernel)) hrun "t" _ (by decide +kernel) hv
  exact ⟨stats, _, _, v', hrun, by decide +kernel, hv, hv', halike⟩

/-- A quarter, copied into small integers and back. -/
def Topology.rounded : Topology :=
  ⟨[⟨"d", Padding.none, .data (.dense .f32 .bfyx ⟨1, 1, 1, 1⟩) (.f32 #[⟨0x3e800000⟩])⟩,
    ⟨"r", Padding.none, .reorder ⟨"d", .bfyx, .i8, []⟩⟩,
    ⟨"t", Padding.none, .reorder ⟨"r", .bfyx, .f32, []⟩⟩]⟩

/-- The graph of the rounded literal, laid out, with the last copy as its output. -/
def Compilation.rounded : Compilation := .exposing .rounded ["t"]

/-- A quarter in a layout for small integers, and a copy of it. -/
def Topology.mistyped : Topology :=
  ⟨[⟨"d", Padding.none, .data (.dense .i8 .bfyx ⟨1, 1, 1, 1⟩) (.f32 #[⟨0x3e800000⟩])⟩,
    ⟨"t", Padding.none, .reorder ⟨"d", .bfyx, .i8, []⟩⟩]⟩

/-- The graph of the mistyped literal, laid out, with the copy as its output. -/
def Compilation.mistyped : Compilation := .exposing .mistyped ["t"]

/-- **Merging reorders forgets a rounding**: a quarter that is copied into small integers and back
is nought, and is a quarter after the pass.  **And so does dropping one**, where the buffer of a
literal is not of the element type that its layout says. -/
theorem removeRedundantReorders_rounds :
    (Compilation.rounded.program.WellFormed ∧ Compilation.rounded.program.isOrdered = true ∧
      Compilation.rounded.program.Coherent ∧ Compilation.rounded.program.Typed ∧
      Compilation.rounded.program.PlainReorders ∧
      Compilation.rounded.program.isMarked "t" = true ∧ ∃ stats c' v,
      (Pass.removeRedundantReorders .folding).run.run .rounded = (.ok stats, c') ∧
      Compilation.rounded.program.HasValue .reference "t" v ∧ ∃ v',
      c'.program.HasValue .reference "t" v' ∧ v'.layout = v.layout ∧
      unpack v.layout v.values = .ok ⟨⟨1, 1, 1, 1⟩, #[⟨0⟩]⟩ ∧
      unpack v'.layout v'.values = .ok ⟨⟨1, 1, 1, 1⟩, #[⟨0x3e800000⟩]⟩) ∧
    (Compilation.mistyped.program.WellFormed ∧ Compilation.mistyped.program.isOrdered = true ∧
      Compilation.mistyped.program.Coherent ∧ Compilation.mistyped.program.PlainReorders ∧
      Compilation.mistyped.program.isMarked "t" = true ∧ ∃ stats c' v,
      (Pass.removeRedundantReorders .folding).run.run .mistyped = (.ok stats, c') ∧
      Compilation.mistyped.program.HasValue .reference "t" v ∧ ∃ v',
      c'.program.HasValue .reference "t" v' ∧ v'.layout = v.layout ∧
      unpack v.layout v.values = .ok ⟨⟨1, 1, 1, 1⟩, #[⟨0⟩]⟩ ∧
      unpack v'.layout v'.values = .ok ⟨⟨1, 1, 1, 1⟩, #[⟨0x3e800000⟩]⟩) := by
  obtain ⟨hw, hc⟩ := Compilation.exposing_spec (t := .rounded)
    (by unfold Topology.Distinct; decide) ["t"]
  have ho : Compilation.rounded.program.isOrdered = true := by decide +kernel
  have hs : Pass.Sequenced Compilation.rounded.program :=
    ⟨⟨hw.toLinked, hc⟩, (isOrdered_iff hw.toLinked).mp ho⟩
  obtain ⟨stats, hrun⟩ := exists_run_eq_ok (x := Pass.removeRedundantReorders .folding)
    (s := .rounded) (by decide +kernel)
  obtain ⟨hw', hc'⟩ := Compilation.exposing_spec (t := .mistyped)
    (by unfold Topology.Distinct; decide) ["t"]
  have ho' : Compilation.mistyped.program.isOrdered = true := by decide +kernel
  have hs' : Pass.Sequenced Compilation.mistyped.program :=
    ⟨⟨hw'.toLinked, hc'⟩, (isOrdered_iff hw'.toLinked).mp ho'⟩
  obtain ⟨stats', hrun'⟩ := exists_run_eq_ok (x := Pass.removeRedundantReorders .folding)
    (s := .mistyped) (by decide +kernel)
  refine ⟨⟨hw, ho, hc, typed_of_nodes (by decide +kernel),
    plainReorders_of_nodes (by decide +kernel), by decide +kernel, stats, _,
    ⟨.dense .f32 .bfyx ⟨1, 1, 1, 1⟩, .f32 #[⟨0⟩]⟩, hrun, ?_,
    ⟨.dense .f32 .bfyx ⟨1, 1, 1, 1⟩, .f32 #[⟨0x3e800000⟩]⟩, ?_, rfl, ?_, ?_⟩,
    ⟨hw', ho', hc', plainReorders_of_nodes (by decide +kernel), by decide +kernel, stats', _,
    ⟨.dense .i8 .bfyx ⟨1, 1, 1, 1⟩, .i8 #[0]⟩, hrun', ?_,
    ⟨.dense .i8 .bfyx ⟨1, 1, 1, 1⟩, .f32 #[⟨0x3e800000⟩]⟩, ?_, rfl, ?_, ?_⟩⟩
  · exact Compilation.hasValue_of_folding hs (by decide +kernel) (by decide +kernel)
      (by decide +kernel)
  · exact Compilation.hasValue_of_folding (sequenced_removeRedundantReorders .folding hs hrun)
      (by decide +kernel) (by decide +kernel) (by decide +kernel)
  · decide +kernel
  · decide +kernel
  · exact Compilation.hasValue_of_folding hs' (by decide +kernel) (by decide +kernel)
      (by decide +kernel)
  · exact Compilation.hasValue_of_folding (sequenced_removeRedundantReorders .folding hs' hrun')
      (by decide +kernel) (by decide +kernel) (by decide +kernel)
  · decide +kernel
  · decide +kernel

end NetPlan
