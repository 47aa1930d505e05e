import NetPlan.Pass.Preferred
import NetPlan.Proofs.Graph.Insert
import NetPlan.Proofs.Graph.View
import NetPlan.Proofs.Pass.Binding

/-!
# Proofs/Pass/Preferred — reorders on request

A request for a layout is answered with a reorder that was made before, or with a new one, which is
put on record (`Served`).  A record carries its number in the id of the reorder, so no two of them
name the same one (`Numbered`), and the reorder that is inserted is the one on record.

* `reorderSlots_ends` — an invariant of answered requests is an invariant of the passes that put
  slots into preferred layouts;
* `reorderWeights_ends` — and of the pass that gives kernels the weights they ask for, where an
  inserted reorder is bound at once (`Weighed`).
-/

namespace NetPlan

/-! ## The reorders on record -/

namespace Preferences

/-- A reorder on record, by source and target layout. -/
abbrev Entry := (String × Layout) × Primitive

/-- The id of a reorder with a number. -/
def reorderId (number : Nat) (rest : String) : String :=
  "reorder_" ++ toString number ++ "_" ++ rest

variable {k l : Nat} {a b old new : String} {m : List Entry}

theorem toList_reorderId (k : Nat) (a : String) :
    (reorderId k a).toList = "reorder_".toList ++ (Nat.toDigits 10 k ++ '_' :: a.toList) := by
  simp [reorderId, String.toList_append]

/-- **The number can be read off the id**: digits are no underscores. -/
theorem reorderId_inj (h : reorderId k a = reorderId l b) : k = l := by
  have hchars := congrArg String.toList h
  rw [toList_reorderId, toList_reorderId, List.append_cancel_left_eq] at hchars
  have hdigits : ∀ {i : Nat} {s : List Char},
      (Nat.toDigits 10 i ++ '_' :: s).takeWhile (· ≠ '_') = Nat.toDigits 10 i := by
    intro i s
    rw [List.takeWhile_append_of_pos fun c hc => by
      simpa using fun he : c = '_' => Nat.underscore_not_in_toDigits (he ▸ hc)]
    simp
  exact toDigits_inj (hdigits.symm.trans ((congrArg _ hchars).trans hdigits))

/-- Every record is the reorder it stands for, under an id with its number. -/
def Numbered (m : List Entry) : Prop :=
  ∀ k e, m[k]? = some e →
    e.2 = Primitive.reorder e.2.id e.1.1 e.1.2 e.1.2.padding ∧ ∃ rest, e.2.id = reorderId k rest

theorem numbered_nil : Numbered [] := fun _ _ h => nomatch h

theorem Numbered.append (h : Numbered m) {source : String} {target : Layout} {r : Primitive}
    (hr : r = Primitive.reorder r.id source target target.padding)
    (hid : ∃ rest, r.id = reorderId m.length rest) : Numbered (m ++ [((source, target), r)]) := by
  intro k e he
  rcases Nat.lt_trichotomy k m.length with hk | hk | hk
  · rw [List.getElem?_append_left hk] at he
    exact h k e he
  · subst hk
    rw [List.getElem?_append_right (Nat.le_refl _), Nat.sub_self] at he
    cases he
    exact ⟨hr, hid⟩
  · rw [List.getElem?_eq_none (by simp; omega)] at he
    cases he

/-- A reorder with the next number is not on record. -/
theorem Numbered.id_ne (h : Numbered m) {e : Entry} (he : e ∈ m) :
    e.2.id ≠ reorderId m.length a := by
  obtain ⟨k, hk⟩ := List.mem_iff_getElem?.mp he
  obtain ⟨-, rest, hid⟩ := h k e hk
  rw [hid]
  intro heq
  rw [reorderId_inj heq, List.getElem?_eq_none (Nat.le_refl _)] at hk
  cases hk

theorem Numbered.reorder_of_mem (h : Numbered m) {e : Entry} (he : e ∈ m) :
    e.2 = Primitive.reorder e.2.id e.1.1 e.1.2 e.1.2.padding := by
  obtain ⟨k, hk⟩ := List.mem_iff_getElem?.mp he
  exact (h k e hk).1

/-- A record is known by the id of its reorder. -/
theorem Numbered.eq_of_id (h : Numbered m) {e e' : Entry} (he : e ∈ m) (he' : e' ∈ m)
    (hid : e.2.id = e'.2.id) : e = e' := by
  obtain ⟨k, hk⟩ := List.mem_iff_getElem?.mp he
  obtain ⟨l, hl⟩ := List.mem_iff_getElem?.mp he'
  obtain ⟨-, rest, hrest⟩ := h k e hk
  obtain ⟨-, rest', hrest'⟩ := h l e' hl
  rw [hrest, hrest'] at hid
  rw [reorderId_inj hid, hl] at hk
  exact (Option.some.inj hk).symm

/-- No digit follows in the ids of reorders for padding, so they are not on record. -/
theorem input_ne_reorderId : "reorder_input_" ++ b ≠ reorderId k a := fun h => by
  have hchars := congrArg String.toList h
  have hsplit : ("reorder_input_" ++ b).toList
      = "reorder_".toList ++ ('i' :: ("nput_".toList ++ b.toList)) := by
    rw [String.toList_append]
    rfl
  rw [toList_reorderId, hsplit, List.append_cancel_left_eq] at hchars
  cases hdigits : Nat.toDigits 10 k with
  | nil => exact Nat.toDigits_ne_nil hdigits
  | cons c cs =>
    rw [hdigits] at hchars
    have hc : c = 'i' := (List.cons.inj hchars).1.symm
    have hdigit := Nat.isDigit_of_mem_toDigits (Nat.zero_lt_succ 9) (Nat.le_refl 10)
      (hdigits ▸ List.mem_cons_self)
    rw [hc] at hdigit
    cases hdigit

/-- Renaming the last record, if no other has its id. -/
theorem renameIn_append {key : String × Layout} {r : Primitive} (hr : r.id = old) :
    ∀ {m : List Entry}, (∀ e ∈ m, e.2.id ≠ old) →
      renameIn old new (m ++ [(key, r)]) = m ++ [(key, { r with id := new })]
  | [], _ => by rw [List.nil_append, renameIn, if_pos hr, List.nil_append]
  | e :: m, hm => by
      rw [List.cons_append, renameIn, if_neg (hm e List.mem_cons_self),
        renameIn_append hr fun e' he' => hm e' (List.mem_cons_of_mem _ he')]
      rfl

end Preferences

namespace Program

/-- The slots of a node that hold weights. -/
def weightSlotsOf (p : Program) (id : String) : List Nat :=
  match p.shapeOf id with
  | some op => op.weightSlots
  | none => []

/-- The operation of a node works with weights. -/
def isWeighted (p : Program) (id : String) : Prop :=
  ∃ op, p.shapeOf id = some op ∧ op.kind.isWeighted = true

theorem isWeighted.not_isReorder {p : Program} {id : String} (h : p.isWeighted id) :
    ¬ p.isReorder id := by
  rintro ⟨r, hr⟩
  obtain ⟨op, hop, hk⟩ := h
  rw [hop] at hr
  rw [Option.some.inj hr] at hk
  cases hk

theorem isWeighted.contains {p : Program} {id : String} (h : p.isWeighted id) :
    p.contains id = true := by
  obtain ⟨op, hop, -⟩ := h
  rw [contains_eq_isSome_shapeOf, hop, Option.isSome_some]

theorem isWeighted_congr {p q : Program} {id : String} (h : q.shapeOf id = p.shapeOf id) :
    q.isWeighted id ↔ p.isWeighted id := by
  rw [isWeighted, h, isWeighted]

end Program

namespace Pass

open Program Edit Preferences

variable {p q : Program} {m m' : List Entry} {c : Compilation} {id next : String} {index : Nat}
  {made : Option String}

/-! ## One request -/

/-- `q` is `p` after a request for a dependency of `next` in another layout, and `m'` is `m` with
what was put on record; `made` is the id of the reorder that `next` reads now. -/
inductive Served (p q : Program) (m m' : List Entry) (next : String) (index : Nat) :
    Option String → Prop where
  | notNeeded (same : q = p) (kept : m' = m) : Served p q m m' next index none
  | cached {source : String} (target : Layout) {r : Primitive}
      (entry : ((source, target), r) ∈ m) (kept : m' = m)
      (placed : Inserted p q r next index source ∨ Shared p q r.id next index source) :
      Served p q m m' next index (some r.id)
  | new {source : String} (target : Layout) {r : Primitive}
      (inserted : Inserted p q r next index source)
      (recorded : Numbered m → m' = m ++ [((source, target), r)] ∧ Numbered m') :
      Served p q m m' next index (some r.id)

/-- The request was for `source`, which lies as `current`, in the layout `target`: it lies so, or the
reorder that is read instead is on record for it. -/
structure Answered (p q : Program) (m m' : List Entry) (next : String) (index : Nat)
    (source : String) (current target : Layout) (made : Option String) : Prop where
  served : Served p q m m' next index made
  unneeded : made = none → current = target
  recorded : ∀ r, made = some r → Numbered m → ∃ e ∈ m', e.1 = (source, target) ∧ e.2.id = r

theorem Served.kept (h : Served p q m m' next index made) (hl : p.Linked) : Kept p q := by
  cases h with
  | notNeeded same =>
    rw [same]
    exact .refl hl
  | cached _ _ _ placed => exact placed.elim (·.kept) (·.kept)
  | new _ inserted => exact inserted.kept

theorem Served.numbered (h : Served p q m m' next index made) (hm : Numbered m) : Numbered m' := by
  cases h with
  | notNeeded _ kept => exact kept ▸ hm
  | cached _ _ kept => exact kept ▸ hm
  | new _ _ recorded => exact (recorded hm).2

/-- **What a request comes to**: nothing, the insertion of a reorder that is on record then, or the
use of one that was on record before. -/
theorem Served.cases (h : Served p q m m' next index made) (hm : Numbered m) :
    (q = p ∧ m' = m) ∨
    (∃ e ∈ m', Inserted p q e.2 next index e.1.1 ∧ ∀ e' ∈ m', e' ∈ m ∨ e' = e) ∨
    m' = m ∧ ∃ e ∈ m, Shared p q e.2.id next index e.1.1 := by
  cases h with
  | notNeeded same kept => exact Or.inl ⟨same, kept⟩
  | cached _ entry kept placed =>
    rw [kept]
    rcases placed with hins | hshare
    · exact Or.inr (Or.inl ⟨_, entry, hins, fun _ he => Or.inl he⟩)
    · exact Or.inr (Or.inr ⟨rfl, _, entry, hshare⟩)
  | new _ inserted recorded =>
    rw [(recorded hm).1]
    refine Or.inr (Or.inl ⟨_, List.mem_append_right _ List.mem_cons_self, inserted, fun e he => ?_⟩)
    exact (List.mem_append.mp he).imp_right List.mem_singleton.mp

/-- Only the reorder that is read now may be new. -/
theorem Served.view_of_ne (h : Served p q m m' next index made) (hid : made ≠ some id) :
    q.shapeOf id = p.shapeOf id ∧ q.planOf id = p.planOf id := by
  have hinserted : ∀ {r : Primitive} {source : String}, Inserted p q r next index source →
      some r.id ≠ some id → q.shapeOf id = p.shapeOf id ∧ q.planOf id = p.planOf id := by
    intro r source hi hne
    exact ⟨by rw [hi.shapes, if_neg fun he : id = r.id => hne (by rw [he])], congrFun hi.plans id⟩
  cases h with
  | notNeeded same => exact same ▸ ⟨rfl, rfl⟩
  | cached _ _ _ placed =>
    exact placed.elim (fun hi => hinserted hi hid) fun hs =>
      ⟨congrFun hs.shapes id, congrFun hs.plans id⟩
  | new _ inserted => exact hinserted inserted hid

/-- The node that asked stays as it is, but for what it reads. -/
theorem Served.shape_next (h : Served p q m m' next index made) :
    q.shapeOf next = p.shapeOf next := by
  have hinserted : ∀ {r : Primitive} {source : String}, Inserted p q r next index source →
      q.shapeOf next = p.shapeOf next := by
    intro r source hi
    have hc : p.contains next = true :=
      contains_of_mem_depsOf (List.mem_of_getElem? hi.source_eq)
    rw [hi.shapes, if_neg fun he : next = r.id => hi.free (he ▸ hc)]
  cases h with
  | notNeeded same => rw [same]
  | cached _ _ _ placed => exact placed.elim hinserted fun hs => congrFun hs.shapes next
  | new _ inserted => exact hinserted inserted

/-- A new reorder is inserted under a free id, and is on record under that id. -/
theorem insertNew_effect {source : String} {current target : Layout} {r : Primitive}
    (hl : c.program.Linked) (hnext : ¬ c.program.isReorder next)
    (hsource : (c.program.depsOf next)[index]? = some source)
    (hr : r = .reorder r.id source target target.padding)
    (hid : r.id = reorderId m.length source)
    (hmade : c.preferences.made = m ++ [((source, target), r)]) :
    Ends (insertReorder (.new r) next index)
      (fun made c' => Answered c.program c'.program m c'.preferences.made next index source current
        target made ∧ c'.preferences.grouped = c.preferences.grouped)
      (fun e _ => e.closes = false) c := by
  rw [insertReorder, ends_bind, Transform.ends_program]
  have hfree := not_contains_unusedId c.program r.id
  obtain ⟨rest, hrest⟩ := unusedId_eq_append c.program r.id
  dsimp only
  generalize c.program.unusedId r.id = free at hfree hrest ⊢
  have hnumber : ∃ rest, free = reorderId m.length rest :=
    ⟨source ++ rest, by rw [hrest, hid, reorderId, reorderId, String.append_assoc]⟩
  have hinsert : ∀ d : Compilation, d.program = c.program →
      d.preferences.grouped = c.preferences.grouped →
      (Numbered m → d.preferences.made = m ++ [((source, target), { r with id := free })]) →
      Ends (do
        Edit.addIntermediate { r with id := free } next index
        return some free : Transform (Option String))
        (fun made c' => Answered c.program c'.program m c'.preferences.made next index source
          current target made ∧ c'.preferences.grouped = c.preferences.grouped)
        (fun e _ => e.closes = false) d := by
    intro d hprogram hgrouped hrecord
    rw [ends_bind, Transform.ends_liftM, hprogram]
    refine (addIntermediate_effect hl fun _ => hnext).imp (fun _ q hq => ?_) fun _ _ hb => hb.1
    obtain ⟨source', hins | hshare⟩ := hq
    · obtain rfl : source' = source := Option.some.inj (hins.source_eq.symm.trans hsource)
      refine ⟨⟨.new target hins fun hm => ⟨hrecord hm, hrecord hm ▸ hm.append ?_ hnumber⟩,
        nofun, fun k hk hm => ?_⟩, hgrouped⟩
      · exact congrArg (fun s : Primitive => { s with id := free }) hr
      · refine ⟨((source', target), { r with id := free }), ?_, rfl, Option.some.inj hk⟩
        rw [hrecord hm]
        exact List.mem_append_right _ List.mem_cons_self
    · exact absurd (contains_of_isReorder hshare.reorder) hfree
  split
  case isTrue hne =>
    rw [ends_bind, Transform.ends_preferences, ends_bind, Transform.ends_setPreferences]
    refine hinsert _ rfl rfl fun hm => ?_
    change renameIn r.id free c.preferences.made = _
    rw [hmade]
    exact renameIn_append rfl fun e he => hid ▸ hm.id_ne he
  case isFalse heq =>
    rw [not_not] at heq
    refine hinsert c rfl rfl fun _ => ?_
    rw [hmade, heq]

/-- **A request is answered**: with a reorder on record, or with a new one that goes on record. -/
theorem insertReorder_effect {preferences : Preferences} {source : String}
    {current target : Layout} {choice : ReorderChoice} (hl : c.program.Linked)
    (hnext : ¬ c.program.isReorder next)
    (hsource : (c.program.depsOf next)[index]? = some source)
    (hchoice : preferences.reorder source current target = (choice, c.preferences)) :
    Ends (insertReorder choice next index)
      (fun made c' => Answered c.program c'.program preferences.made c'.preferences.made next index
        source current target made ∧ c'.preferences.grouped = preferences.grouped)
      (fun e _ => e.closes = false) c := by
  unfold Preferences.reorder at hchoice
  split at hchoice
  case isTrue hsame =>
    cases hchoice
    exact ⟨⟨.notNeeded rfl rfl, fun _ => hsame, nofun⟩, rfl⟩
  split at hchoice
  case h_1 r hfind =>
    obtain ⟨rfl, hp⟩ := Prod.mk.inj hchoice
    rw [insertReorder, ends_bind, Transform.ends_liftM]
    refine (addIntermediate_effect hl fun _ => hnext).imp (fun _ q hq => ?_) fun _ _ hb => hb.1
    obtain ⟨source', hq⟩ := hq
    have hsource' := hq.elim (·.source_eq) (·.source_eq)
    obtain rfl : source' = source := Option.some.inj (hsource'.symm.trans hsource)
    have hmade : c.preferences.made = preferences.made := (congrArg Preferences.made hp).symm
    have hentry : ((source', target), r) ∈ preferences.made := by
      obtain ⟨before, behind, hmade, -⟩ := List.lookup_eq_some_iff.mp hfind
      rw [hmade]
      exact List.mem_append_right _ List.mem_cons_self
    refine ⟨⟨.cached target hentry hmade hq, nofun, fun k hk _ => ?_⟩,
      (congrArg Preferences.grouped hp).symm⟩
    exact ⟨_, hmade ▸ hentry, rfl, Option.some.inj hk⟩
  case h_2 =>
    obtain ⟨rfl, hp⟩ := Prod.mk.inj hchoice
    have hgrouped : c.preferences.grouped = preferences.grouped :=
      (congrArg Preferences.grouped hp).symm
    exact hgrouped ▸ insertNew_effect hl hnext hsource rfl rfl (congrArg Preferences.made hp).symm

theorem plain_request (preferences : Preferences) (source : String) (current : Layout) (role : Role)
    (kind : OpKind) (consumer : Option Layout) :
    plain (preferences.request source current role kind consumer) = true := by
  refine plain_bind (x := preferences.expected current role kind consumer) ?_ fun _ => rfl
  unfold Preferences.expected
  cases consumer with
  | some output =>
    refine plain_ite rfl ?_
    split <;> rfl
  | none =>
    refine plain_ite (plain_ite rfl ?_) rfl
    split <;> rfl

/-- What a request comes to. -/
theorem request_eq_ok {preferences preferences' : Preferences} {source : String} {current : Layout}
    {role : Role} {kind : OpKind} {consumer : Option Layout} {choice : ReorderChoice}
    (h : preferences.request source current role kind consumer = .ok (choice, preferences')) :
    ∃ target, preferences.expected current role kind consumer = .ok target ∧
      preferences.reorder source current target = (choice, preferences') := by
  unfold Preferences.request at h
  cases ht : preferences.expected current role kind consumer with
  | error e =>
    rw [ht] at h
    cases h
  | ok target =>
    rw [ht] at h
    exact ⟨target, rfl, Except.ok.inj h⟩

/-- What the node in a slot is asked for in, and what became of it. -/
structure Requested (p q : Program) (c c' : Compilation) (role : Role) (kind : OpKind)
    (output : Layout) (next : String) (index : Nat) (made : Option String) : Prop where
  served : Served p q c.preferences.made c'.preferences.made next index made
  grouped : c'.preferences.grouped = c.preferences.grouped
  answered : ∀ source, (p.depsOf next)[index]? = some source → ∃ current target,
    p.freshLayout source = .ok current ∧
    c.preferences.expected current role kind (some output) = .ok target ∧
    Answered p q c.preferences.made c'.preferences.made next index source current target made

/-- Asking for a dependency in the preferred layout. -/
theorem reorderDependency_effect (kind : OpKind) (output : Layout) (role : Role)
    (hl : c.program.Linked) (hc : c.program.Coherent) (hid : ¬ c.program.isReorder id) :
    Ends (reorderDependency id kind output role index)
      (fun _ c' => ∃ p' made, Filled c.program p' ∧
        Requested p' c'.program c c' role kind output id index made)
      (fun e _ => e.closes = false) c := by
  rw [reorderDependency, ends_bind, Transform.ends_liftM, ends_node]
  refine ⟨fun n hn => ?_, fun _ => rfl⟩
  split
  case h_2 hnone =>
    refine ⟨c.program, none, ⟨rfl, hc⟩, .notNeeded rfl rfl, rfl, fun source hsource => ?_⟩
    rw [depsOf_of_node? hn] at hsource
    exact absurd hsource (hnone source)
  case h_1 source hsource =>
  rw [ends_bind, Transform.ends_liftM]
  refine (layout_effect source hc).imp_good fun current p' hp' => ?_
  have htouch := hp'.1.touched hl
  rw [ends_bind, Transform.ends_preferences, ends_bind, Transform.ends_liftM, ends_ofExcept]
  refine ⟨fun (choice, preferences) hanswer => ?_, fun e he =>
    closes_of_plain (plain_request ..) he⟩
  obtain ⟨target, htarget, hchoice⟩ := request_eq_ok hanswer
  dsimp only
  rw [ends_bind, Transform.ends_setPreferences, ends_bind]
  have hid' : ¬ p'.isReorder id := by
    rw [isReorder, htouch.shapes]
    exact hid
  have hsource' : (p'.depsOf id)[index]? = some source := by
    rw [htouch.deps, depsOf_of_node? hn]
    exact hsource
  refine (insertReorder_effect (c := { c with program := p', preferences }) htouch.kept.linked hid'
    hsource' hchoice).imp_good fun made c' hc' => ?_
  refine ⟨p', made, hp'.1, hc'.1.served, hc'.2, fun source' hsource'' => ?_⟩
  obtain rfl : source = source' := Option.some.inj (hsource'.symm.trans hsource'')
  refine ⟨current, target, ?_, htarget, hc'.1⟩
  rw [freshLayout_of_uncached hp'.1.same, hp'.2]

/-! ## The slots of a node, and of every node -/

section Slots

variable (inv : Program → List Entry → Prop)
  (base : ∀ {p m}, inv p m → p.Linked ∧ p.Coherent)
  (touched : ∀ {p q m}, inv p m → Touched p q → inv q m)
  (served : ∀ {p q m m' next index made}, inv p m → p.isWeighted next →
    Served p q m m' next index made → inv q m')
include base touched served

theorem reorderDependencies_ends (kind : OpKind) (output : Layout) :
    ∀ (wanted : List (Role × Nat)) (c : Compilation), inv c.program c.preferences.made →
      c.program.isWeighted id →
      Ends (reorderDependencies id kind output wanted)
        (fun _ c' => inv c'.program c'.preferences.made) (fun e _ => e.closes = false) c
  | [], _, h, _ => h
  | (role, index) :: wanted, c, h, hid => by
      rw [reorderDependencies, ends_bind]
      refine (reorderDependency_effect kind output role (base h).1 (base h).2
        hid.not_isReorder).imp_good fun _ d hd => ?_
      obtain ⟨p', made, hfill, ⟨hserved, -, -⟩⟩ := hd
      have htouch := hfill.touched (base h).1
      have hid' := (isWeighted_congr (congrFun htouch.shapes id)).mpr hid
      rw [ends_bind]
      exact (reorderDependencies_ends kind output wanted d
        (served (touched h htouch) hid' hserved)
        ((isWeighted_congr hserved.shape_next).mpr hid')).imp_good fun _ _ hr => hr

/-- **What an answered request keeps, the slots of all nodes keep**, where only weighted nodes have
any. -/
theorem reorderSlots_ends (slots : Operation → List (Role × Nat))
    (hslots : ∀ op, slots op ≠ [] → op.kind.isWeighted = true) :
    ∀ (ids : List String) (c : Compilation), inv c.program c.preferences.made →
      Ends (reorderSlots slots ids)
        (fun _ c' => inv c'.program c'.preferences.made) (fun e _ => e.closes = false) c
  | [], _, h => h
  | id :: ids, c, h => by
      have hrest : ∀ (here : Nat) (d : Compilation), inv d.program d.preferences.made → Ends (do
          let further ← reorderSlots slots ids
          return here + further : Transform Nat)
          (fun _ c' => inv c'.program c'.preferences.made) (fun e _ => e.closes = false) d := by
        intro here d hd
        rw [ends_bind]
        exact (reorderSlots_ends slots hslots ids d hd).imp_good fun _ _ hr => hr
      rw [reorderSlots, ends_bind, Transform.ends_liftM, ends_node]
      refine ⟨fun n hn => ?_, fun _ => rfl⟩
      dsimp only
      split
      · exact hrest 0 c h
      case isFalse hwanted =>
        have hid : c.program.isWeighted id := by
          refine ⟨n.operation.shape, by rw [shapeOf, hn, Option.map_some], ?_⟩
          rw [Operation.kind_shape]
          exact hslots _ fun hnil => hwanted (List.isEmpty_iff.mpr hnil)
        rw [ends_bind, Transform.ends_liftM]
        refine (layout_effect id (base h).2).imp_good fun output p' hp' => ?_
        have htouch := hp'.1.touched (base h).1
        rw [ends_bind]
        exact (reorderDependencies_ends inv base touched served n.kind output _
          { c with program := p' } (touched h htouch)
          ((isWeighted_congr (congrFun htouch.shapes id)).mpr hid)).imp_good
          fun here d hd => hrest here d hd

theorem reorderInputs_ends (h : inv c.program c.preferences.made) :
    Ends reorderInputs (fun _ c' => inv c'.program c'.preferences.made)
      (fun e _ => e.closes = false) c := by
  rw [reorderInputs, ends_bind, Transform.ends_program, ends_bind, Transform.ends_preferences,
    ends_bind, Transform.ends_setPreferences, ends_bind]
  refine (reorderSlots_ends inv base touched served preferredSlots (fun op hop => ?_) _
    { c with preferences := ⟨c.program.nodes.any isGrouped, c.preferences.made⟩ } h).imp_good
    fun _ _ hr => hr
  cases op with
  | convolution | fusedConvBnScale | fullyConnected => rfl
  | _ => exact absurd rfl hop

theorem reorderBias_ends (h : inv c.program c.preferences.made) :
    Ends reorderBias (fun _ c' => inv c'.program c'.preferences.made)
      (fun e _ => e.closes = false) c := by
  rw [reorderBias, ends_bind, Transform.ends_program, ends_bind]
  refine (reorderSlots_ends inv base touched served
    (fun op => op.biasSlots.map fun i => (Role.bias, i)) (fun op hop => ?_) _ c h).imp_good
    fun _ _ hr => hr
  cases op with
  | convolution | fusedConvBnScale | fullyConnected => rfl
  | _ => exact absurd rfl hop

end Slots

/-! ## Weights for bound kernels -/

/-- `q` is `p` with the weights in one slot of `next` put into the layout its kernel asks for; the
reorder it reads now is bound. -/
inductive Weighed (p q : Program) (m m' : List Entry) (next : String) (index : Nat) : Prop where
  | unchanged (served : Served p q m m' next index none)
  | reordered (p' : Program) (r : String) (served : Served p p' m m' next index (some r))
      (planned : Planned p' q r) (bound : p'.runsKernelAt r → (q.planOf r).isSome = true)

theorem Weighed.shape_next (h : Weighed p q m m' next index) :
    q.shapeOf next = p.shapeOf next := by
  cases h with
  | unchanged served => exact served.shape_next
  | reordered p' r served planned => rw [planned.shapes, served.shape_next]

theorem Weighed.kept (h : Weighed p q m m' next index) (hl : p.Linked) : Kept p q := by
  cases h with
  | unchanged served => exact served.kept hl
  | reordered p' r served planned => exact (served.kept hl).trans planned.kept

theorem weightSlotsOf_of_node? {n : Node} (hn : p.node? id = some n) :
    p.weightSlotsOf id = n.operation.weightSlots := by
  rw [weightSlotsOf, shapeOf, hn, Option.map_some]
  exact n.operation.weightSlots_shape

theorem weightSlotsOf_congr (h : q.shapeOf id = p.shapeOf id) :
    q.weightSlotsOf id = p.weightSlotsOf id := by
  rw [weightSlotsOf, weightSlotsOf, h]

theorem isWeighted_of_mem_weightSlotsOf (h : index ∈ p.weightSlotsOf id) : p.isWeighted id := by
  rw [weightSlotsOf] at h
  cases hop : p.shapeOf id with
  | none =>
    rw [hop] at h
    cases h
  | some op =>
    rw [hop] at h
    refine ⟨op, hop, ?_⟩
    cases op with
    | convolution | fusedConvBnScale | fullyConnected => rfl
    | _ => cases h

/-- The layout of a buffer that holds weights as a kernel asks for them. -/
def wantedWeights (target : WeightTensor) (size : Shape) : Layout :=
  .dense target.element.toElement (.ofWeightLayout target.layout) size

/-- `q` is `p` with a request for other weights in one slot of `next` answered, and the reorder that is
read now is bound. -/
inductive Satisfied (s : Selector) (target : WeightTensor) (p q : Program) (m m' : List Entry)
    (next : String) (index : Nat) : Prop where
  | absent (empty : (p.depsOf next)[index]? = none) (same : q = p) (kept : m' = m)
  | unneeded (source : String) (current : Layout)
      (reads : (p.depsOf next)[index]? = some source) (laid : p.freshLayout source = .ok current)
      (fits : current = wantedWeights target current.size) (same : q = p) (kept : m' = m)
  | reordered (p' : Program) (r source : String) (current : Layout)
      (reads : (p.depsOf next)[index]? = some source) (laid : p.freshLayout source = .ok current)
      (answered : Answered p p' m m' next index source current (wantedWeights target current.size)
        (some r))
      (planned : Planned p' q r) (bound : p'.runsKernelAt r → (q.planOf r).isSome = true)
      (elected : ∀ plan, q.planOf r = some plan → p'.planOf r = some plan ∨ Elected s q r plan)

theorem Satisfied.weighed {s : Selector} {target : WeightTensor}
    (h : Satisfied s target p q m m' next index) : Weighed p q m m' next index := by
  cases h with
  | absent _ same kept => exact .unchanged (.notNeeded same kept)
  | unneeded _ _ _ _ _ same kept => exact .unchanged (.notNeeded same kept)
  | reordered p' r _ _ _ _ answered planned bound =>
    exact .reordered p' r answered.served planned bound

theorem changeWeights_effect (s : Selector) (target : WeightTensor) (hl : c.program.Linked)
    (hc : c.program.Coherent) (hid : c.program.isWeighted id) :
    Ends (changeWeights s id target index)
      (fun _ c' => ∃ p', Filled c.program p' ∧
        Satisfied s target p' c'.program c.preferences.made c'.preferences.made id index)
      (fun e _ => e.closes = false) c := by
  rw [changeWeights, ends_bind, Transform.ends_liftM, ends_node]
  refine ⟨fun n hn => ?_, fun _ => rfl⟩
  split
  case h_2 hnone =>
    refine ⟨c.program, ⟨rfl, hc⟩, .absent ?_ rfl rfl⟩
    rw [depsOf_of_node? hn]
    exact Option.eq_none_iff_forall_ne_some.mpr hnone
  case h_1 source hsource =>
  rw [ends_bind, Transform.ends_liftM]
  refine (layout_effect source hc).imp_good fun current p' hp' => ?_
  have htouch := hp'.1.touched hl
  have hid' : ¬ p'.isReorder id := by
    rw [isReorder, htouch.shapes]
    exact hid.not_isReorder
  have hsource' : (p'.depsOf id)[index]? = some source := by
    rw [htouch.deps, depsOf_of_node? hn]
    exact hsource
  have hlaid : p'.freshLayout source = .ok current := by
    rw [freshLayout_of_uncached hp'.1.same, hp'.2]
  rw [ends_bind, Transform.ends_preferences]
  dsimp only
  generalize hchoice : c.preferences.reorder source current _ = answer
  obtain ⟨choice, preferences⟩ := answer
  rw [ends_bind, Transform.ends_setPreferences, ends_bind]
  refine (insertReorder_effect (c := { c with program := p', preferences }) htouch.kept.linked hid'
    hsource' hchoice).imp_good fun made d hd => ?_
  cases made with
  | none =>
    cases hd.1.served with
    | notNeeded same kept =>
      exact ⟨p', hp'.1, .unneeded source current hsource' hlaid (hd.1.unneeded rfl) same kept⟩
  | some r =>
    have hkept := hd.1.served.kept htouch.kept.linked
    rw [ends_bind, Transform.ends_liftM, ends_node]
    refine ⟨fun k hk => ?_, fun _ => rfl⟩
    split
    · rw [ends_bind]
      exact (bindNode_effect s hkept.linked (hkept.coherent hp'.1.coherent)).imp_good
        fun _ e he => ⟨p', hp'.1, .reordered d.program r source current hsource' hlaid
          (he.2.1 ▸ hd.1) he.1 he.2.2.1 fun plan hp => Or.inr (he.2.2.2 plan hp)⟩
    case isFalse hsome =>
      refine ⟨p', hp'.1, .reordered d.program r source current hsource' hlaid hd.1
        ((Touched.refl hkept.linked).planned r) (fun _ => ?_) fun _ => Or.inl⟩
      rw [planOf, hk, Option.bind_some]
      exact Option.isSome_iff_ne_none.mpr fun hnone => hsome (Option.isNone_iff_eq_none.mpr hnone)

section Weights

variable (s : Selector) (inv : Program → List Entry → Prop)
  (base : ∀ {p m}, inv p m → p.Linked ∧ p.Coherent)
  (touched : ∀ {p q m}, inv p m → Touched p q → inv q m)
  (weighed : ∀ {p q m m' next index}, inv p m → index ∈ p.weightSlotsOf next →
    Weighed p q m m' next index → inv q m')
include base touched weighed

theorem changeAllWeights_ends (target : WeightTensor) :
    ∀ (slots : List Nat) (c : Compilation), inv c.program c.preferences.made →
      (∀ i ∈ slots, i ∈ c.program.weightSlotsOf id) →
      Ends (changeAllWeights s id target slots)
        (fun _ c' => inv c'.program c'.preferences.made) (fun e _ => e.closes = false) c
  | [], _, h, _ => h
  | index :: slots, c, h, hslots => by
      rw [changeAllWeights, ends_bind]
      refine (changeWeights_effect s target (base h).1 (base h).2
        (isWeighted_of_mem_weightSlotsOf (hslots index List.mem_cons_self))).imp_good fun _ d hd => ?_
      obtain ⟨p', hfill, hsatisfied⟩ := hd
      have hweighed := hsatisfied.weighed
      have htouch := hfill.touched (base h).1
      have hshape := congrFun htouch.shapes id
      rw [ends_bind]
      refine (changeAllWeights_ends target slots d (weighed (touched h htouch) ?_ hweighed)
        fun i hi => ?_).imp_good fun _ _ hr => hr
      · rw [weightSlotsOf_congr hshape]
        exact hslots index List.mem_cons_self
      · rw [weightSlotsOf_congr (hweighed.shape_next.trans hshape)]
        exact hslots i (List.mem_cons_of_mem _ hi)

variable (replanned : ∀ {p q m id}, inv p m → Planned p q id →
  ((p.planOf id).isSome = true → (q.planOf id).isSome = true) → inv q m)
include replanned

theorem satisfyWeights_ends : ∀ (ids : List String) (c : Compilation),
    inv c.program c.preferences.made →
      Ends (satisfyWeights s ids) (fun _ c' => inv c'.program c'.preferences.made)
        (fun e _ => e.closes = false) c
  | [], _, h => h
  | id :: ids, c, h => by
      have hrest : ∀ (here : Nat) (d : Compilation), inv d.program d.preferences.made → Ends (do
          let further ← satisfyWeights s ids
          return here + further : Transform Nat)
          (fun _ c' => inv c'.program c'.preferences.made) (fun e _ => e.closes = false) d := by
        intro here d hd
        rw [ends_bind]
        exact (satisfyWeights_ends ids d hd).imp_good fun _ _ hr => hr
      rw [satisfyWeights, ends_bind, Transform.ends_liftM, ends_node]
      refine ⟨fun n hn => ?_, fun _ => rfl⟩
      dsimp only
      split
      case h_1 => exact hrest 0 c h
      case h_2 change _ =>
        split
        · exact hrest 0 c h
        · rw [ends_bind]
          refine (changeAllWeights_ends s inv base touched weighed change.target _ c h
            fun i hi => ?_).imp_good fun inserted d hd => ?_
          · rw [weightSlotsOf_of_node? hn]
            exact hi
          · rw [ends_bind, Transform.ends_liftM, ends_change]
            refine ⟨fun k hk => hrest inserted _ (replanned hd (planned_update (base hd).1
              (f := fun m : Node =>
                { m with plan := m.plan.map fun plan => { plan with weightsChange := none } })
              (fun _ => ⟨rfl, rfl, rfl, rfl, rfl⟩) (fun _ => rfl) fun _ => rfl) fun hsome => ?_),
              fun _ => rfl⟩
            rw [planOf, node?_update (f := fun m : Node =>
              { m with plan := m.plan.map fun plan => { plan with weightsChange := none } })
              fun _ => rfl, if_pos rfl, hk, Option.map_some, Option.bind_some, Option.isSome_map]
            rw [planOf, hk, Option.bind_some] at hsome
            exact hsome

/-- **What reordered weights keep, the pass keeps.** -/
theorem reorderWeights_ends (env : Environment) (h : inv c.program c.preferences.made) :
    Ends (reorderWeights env) (fun _ c' => inv c'.program c'.preferences.made)
      (fun e _ => e.closes = false) c := by
  rw [reorderWeights, ends_bind, Transform.ends_program, ends_bind]
  exact (satisfyWeights_ends env.selector inv base touched weighed replanned _ c h).imp_good
    fun _ _ hr => hr

end Weights

end Pass

end NetPlan
