import NetPlan.Proofs.Layout.Coherence
import NetPlan.Proofs.Pass.Preferred

/-!
# Proofs/Pass/History — reorders on record, whatever happens

Preferences outlive the programs they are used on.  Reorders are asked for, and answers are inserted
into programs of any kind, where a new reorder may have to take another id.  Through all of it there
is one reorder for each source and target.

* `Deed` — a request and its answer, or an insertion, and `History` what deeds make of preferences;
* `Ledger` — what is on record after them: `Ledger.ask` and `Ledger.place` are its two steps;
* `history_spec` — a reorder is new once, and is found under the id it was inserted with from then
  on.
-/

namespace NetPlan

namespace Preferences

variable {p : Preferences} {old new source : String} {current target : Layout} {m : List Entry}
  {r : Primitive}

/-! ## Records by their ids -/

/-- A record, under a new id if it has the old one. -/
def renamed (old new : String) (e : Entry) : Entry :=
  if e.2.id = old then (e.1, { e.2 with id := new }) else e

theorem renamed_fst (e : Entry) : (renamed old new e).1 = e.1 := by
  unfold renamed
  split <;> rfl

/-- Where ids differ, renaming the first is renaming them all. -/
theorem renameIn_eq_map : ∀ {m : List Entry}, (m.map (·.2.id)).Nodup →
    renameIn old new m = m.map (renamed old new)
  | [], _ => rfl
  | e :: m, h => by
      obtain ⟨hfirst, hrest⟩ := List.nodup_cons.mp h
      rw [renameIn, List.map_cons, renamed]
      split
      case isTrue hold =>
        have hothers : ∀ e' ∈ m, renamed old new e' = e' := fun e' he' =>
          if_neg fun hid => hfirst (List.mem_map.mpr ⟨e', he', hid.trans hold.symm⟩)
        rw [List.map_congr_left hothers, List.map_id']
      case isFalse hold =>
        rw [renameIn_eq_map hrest]

theorem Numbered.nodup (h : Numbered m) : (m.map (·.2.id)).Nodup := by
  refine List.nodup_iff_injective_get.mpr fun i j hij => Fin.ext ?_
  have hget : ∀ k : Fin (m.map (·.2.id)).length, ∃ rest,
      (m.map (·.2.id)).get k = reorderId k rest := fun k => by
    have hk : k.val < m.length := by simpa using k.isLt
    obtain ⟨-, rest, hid⟩ := h k.val m[k.val] (List.getElem?_eq_getElem hk)
    exact ⟨rest, by simpa using hid⟩
  obtain ⟨a, ha⟩ := hget i
  obtain ⟨b, hb⟩ := hget j
  exact reorderId_inj (ha.symm.trans (hij.trans hb))

/-- An id that is longer by a suffix has the same number. -/
theorem Numbered.map_renamed (h : Numbered m) (suffix : String) :
    Numbered (m.map (renamed old (old ++ suffix))) := by
  intro k e he
  rw [List.getElem?_map] at he
  obtain ⟨e', he', rfl⟩ := Option.map_eq_some_iff.mp he
  obtain ⟨hreorder, rest, hid⟩ := h k e' he'
  unfold renamed
  split
  case isTrue hold =>
    refine ⟨?_, rest ++ suffix, ?_⟩
    · exact congrArg (fun r : Primitive => { r with id := old ++ suffix }) hreorder
    · rw [← hold, hid, reorderId, reorderId, String.append_assoc]
  case isFalse => exact ⟨hreorder, rest, hid⟩

/-- Where keys differ, each leads to its record. -/
theorem find?_of_mem (hkeys : (p.made.map (·.1)).Nodup) (h : ((source, target), r) ∈ p.made) :
    p.find? source target = some r := by
  obtain ⟨before, behind, hmade⟩ := List.append_of_mem h
  refine List.lookup_eq_some_iff.mpr ⟨before, behind, hmade, fun e he => ?_⟩
  rw [hmade, List.map_append, List.map_cons] at hkeys
  have hne : e.1 ≠ (source, target) :=
    (List.nodup_append.mp hkeys).2.2 _ (List.mem_map_of_mem he) _ List.mem_cons_self
  exact bne_iff_ne.mpr hne.symm

theorem find?_eq_none_iff : p.find? source target = none ↔ (source, target) ∉ p.made.map (·.1) := by
  rw [find?, List.lookup_eq_none_iff, List.mem_map]
  refine ⟨fun h ⟨e, he, hkey⟩ => bne_iff_ne.mp (h e he) hkey.symm, fun h e he => ?_⟩
  exact bne_iff_ne.mpr fun hkey => h ⟨e, he, hkey.symm⟩

theorem renameIn_self (id : String) : ∀ m : List Entry, renameIn id id m = m
  | [] => rfl
  | e :: m => by
      rw [renameIn, renameIn_self id m]
      split
      case isTrue hid => rw [← hid]
      case isFalse => rfl

end Preferences

open Preferences

/-! ## Histories -/

/-- Something done with preferences: a request and its answer, or the insertion of an answer into a
program and what it came to. -/
inductive Deed where
  | asked (source : String) (current target : Layout) (choice : ReorderChoice)
  | placed (choice : ReorderChoice) (program : Program)
      (result : Except CompileError (Option String))

namespace Deed

/-- The source and target that a new reorder was made for. -/
def renewed? : Deed → Option (String × Layout)
  | .asked source _ target (.new _) => some (source, target)
  | _ => none

/-- The id under which a new reorder was to be inserted: one that is free in the program. -/
def idOf? (r : Primitive) : Deed → Option String
  | .placed (.new r') program _ => if r' = r then some (program.unusedId r.id) else none
  | _ => none

end Deed

/-- The ids under which a new reorder was to be inserted, one after the other. -/
def idsOf (r : Primitive) (deeds : List Deed) : List String := deeds.filterMap (Deed.idOf? r)

theorem idsOf_placed (r : Primitive) (program : Program)
    (result : Except CompileError (Option String)) :
    idsOf r [.placed (.new r) program result] = [program.unusedId r.id] :=
  List.filterMap_cons_some (if_pos rfl)

/-- What preferences become.  They start with nothing on record; reorders are asked for, answers are
inserted into any program and for any edge of it, once or again, and the rules may change. -/
inductive History : List Deed → Preferences → Prop where
  | start (grouped : Bool) : History [] ⟨grouped, []⟩
  | regroup {deeds : List Deed} {p : Preferences} (before : History deeds p) (grouped : Bool) :
      History deeds ⟨grouped, p.made⟩
  | ask {deeds : List Deed} {p : Preferences} (before : History deeds p) (source : String)
      (current target : Layout) :
      History (deeds ++ [.asked source current target (p.reorder source current target).1])
        (p.reorder source current target).2
  | place {deeds : List Deed} {p : Preferences} (before : History deeds p) {source : String}
      {current target : Layout} {choice : ReorderChoice}
      (offered : .asked source current target choice ∈ deeds) (program : Program)
      (session : Session)
      (next : String) (index : Nat) :
      History (deeds ++ [.placed choice program
          ((Pass.insertReorder choice next index).run.run ⟨program, p, session⟩).1])
        ((Pass.insertReorder choice next index).run.run ⟨program, p, session⟩).2.preferences

/-! ## Insertions -/

/-- A new reorder is inserted under an id that is free, and is on record under it then. -/
theorem insertReorder_new_ends (r : Primitive) (next : String) (index : Nat) (c : Compilation) :
    Ends (Pass.insertReorder (.new r) next index)
      (fun made c' => made = some (c.program.unusedId r.id) ∧
        c'.preferences.made = renameIn r.id (c.program.unusedId r.id) c.preferences.made)
      (fun _ c' => c'.preferences.made
        = renameIn r.id (c.program.unusedId r.id) c.preferences.made) c := by
  rw [Pass.insertReorder, ends_bind, Transform.ends_program]
  dsimp only
  generalize c.program.unusedId r.id = free
  have hinsert : ∀ d : Compilation,
      d.preferences.made = renameIn r.id free c.preferences.made → Ends (do
        Edit.addIntermediate { r with id := free } next index
        return some free : Transform (Option String))
        (fun made c' => made = some free ∧
          c'.preferences.made = renameIn r.id free c.preferences.made)
        (fun _ c' => c'.preferences.made = renameIn r.id free c.preferences.made) d := by
    intro d hd
    rw [ends_bind, Transform.ends_liftM]
    exact (ends_trivial _ _).imp (fun _ _ _ => ⟨rfl, hd⟩) fun _ _ _ => hd
  split
  case isTrue hne =>
    rw [ends_bind, Transform.ends_preferences, ends_bind, Transform.ends_setPreferences]
    exact hinsert _ rfl
  case isFalse hsame =>
    rw [not_not] at hsame
    exact hinsert c (by rw [hsame, renameIn_self])

theorem run_insertReorder_new (r : Primitive) (next : String) (index : Nat) (c : Compilation) :
    ((Pass.insertReorder (.new r) next index).run.run c).2.preferences.made
        = renameIn r.id (c.program.unusedId r.id) c.preferences.made ∧
      ∀ made, ((Pass.insertReorder (.new r) next index).run.run c).1 = .ok made →
        made = some (c.program.unusedId r.id) := by
  have hends := insertReorder_new_ends r next index c
  unfold Ends at hends
  generalize (Pass.insertReorder (.new r) next index).run.run c = out at hends ⊢
  obtain ⟨e | made, c'⟩ := out
  · exact ⟨hends, nofun⟩
  · exact ⟨hends.2, fun made' hmade => Except.ok.inj hmade ▸ hends.1⟩

/-- Nothing else changes what is on record. -/
theorem run_insertReorder_old {choice : ReorderChoice} (hold : ∀ r, choice ≠ .new r) (next : String)
    (index : Nat) (c : Compilation) :
    ((Pass.insertReorder choice next index).run.run c).2.preferences = c.preferences := by
  have hends : Ends (Pass.insertReorder choice next index)
      (fun _ c' => c'.preferences = c.preferences) (fun _ c' => c'.preferences = c.preferences)
      c := by
    cases choice with
    | notNeeded => exact rfl
    | cached r =>
      rw [Pass.insertReorder, ends_bind, Transform.ends_liftM]
      exact (ends_trivial _ _).imp (fun _ _ _ => rfl) fun _ _ _ => rfl
    | new r => exact absurd rfl (hold r)
  exact hends.final (fun c' => c'.preferences = c.preferences) (fun _ _ h => h) fun _ _ h => h

/-! ## What is on record -/

/-- What is on record after deeds: the pairs that new reorders were made for, in order, each with
its reorder under the id of an insertion. -/
structure Ledger (deeds : List Deed) (m : List Entry) : Prop where
  numbered : Numbered m
  keys : m.map (·.1) = deeds.filterMap Deed.renewed?
  once : (m.map (·.1)).Nodup
  recorded : ∀ source current target r, .asked source current target (.new r) ∈ deeds →
    ∃ k id, m[k]? = some ((source, target), { r with id }) ∧ r.id = reorderId k source ∧
      (idsOf r deeds = [] → id = r.id) ∧ (idsOf r deeds ≠ [] → id ∈ idsOf r deeds)
  offered : ∀ r, idsOf r deeds ≠ [] →
    ∃ source current target, .asked source current target (.new r) ∈ deeds
  free : ∀ r program result, .placed (.new r) program result ∈ deeds → ∀ made, result = .ok made →
    made = some (program.unusedId r.id)

namespace Ledger

variable {deeds : List Deed} {deed : Deed} {p : Preferences} {m : List Entry} {source : String}
  {current target : Layout} {r : Primitive}

theorem start : Ledger [] [] where
  numbered := numbered_nil
  keys := rfl
  once := List.nodup_nil
  recorded := fun _ _ _ _ h => absurd h List.not_mem_nil
  offered := fun _ h => absurd rfl h
  free := fun _ _ _ h => absurd h List.not_mem_nil

theorem idsOf_append (r : Primitive) :
    idsOf r (deeds ++ [deed]) = idsOf r deeds ++ idsOf r [deed] :=
  List.filterMap_append

theorem idsOf_append_none (h : deed.idOf? r = none) :
    idsOf r (deeds ++ [deed]) = idsOf r deeds := by
  rw [idsOf_append, idsOf, idsOf, List.filterMap_cons_none h]
  exact List.append_nil _

/-- Deeds that concern no new reorder leave everything as it is. -/
theorem append (h : Ledger deeds m) (hkey : deed.renewed? = none)
    (hids : ∀ r, deed.idOf? r = none) : Ledger (deeds ++ [deed]) m where
  numbered := h.numbered
  keys := by
    rw [h.keys, List.filterMap_append, List.filterMap_cons_none hkey]
    exact (List.append_nil _).symm
  once := h.once
  recorded := fun source current target r hr => by
    rw [idsOf_append_none (hids r)]
    rcases List.mem_append.mp hr with hr | hr
    · exact h.recorded source current target r hr
    · obtain rfl := List.mem_singleton.mp hr
      cases hkey
  offered := fun r hr => by
    rw [idsOf_append_none (hids r)] at hr
    obtain ⟨source, current, target, hasked⟩ := h.offered r hr
    exact ⟨source, current, target, List.mem_append_left _ hasked⟩
  free := fun r program result hplaced => by
    rcases List.mem_append.mp hplaced with hplaced | hplaced
    · exact h.free r program result hplaced
    · obtain rfl := List.mem_singleton.mp hplaced
      have hsome := hids r
      rw [Deed.idOf?, if_pos rfl] at hsome
      cases hsome

/-- A reorder that was not handed out was not inserted. -/
theorem idsOf_eq_nil (h : Ledger deeds m) (hid : r.id = reorderId m.length source) :
    idsOf r deeds = [] := by
  by_contra hne
  obtain ⟨source', current, target, hasked⟩ := h.offered r hne
  obtain ⟨k, id, hk, hnumber, -⟩ := h.recorded source' current target r hasked
  rw [reorderId_inj (hnumber.symm.trans hid), List.getElem?_eq_none (Nat.le_refl _)] at hk
  cases hk

/-- **A request** is answered from what is on record, or goes on record as the next. -/
theorem ask (h : Ledger deeds p.made) (source : String) (current target : Layout) :
    Ledger (deeds ++ [.asked source current target (p.reorder source current target).1])
      (p.reorder source current target).2.made := by
  unfold Preferences.reorder
  split
  · exact h.append rfl fun _ => rfl
  split
  · exact h.append rfl fun _ => rfl
  case h_2 hfind =>
    dsimp only
    generalize hr : Primitive.reorder _ source target target.padding = r
    have hid : r.id = reorderId p.made.length source := hr ▸ rfl
    have hreorder : r = .reorder r.id source target target.padding := hr ▸ rfl
    have hids : ∀ r',
        idsOf r' (deeds ++ [.asked source current target (.new r)]) = idsOf r' deeds :=
      fun r' => idsOf_append_none rfl
    refine ⟨h.numbered.append hreorder ⟨source, hid⟩, ?_, ?_,
      fun source' current' target' r' hr' => ?_, fun r' hr' => ?_,
      fun r' program result hplaced => ?_⟩
    · rw [List.map_append, h.keys, List.filterMap_append]
      rfl
    · rw [List.map_append]
      refine List.nodup_append.mpr ⟨h.once, List.nodup_singleton _,
        fun key hmade key' hnew heq => ?_⟩
      rw [heq, List.mem_singleton.mp hnew] at hmade
      exact find?_eq_none_iff.mp hfind hmade
    · rw [hids]
      rcases List.mem_append.mp hr' with hr' | hr'
      · obtain ⟨k, id, hk, hrest⟩ := h.recorded source' current' target' r' hr'
        refine ⟨k, id, ?_, hrest⟩
        rw [List.getElem?_append_left (List.getElem?_eq_some_iff.mp hk).1, hk]
      · cases List.mem_singleton.mp hr'
        refine ⟨p.made.length, r.id, ?_, hid, fun _ => rfl, fun hne =>
          absurd (h.idsOf_eq_nil hid) hne⟩
        rw [List.getElem?_append_right (Nat.le_refl _), Nat.sub_self]
        rfl
    · rw [hids] at hr'
      obtain ⟨source', current', target', hasked⟩ := h.offered r' hr'
      exact ⟨source', current', target', List.mem_append_left _ hasked⟩
    · rcases List.mem_append.mp hplaced with hplaced | hplaced
      · exact h.free r' program result hplaced
      · cases List.mem_singleton.mp hplaced

/-- A record under the id with which a reorder was handed out is that reorder's. -/
theorem eq_of_recorded {r' : Primitive} {source' : String} {target' : Layout} {k : Nat}
    (h : Ledger deeds m) (hasked : .asked source current target (.new r) ∈ deeds)
    (hk : m[k]? = some ((source', target'), { r' with id := r.id }))
    (hnumber : r'.id = reorderId k source') : r' = r := by
  obtain ⟨l, id, hl, hid, -⟩ := h.recorded source current target r hasked
  obtain ⟨-, rest, hrest⟩ := h.numbered k _ hk
  obtain rfl : k = l := reorderId_inj (hrest.symm.trans hid)
  obtain ⟨hkey, hreorder⟩ := Prod.mk.inj (Option.some.inj (hk.symm.trans hl))
  obtain ⟨hsource, -⟩ := Prod.mk.inj hkey
  obtain ⟨-, hpadding, hoperation⟩ := Primitive.mk.inj hreorder
  obtain ⟨_, _, _⟩ := r
  obtain ⟨_, _, _⟩ := r'
  dsimp only at hid hnumber hpadding hoperation
  rw [hid, hnumber, hsource, hpadding, hoperation]

/-- **An insertion** of a new reorder puts the id it takes on record. -/
theorem place (h : Ledger deeds m) (hoffered : .asked source current target (.new r) ∈ deeds)
    (program : Program) {result : Except CompileError (Option String)}
    (hresult : ∀ made, result = .ok made → made = some (program.unusedId r.id)) :
    Ledger (deeds ++ [.placed (.new r) program result])
      (renameIn r.id (program.unusedId r.id) m) := by
  obtain ⟨suffix, hfree⟩ := program.unusedId_eq_append r.id
  have hids : idsOf r (deeds ++ [.placed (.new r) program result])
      = idsOf r deeds ++ [program.unusedId r.id] := by
    rw [idsOf_append, idsOf_placed]
  have hothers : ∀ {r' : Primitive}, r' ≠ r →
      idsOf r' (deeds ++ [.placed (.new r) program result]) = idsOf r' deeds := fun hne =>
    idsOf_append_none (if_neg hne.symm)
  have hmap : renameIn r.id (program.unusedId r.id) m
      = m.map (renamed r.id (program.unusedId r.id)) :=
    renameIn_eq_map h.numbered.nodup
  have hget : ∀ {k e}, m[k]? = some e → (renameIn r.id (program.unusedId r.id) m)[k]?
      = some (renamed r.id (program.unusedId r.id) e) := fun he => by
    rw [hmap, List.getElem?_map, he]
    rfl
  have hkeys : (renameIn r.id (program.unusedId r.id) m).map (·.1) = m.map (·.1) := by
    rw [hmap, List.map_map]
    exact List.map_congr_left fun e _ => renamed_fst e
  refine ⟨?_, ?_, hkeys ▸ h.once, fun source' current' target' r' hr' => ?_, fun r' hr' => ?_,
    fun r' program' result' hplaced => ?_⟩
  · rw [hmap, hfree]
    exact h.numbered.map_renamed suffix
  · rw [hkeys, h.keys, List.filterMap_append]
    exact (List.append_nil _).symm
  · obtain hr' | hr' := List.mem_append.mp hr'
    case inr => cases List.mem_singleton.mp hr'
    obtain ⟨k, id, hk, hnumber, hnone, hsome⟩ := h.recorded source' current' target' r' hr'
    by_cases hsame : r' = r
    · subst hsame
      rw [hids]
      by_cases hid : id = r'.id
      · exact ⟨k, _, (hget hk).trans (congrArg some (if_pos hid)), hnumber,
          fun hnil => by simp at hnil, fun _ => List.mem_append_right _ List.mem_cons_self⟩
      · exact ⟨k, id, (hget hk).trans (congrArg some (if_neg hid)), hnumber,
          fun hnil => by simp at hnil,
          fun _ => List.mem_append_left _ (hsome fun hempty => hid (hnone hempty))⟩
    · rw [hothers hsame]
      refine ⟨k, id, (hget hk).trans (congrArg some (if_neg fun hid => hsame ?_)), hnumber, hnone,
        hsome⟩
      change id = r.id at hid
      exact h.eq_of_recorded hoffered (hid ▸ hk) hnumber
  · by_cases hsame : r' = r
    · exact ⟨source, current, target, List.mem_append_left _ (hsame ▸ hoffered)⟩
    · rw [hothers hsame] at hr'
      obtain ⟨source', current', target', hasked⟩ := h.offered r' hr'
      exact ⟨source', current', target', List.mem_append_left _ hasked⟩
  · rcases List.mem_append.mp hplaced with hplaced | hplaced
    · exact h.free r' program' result' hplaced
    · cases List.mem_singleton.mp hplaced
      exact hresult

end Ledger

/-- **Every history leaves a ledger.** -/
theorem History.ledger {deeds : List Deed} {p : Preferences} (h : History deeds p) :
    Ledger deeds p.made := by
  induction h with
  | start grouped => exact .start
  | regroup _ grouped ih => exact ih
  | ask _ source current target ih => exact ih.ask source current target
  | @place deeds p _ source current target choice offered program session next index ih =>
    by_cases hnew : ∃ r, choice = .new r
    · obtain ⟨r, rfl⟩ := hnew
      obtain ⟨hmade, hresult⟩ := run_insertReorder_new r next index ⟨program, p, session⟩
      rw [hmade]
      exact ih.place offered program hresult
    · have hold : ∀ r, choice ≠ .new r := fun r hr => hnew ⟨r, hr⟩
      rw [run_insertReorder_old hold]
      refine ih.append rfl fun r => ?_
      cases choice with
      | new r' => exact absurd rfl (hold r')
      | _ => rfl

/-! ## One reorder for each source and target -/

/-- **One reorder for each source and target**, in whatever order reorders are asked for and
inserted, and into whatever programs.  A reorder is new at most once for a pair.  Whatever else is
asked for the pair is answered with it: under the id it was handed out with until it is inserted,
then under one it was inserted with.  The ids on record differ, so that a renaming finds the same
record in any order of them.  Each record is a reorder of the source to the target.  No new reorder
is inserted under an id that is in use. -/
theorem history_spec {deeds : List Deed} {p : Preferences} (h : History deeds p) :
    (deeds.filterMap Deed.renewed?).Nodup ∧
    (∀ source current target r, .asked source current target (.new r) ∈ deeds →
      ∃ id, (idsOf r deeds = [] → id = r.id) ∧ (idsOf r deeds ≠ [] → id ∈ idsOf r deeds) ∧
        ∀ other, other ≠ target → p.reorder source other target = (.cached { r with id }, p)) ∧
    (p.made.map (·.2.id)).Nodup ∧
    (∀ old new m, m.Perm p.made → (renameIn old new m).Perm (p.rename old new).made) ∧
    (∀ e ∈ p.made, e.2 = .reorder e.2.id e.1.1 e.1.2 e.1.2.padding) ∧
    ∀ r program result, .placed (.new r) program result ∈ deeds → ∀ made, result = .ok made →
      ∃ id, made = some id ∧ idsOf r [.placed (.new r) program result] = [id] ∧
        program.contains id = false := by
  have hledger := h.ledger
  have hids := hledger.numbered.nodup
  refine ⟨hledger.keys ▸ hledger.once, fun source current target r hasked => ?_, hids,
    fun old new m hperm => ?_, fun e he => hledger.numbered.reorder_of_mem he,
    fun r program result hplaced made hmade => ?_⟩
  · obtain ⟨k, id, hk, -, hnone, hsome⟩ := hledger.recorded source current target r hasked
    refine ⟨id, hnone, hsome, fun other hother => ?_⟩
    unfold Preferences.reorder
    rw [if_neg hother, find?_of_mem hledger.once (List.mem_of_getElem? hk)]
  · change (renameIn old new m).Perm (renameIn old new p.made)
    rw [renameIn_eq_map hids, renameIn_eq_map ((hperm.map _).nodup_iff.mpr hids)]
    exact hperm.map _
  · refine ⟨program.unusedId r.id, hledger.free r program result hplaced made hmade,
      idsOf_placed r program result, Bool.eq_false_iff.mpr (program.not_contains_unusedId r.id)⟩

/-- A convolution, beside a node with the id that the first reorder of its weights would have. -/
def Topology.occupied : Topology :=
  ⟨[⟨"x", Padding.none, .inputLayout (.dense .f32 .bfyx ⟨1, 1, 2, 2⟩)⟩,
    ⟨"w", Padding.none, .inputLayout (.dense .f32 .oiyx ⟨1, 1, 1, 1⟩)⟩,
    ⟨"reorder_0_w", Padding.none, .softmax ⟨"x", .x⟩⟩,
    ⟨"c", Padding.none, .convolution ⟨"x", ["w"], [], Planar.one, Planar.one, ⟨0, 0⟩, none,
      Activation.none⟩⟩]⟩

/-- The reorder takes another id there, and is found under it. -/
theorem history_spec_occupied : ∃ deeds p current target r result, History deeds p ∧
    deeds = [.asked "w" current target (.new r),
      .placed (.new r) (Compilation.ofTopology .occupied).program result] ∧
    r.id = "reorder_0_w" ∧ result = .ok (some "reorder_0_w_1") ∧
    (deeds.filterMap Deed.renewed?).Nodup ∧ (p.made.map (·.2.id)).Nodup ∧
    ∀ other, other ≠ target →
      p.reorder "w" other target = (.cached { r with id := "reorder_0_w_1" }, p) := by
  let current : Layout := .dense .f32 .oiyx ⟨1, 1, 1, 1⟩
  let target : Layout := .dense .f32 .osIyxOsv16 ⟨1, 1, 1, 1⟩
  let r : Primitive := .reorder "reorder_0_w" "w" target target.padding
  have hasked : History [.asked "w" current target (.new r)] ⟨false, [(("w", target), r)]⟩ :=
    History.ask (.start false) "w" current target
  have hplaced := hasked.place List.mem_cons_self (Compilation.ofTopology .occupied).program
    ⟨.unset, []⟩ "c" 1
  have hresult : ((Pass.insertReorder (.new r) "c" 1).run.run
      ⟨(Compilation.ofTopology .occupied).program, ⟨false, [(("w", target), r)]⟩, ⟨.unset, []⟩⟩).1
        = .ok (some "reorder_0_w_1") := by decide +kernel
  have hfree : (Compilation.ofTopology .occupied).program.unusedId r.id = "reorder_0_w_1" := by
    decide +kernel
  rw [hresult] at hplaced
  generalize ((Pass.insertReorder (.new r) "c" 1).run.run _).2.preferences = p at hplaced
  obtain ⟨honce, hcached, hids, -⟩ := history_spec hplaced
  obtain ⟨id, -, hinserted, hagain⟩ := hcached "w" current target r List.mem_cons_self
  have hidsOf : idsOf r [.asked "w" current target (.new r), .placed (.new r)
      (Compilation.ofTopology .occupied).program (.ok (some "reorder_0_w_1"))]
        = ["reorder_0_w_1"] :=
    (idsOf_placed r _ (.ok (some "reorder_0_w_1"))).trans (congrArg (fun id => [id]) hfree)
  obtain rfl : id = "reorder_0_w_1" :=
    List.mem_singleton.mp (hidsOf ▸ hinserted (hidsOf ▸ List.cons_ne_nil _ _))
  exact ⟨_, p, current, target, r, _, hplaced, rfl, rfl, rfl, honce, hids, hagain⟩

end NetPlan
