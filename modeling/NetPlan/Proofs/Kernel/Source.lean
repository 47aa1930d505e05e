import NetPlan.Proofs.Kernel.Weights
import NetPlan.Proofs.Text.Numeral

/-!
# Proofs/Kernel/Source — source text can be read back

The text that is hashed for a launch has its entry point and then its definitions, each `name=value;`.
Nothing stands between the entry point and the first name, and nothing quotes a name or a value.  The
text can be read back all the same:

* no name has an equals sign and no value a semicolon (`Defines.Legible`), so each definition ends where
  it seems to (`Defines.spell_inj`);
* the first name is that of the type of the first input, whatever the kernel (`Defines.Headed`), so it
  shows where the entry point ends (`Launch.Legible.eq_of_utf8`).

`source_inj` — so launches that builtin implementations plan, for whatever requests, have equal bytes of
source only if they have equal entry points and equal definitions.
-/

namespace NetPlan

/-! ## Bytes -/

namespace Hash

/-- The bytes from a position on go behind those that are read. -/
theorem toList_loop (bytes : ByteArray) (i : Nat) (read : List UInt8) :
    ByteArray.toList.loop bytes i read = read.reverse ++ bytes.data.toList.drop i := by
  fun_induction ByteArray.toList.loop bytes i read with
  | case1 i read hlt ih =>
    have hi : i < bytes.data.toList.length := hlt
    have hget : bytes.get! i = bytes.data.toList[i] := getElem!_pos bytes.data i hlt
    rw [ih, List.reverse_cons, List.append_assoc, List.drop_eq_getElem_cons hi, hget]
    rfl
  | case2 i read hge =>
    have hi : bytes.data.toList.length ≤ i := Nat.le_of_not_lt hge
    rw [List.drop_eq_nil_of_le hi, List.append_nil]

/-- Different texts have different bytes. -/
theorem utf8_injective : Function.Injective utf8 := fun s t h => by
  have hbytes : s.toByteArray.data.toList = t.toByteArray.data.toList := by
    simpa only [utf8, String.toUTF8, ByteArray.toList, toList_loop, List.drop_zero, List.reverse_nil,
      List.nil_append] using h
  exact String.toByteArray_inj.mp (ByteArray.ext (Array.toList_inj.mp hbytes))

end Hash

namespace Kernel

open Builtin

/-! ## Reading definitions back -/

/-- What stands before the first mark and what stands behind it. -/
theorem eq_of_append_mark {mark : Char} {as bs cs ds : List Char} (ha : mark ∉ as) (hb : mark ∉ bs)
    (h : as ++ mark :: cs = bs ++ mark :: ds) : as = bs ∧ cs = ds := by
  obtain ⟨es, hbs, hcs⟩ | ⟨es, has, hds⟩ := List.append_eq_append_iff.mp h
  · cases es with
    | nil => exact ⟨(List.append_nil as ▸ hbs).symm, (List.cons.inj hcs).2⟩
    | cons e es =>
      obtain rfl := (List.cons.inj hcs).1
      exact absurd (hbs ▸ List.mem_append_right _ List.mem_cons_self) hb
  · cases es with
    | nil => exact ⟨List.append_nil bs ▸ has, (List.cons.inj hds).2.symm⟩
    | cons e es =>
      obtain rfl := (List.cons.inj hds).1
      exact absurd (has ▸ List.mem_append_right _ List.mem_cons_self) ha

namespace Defines

/-- The characters of definitions. -/
def spell (ds : Defines) : List Char :=
  ds.flatMap fun (name, value) => name.toList ++ '=' :: (value.toList ++ [';'])

/-- A constant is spelled as name and value, each with its mark. -/
theorem spell_cons (d : String × String) (ds : Defines) :
    spell (d :: ds) = d.1.toList ++ '=' :: (d.2.toList ++ ';' :: ds.spell) := by
  simp [spell]

/-- A name without an equals sign and a value without a semicolon. -/
def Plain (d : String × String) : Prop := '=' ∉ d.1.toList ∧ ';' ∉ d.2.toList

@[simp] theorem plain_mk {name value : String} :
    Plain (name, value) ↔ '=' ∉ name.toList ∧ ';' ∉ value.toList := Iff.rfl

/-- Definitions that show where their names and values end. -/
def Legible (ds : Defines) : Prop := ∀ d ∈ ds, Plain d

variable {ds es : Defines}

@[simp] theorem legible_nil : Legible [] := fun _ h => absurd h List.not_mem_nil

@[simp] theorem legible_cons {d : String × String} :
    Legible (d :: ds) ↔ Plain d ∧ ds.Legible := List.forall_mem_cons

@[simp] theorem legible_append : (ds ++ es).Legible ↔ ds.Legible ∧ es.Legible :=
  List.forall_mem_append

/-- Constants may depend on a condition. -/
theorem legible_ite {c : Prop} [Decidable c] (hds : ds.Legible) (hes : es.Legible) :
    (if c then ds else es).Legible := by
  split <;> assumption

/-- A definition with something in front of its name is read up to its two marks. -/
theorem eq_of_front {as bs : List Char} {d e : String × String} (ha : '=' ∉ as) (hb : '=' ∉ bs)
    (hd : Legible (d :: ds)) (he : Legible (e :: es))
    (h : as ++ spell (d :: ds) = bs ++ spell (e :: es)) :
    as ++ d.1.toList = bs ++ e.1.toList ∧ d.2 = e.2 ∧ ds.spell = es.spell := by
  obtain ⟨⟨hname, hvalue⟩, -⟩ := legible_cons.mp hd
  obtain ⟨⟨hname', hvalue'⟩, -⟩ := legible_cons.mp he
  rw [spell_cons, spell_cons, ← List.append_assoc, ← List.append_assoc] at h
  obtain ⟨hfront, h⟩ := eq_of_append_mark (fun hm => (List.mem_append.mp hm).elim ha hname)
    (fun hm => (List.mem_append.mp hm).elim hb hname') h
  obtain ⟨hvalues, hrest⟩ := eq_of_append_mark hvalue hvalue' h
  exact ⟨hfront, String.toList_inj.mp hvalues, hrest⟩

/-- **Definitions are read back** one after another. -/
theorem spell_inj : ∀ {ds es : Defines}, ds.Legible → es.Legible → ds.spell = es.spell → ds = es
  | [], [], _, _, _ => rfl
  | [], e :: es, _, _, h => by
      rw [spell_cons] at h
      exact absurd h.symm (List.append_ne_nil_of_right_ne_nil _ (List.cons_ne_nil _ _))
  | d :: ds, [], _, _, h => by
      rw [spell_cons] at h
      exact absurd h (List.append_ne_nil_of_right_ne_nil _ (List.cons_ne_nil _ _))
  | d :: ds, e :: es, hd, he, h => by
      have hnone : '=' ∉ ([] : List Char) := List.not_mem_nil
      obtain ⟨hname, hvalue, hrest⟩ := eq_of_front hnone hnone hd he h
      rw [spell_inj (legible_cons.mp hd).2 (legible_cons.mp he).2 hrest,
        Prod.ext (String.toList_inj.mp hname) hvalue]

/-- Legible definitions, of which the first is the type of the first input. -/
structure Headed (ds : Defines) : Prop where
  legible : ds.Legible
  first : ∃ value rest, ds = ("INPUT0_TYPE", value) :: rest

/-- What follows a head is free, if it is legible. -/
theorem Headed.append (h : ds.Headed) (hes : es.Legible) : (ds ++ es).Headed where
  legible := legible_append.mpr ⟨h.legible, hes⟩
  first :=
    let ⟨value, rest, hds⟩ := h.first
    ⟨value, rest ++ es, hds ▸ rfl⟩

end Defines

/-! ## Reading launches back -/

/-- Without a first name to tell by, an entry point may end anywhere. -/
example : sourceText "ab" [("c", "1")] = sourceText "a" [("bc", "1")] := by decide

/-- A launch whose source text shows where its parts end. -/
structure Launch.Legible (l : Launch) : Prop where
  entry : '=' ∉ l.entry.toList
  defines : l.defines.Headed

/-- A source text is the entry and then the constants. -/
theorem toList_sourceText (entry : String) (defines : Defines) :
    (sourceText entry defines).toList = entry.toList ++ defines.spell := by
  simp [sourceText, Defines.spell, String.toList_join, List.flatMap_map]

/-- **The entry point and the definitions of a launch are read back from the bytes of its source.** -/
theorem Launch.Legible.eq_of_utf8 {l m : Launch} (hl : l.Legible) (hm : m.Legible)
    (h : Hash.utf8 (sourceText l.entry l.defines) = Hash.utf8 (sourceText m.entry m.defines)) :
    l.entry = m.entry ∧ l.defines = m.defines := by
  have hchars := congrArg String.toList (Hash.utf8_injective h)
  rw [toList_sourceText, toList_sourceText] at hchars
  obtain ⟨hlegible, value, ds, hds⟩ := hl.defines
  obtain ⟨hlegible', value', es, hes⟩ := hm.defines
  rw [hds] at hlegible hchars
  rw [hes] at hlegible' hchars
  -- Both fronts are an entry point and the same name, so the entry points end alike.
  obtain ⟨hfront, hvalue, hrest⟩ :=
    Defines.eq_of_front hl.entry hm.entry hlegible hlegible' hchars
  have hvalue : value = value' := hvalue
  have hrest : ds = es := Defines.spell_inj (Defines.legible_cons.mp hlegible).2
    (Defines.legible_cons.mp hlegible').2 hrest
  exact ⟨String.toList_inj.mp (List.append_cancel_right hfront), by rw [hds, hes, hvalue, hrest]⟩

/-! ## Characters of names and values -/

section Characters

variable {c : Char}

/-- Numerals are spelled in digits alone. -/
theorem notMem_toDigits (hc : c.isDigit = false) (n : Nat) : c ∉ Nat.toDigits 10 n := fun h =>
  Bool.false_ne_true (hc.symm.trans (Text.isDigit_of_mem_toDigits h))

/-- Printed numbers hold no other marks. -/
theorem notMem_toString (hc : c.isDigit = false) (n : Nat) : c ∉ (toString n).toList :=
  (Nat.toList_repr : (toString n).toList = _) ▸ notMem_toDigits hc n

/-- A decimal is spelled with digits and a point. -/
theorem notMem_decimal (hc : c.isDigit = false) (hpoint : c ≠ '.') (d : Decimal) :
    c ∉ d.text.toList := by
  have hdigits : c ∉ Nat.toDigits 10 d.digits := notMem_toDigits hc _
  have hzeros (k : Nat) : c ∉ List.replicate k '0' := fun h => by
    rw [List.eq_of_mem_replicate h] at hc
    exact absurd hc (by decide)
  unfold Decimal.text
  split
  · rw [String.toList_ofList, List.mem_append, not_or]
    exact ⟨hdigits, hzeros _⟩
  · dsimp only
    have hpadded (k : Nat) : c ∉ List.replicate k '0' ++ Nat.toDigits 10 d.digits :=
      List.mem_append.not.mpr (not_or.mpr ⟨hzeros k, hdigits⟩)
    rw [String.toList_ofList, List.mem_append, List.mem_cons, not_or, not_or]
    exact ⟨fun h => hpadded _ (List.mem_of_mem_take h), hpoint,
      fun h => hpadded _ (List.mem_of_mem_drop h)⟩

@[simp] theorem notMem_single (a : Single) : ';' ∉ a.text.toList := by
  have hdecimal : ';' ∉ (Decimal.shortest a).text.toList := notMem_decimal rfl (by decide) _
  have hsigned {s : String} (hs : ';' ∉ s.toList) :
      ';' ∉ ((if a.isNegative then "-" else "") ++ s).toList := by
    rw [String.toList_append, List.mem_append, not_or]
    exact ⟨by split <;> decide, hs⟩
  unfold Single.text
  dsimp only
  split
  · decide
  split
  · exact hsigned (by decide)
  split
  · exact hsigned (by decide)
  · exact hsigned hdecimal

/-- A mark that neither the parts nor the separator hold is not in the whole. -/
theorem notMem_intercalate {sep : String} (hsep : c ∉ sep.toList) : ∀ {ts : List String},
    (∀ t ∈ ts, c ∉ t.toList) → c ∉ (sep.intercalate ts).toList
  | [], _ => by
      rw [String.intercalate_nil]
      exact List.not_mem_nil
  | [t], h => by
      rw [String.intercalate_singleton]
      exact h t List.mem_cons_self
  | t :: u :: ts, h => by
      obtain ⟨ht, hts⟩ := List.forall_mem_cons.mp h
      rw [String.intercalate_cons_cons, String.toList_append, String.toList_append, List.mem_append,
        List.mem_append, not_or, not_or]
      exact ⟨⟨ht, hsep⟩, notMem_intercalate hsep hts⟩

theorem toList_toLower (s : String) : s.toLower.toList = s.toList.map Char.toLower :=
  String.toList_map

theorem toList_toUpper (s : String) : s.toUpper.toList = s.toList.map Char.toUpper :=
  String.toList_map

/-- The characters of a layer that an entry point keeps are letters and digits. -/
theorem notMem_entryPoint {name : String} (hname : '=' ∉ name.toList) (layer : String) :
    '=' ∉ (entryPoint name layer).toList := by
  unfold entryPoint
  simp only [String.toList_append, String.toList_ofList, List.mem_append, List.mem_map, not_or]
  refine ⟨⟨hname, by decide⟩, fun ⟨ch, _, hch⟩ => ?_⟩
  split at hch
  case isTrue halnum =>
    rw [hch] at halnum
    exact absurd halnum (by decide)
  case isFalse => exact absurd hch (by decide)

end Characters

/-! ## What definitions are made of -/

namespace Defines

@[simp] theorem plain_num {name : String} {value : Nat} :
    Plain (num name value) ↔ '=' ∉ name.toList := and_iff_left (notMem_toString rfl value)

/-- What is defined about a tensor is legible. -/
theorem legible_ofTensor {stem : String} (hstem : '=' ∉ stem.toList) (t : DataTensor) :
    (ofTensor stem t).Legible := by
  have htype : ';' ∉ t.element.sourceName.toList := by cases t.element <;> decide
  have hlayout : ';' ∉ t.layout.name.toLower.toList := by
    rw [toList_toLower]
    cases t.layout <;> decide
  simp [ofTensor, toString, hstem, hlayout, htype]

/-- What is defined about weights is legible. -/
theorem legible_ofWeights {stem : String} (hstem : '=' ∉ stem.toList) (w : WeightTensor) :
    (ofWeights stem w).Legible := by
  have htype : ';' ∉ w.element.sourceName.toList := by cases w.element <;> decide
  have hlayout : ';' ∉ w.layout.name.toLower.toList := by
    rw [toList_toLower]
    cases w.layout <;> decide
  simp [ofWeights, toString, hstem, hlayout, htype]

/-- What is defined about an activation is legible. -/
theorem legible_ofActivation (a : Activation) : (ofActivation a).Legible := by
  have hname : ';' ∉ (functionName a.function).toList := by cases a.function <;> decide
  unfold ofActivation
  split <;> simp [hname]

/-- The stem of a numbered input. -/
theorem notMem_stem (i : Nat) : '=' ∉ (s!"INPUT{i}").toList := by
  have hi : '=' ∉ (toString i).toList := notMem_toString rfl i
  simpa [toString] using hi

@[simp] theorem legible_ofOperands (o : Operands) : (ofOperands o).Legible := by
  refine legible_append.mpr ⟨legible_append.mpr ⟨?_, legible_ofTensor (by decide) _⟩,
    legible_ofActivation _⟩
  intro d hd
  obtain ⟨⟨t, i⟩, -, hd⟩ := List.mem_flatMap.mp hd
  exact legible_ofTensor (notMem_stem i) t d hd

@[simp] theorem legible_ofFilter (f : Filter) : (ofFilter f).Legible := by
  refine legible_append.mpr ⟨legible_ofWeights (by decide) _, ?_⟩
  cases f.bias with
  | nil => simp
  | cons b rest => exact legible_cons.mpr ⟨by simp, legible_ofTensor (by decide) b⟩

/-- The first input is defined first. -/
theorem headed_ofOperands {o : Operands} (h : o.inputs ≠ []) : (ofOperands o).Headed where
  legible := legible_ofOperands o
  first := by
    obtain ⟨input, rest, hinputs⟩ := List.exists_cons_of_ne_nil h
    refine ⟨input.element.sourceName, ?_⟩
    unfold ofOperands
    rw [hinputs]
    exact ⟨_, rfl⟩

/-- Weights that come first make a head. -/
theorem headed_ofWeights (w : WeightTensor) : (ofWeights "INPUT0" w).Headed where
  legible := legible_ofWeights (by decide) w
  first := ⟨w.element.sourceName, _, rfl⟩

end Defines

/-! ## What kernels define -/

/-- The launches of a plan can be read back. -/
def Plan.Legible (plan : Plan) : Prop := ∀ l ∈ plan.launches, l.Legible

/-- All plans for a request can be read back. -/
def Planner.Legible (planner : Planner) : Prop :=
  ∀ r o, Yields (fun plans => ∀ plan ∈ plans, plan.Legible) (planner r o)

/-- All plans of an implementation can be read back. -/
def Implementation.Legible (i : Implementation) : Prop := ∀ r o plan, i.Gives r o plan → plan.Legible

/-- An implementation without variants is as legible as its planner. -/
theorem legible_fixed {name : String} {kind : Kind} {key : Key} {planner : Planner}
    (h : Planner.Legible planner) : (Implementation.fixed name kind key planner).Legible :=
  fun r o plan hgives =>
    let ⟨plans, hplans, hmem⟩ := exists_of_gives_fixed hgives
    h r o plans hplans plan hmem

section Launches

variable {kind : Kind} {name layer : String} {defines extra : Defines} {groups : WorkGroups}
  {arguments : List Argument} {cost : Single} {change : Option WeightsChange}

/-- A launch is legible if its constants have a head and its name holds no mark. -/
theorem legible_singleLaunch (hname : '=' ∉ name.toList) (hdefines : defines.Headed) :
    Yields Plan.Legible (singleLaunch kind name layer defines groups arguments cost) := by
  unfold singleLaunch
  split
  · exact yields_pure (List.forall_mem_singleton.mpr ⟨notMem_entryPoint hname layer, hdefines⟩)
  · exact yields_error _

/-- So is a plan of that launch alone. -/
theorem legible_launch (hname : '=' ∉ name.toList) (hdefines : defines.Headed) :
    Yields (fun plans => ∀ plan ∈ plans, plan.Legible) (do
      let plan ← singleLaunch kind name layer defines groups arguments cost
      return [plan]) :=
  (legible_singleLaunch hname hdefines).bind fun _ hplan =>
    yields_pure (List.forall_mem_singleton.mpr hplan)

end Launches

/-! ### Work without weights -/

/-- An activation that is checked has an input. -/
theorem inputs_of_checkActivation {o : Operands} :
    Yields (fun _ => o.inputs ≠ []) (checkActivation o) := fun _ h hnil => by
  rw [checkActivation, hnil] at h
  cases h

theorem legible_activationRef : activationRef.Legible := legible_fixed fun ⟨_, work⟩ _ => by
  cases work with
  | activation o =>
    refine inputs_of_checkActivation.bind fun _ hinputs => legible_launch (by decide) ?_
    exact (Defines.headed_ofOperands hinputs).append (Defines.legible_ite (by simp) (by simp))
  | _ => exact yields_error _

theorem legible_activationOpt : activationOpt.Legible := legible_fixed fun ⟨_, work⟩ _ => by
  cases work with
  | activation o =>
    refine inputs_of_checkActivation.bind fun _ hinputs => yields_guard fun _ =>
      legible_launch (by decide) ?_
    exact (Defines.headed_ofOperands hinputs).append (by simp)
  | _ => exact yields_error _

/-- A combination that is checked has an input. -/
theorem inputs_of_checkEltwise {w : EltwiseWork} :
    Yields (fun _ => w.operands.inputs ≠ []) (checkEltwise w) := fun _ h hnil => by
  rw [checkEltwise, hnil] at h
  cases h

theorem legible_eltwiseRef : eltwiseRef.Legible := legible_fixed fun ⟨_, work⟩ _ => by
  cases work with
  | eltwise w =>
    refine inputs_of_checkEltwise.bind fun _ hinputs => legible_launch (by decide) ?_
    have hmode : ';' ∉ (modeName w.mode).toList := by cases w.mode <;> decide
    refine ((Defines.headed_ofOperands hinputs).append (by simpa using hmode)).append ?_
    intro d hd
    obtain ⟨⟨c, i⟩, -, rfl⟩ := List.mem_map.mp hd
    have hi : '=' ∉ (toString i).toList := notMem_toString rfl i
    simpa [toString] using hi
  | _ => exact yields_error _

/-- Pooling that is checked has an input. -/
theorem inputs_of_checkPooling {w : PoolingWork} :
    Yields (fun _ => w.operands.inputs ≠ []) (checkPooling w) := fun _ h hnil => by
  rw [checkPooling, hnil] at h
  cases h

/-- Pooling defines its input first. -/
theorem headed_poolingDefines {w : PoolingWork} (h : w.operands.inputs ≠ []) :
    (poolingDefines w).Headed := by
  refine (Defines.headed_ofOperands h).append ?_
  cases w.kind <;> cases w.rounding <;> cases w.divider <;> simp

theorem legible_poolingRef : poolingRef.Legible := legible_fixed fun ⟨_, work⟩ _ => by
  cases work with
  | pooling w =>
    exact inputs_of_checkPooling.bind fun _ hinputs =>
      legible_launch (by decide) (headed_poolingDefines hinputs)
  | _ => exact yields_error _

theorem legible_poolingAverage : poolingAverage.Legible := legible_fixed fun ⟨_, work⟩ _ => by
  cases work with
  | pooling w =>
    exact inputs_of_checkPooling.bind fun _ hinputs => yields_guard fun _ =>
      legible_launch (by decide) ((headed_poolingDefines hinputs).append (by simp))
  | _ => exact yields_error _

theorem legible_poolingBlock : poolingBlock.Legible := legible_fixed fun ⟨_, work⟩ _ => by
  cases work with
  | pooling w =>
    exact inputs_of_checkPooling.bind fun _ hinputs => yields_guard fun _ =>
      legible_launch (by decide) ((headed_poolingDefines hinputs).append (by simp))
  | _ => exact yields_error _

/-- A reorder that is checked has an input. -/
theorem inputs_of_checkReorder {w : ReorderWork} :
    Yields (fun _ => w.operands.inputs ≠ []) (checkReorder w) := fun _ h hnil => by
  rw [checkReorder, hnil] at h
  cases h

theorem legible_reorderRef : reorderRef.Legible := legible_fixed fun ⟨_, work⟩ _ => by
  cases work with
  | reorder w =>
    refine inputs_of_checkReorder.bind fun _ hinputs => legible_launch (by decide) ?_
    have hsubtract : ';' ∉ (",".intercalate (w.subtract.map Single.text)).toList :=
      notMem_intercalate (by decide) (List.forall_mem_map.mpr fun a _ => notMem_single a)
    exact (Defines.headed_ofOperands hinputs).append (Defines.legible_ite Defines.legible_nil
      (Defines.legible_cons.mpr ⟨Defines.plain_mk.mpr ⟨by decide, hsubtract⟩, Defines.legible_nil⟩))
  | _ => exact yields_error _

theorem legible_reorderFast : reorderFast.Legible := legible_fixed fun ⟨_, work⟩ _ => by
  cases work with
  | reorder w =>
    exact inputs_of_checkReorder.bind fun _ hinputs =>
      legible_launch (by decide) ((Defines.headed_ofOperands hinputs).append (by simp))
  | _ => exact yields_error _

theorem legible_reorderWeights : reorderWeights.Legible := legible_fixed fun ⟨_, work⟩ _ => by
  cases work with
  | weightsReorder source target =>
    exact yields_guard fun _ => legible_launch (by decide)
      ((Defines.headed_ofWeights source).append (Defines.legible_ofWeights (by decide) target))
  | _ => exact yields_error _

/-- Names of axes hold no marks. -/
theorem notMem_axisName (axis : Axis) : ';' ∉ axis.name.toUpper.toList := by
  rw [toList_toUpper]
  cases axis <;> decide

/-- A softmax that is checked has an input. -/
theorem inputs_of_checkSoftmax {o : Operands} :
    Yields (fun _ => o.inputs ≠ []) (checkSoftmax o) := fun _ h hnil => by
  rw [checkSoftmax, hnil] at h
  cases h

/-- A softmax defines its input first. -/
theorem headed_softmaxDefines {o : Operands} (h : o.inputs ≠ []) (axis : SoftmaxAxis) :
    (softmaxDefines o axis).Headed :=
  (Defines.headed_ofOperands h).append (by simp [notMem_axisName])

theorem legible_softmaxRef : softmaxRef.Legible := legible_fixed fun ⟨_, work⟩ _ => by
  cases work with
  | softmax o axis =>
    exact inputs_of_checkSoftmax.bind fun _ hinputs =>
      legible_launch (by decide) ((headed_softmaxDefines hinputs axis).append (by simp))
  | _ => exact yields_error _

theorem legible_softmaxItems : softmaxItems.Legible := legible_fixed fun ⟨_, work⟩ _ => by
  cases work with
  | softmax o axis =>
    exact inputs_of_checkSoftmax.bind fun _ hinputs =>
      legible_launch (by decide) ((headed_softmaxDefines hinputs axis).append (by simp))
  | _ => exact yields_error _

/-- The parts of a concatenation have one input each. -/
theorem legible_concatenationParts (layer : String) (o : Operands) (axis : Axis) :
    ∀ (index offset : Nat) (inputs : List DataTensor),
      Yields (fun plans => ∀ plan ∈ plans, plan.Legible)
        (concatenationParts layer o axis index offset inputs)
  | _, _, [] => yields_pure fun _ h => absurd h List.not_mem_nil
  | index, offset, input :: rest => by
      have hinput : (Defines.ofOperands ⟨.none, [input], o.output⟩).Headed :=
        Defines.headed_ofOperands (List.cons_ne_nil _ _)
      refine (legible_singleLaunch (by decide)
        (hinput.append (by simp [notMem_axisName]))).bind fun _ hpart => ?_
      exact (legible_concatenationParts layer o axis (index + 1) (offset + input.extent axis)
        rest).bind fun _ hparts => yields_pure (List.forall_mem_cons.mpr ⟨hpart, hparts⟩)

theorem legible_concatenationRef : concatenationRef.Legible :=
  legible_fixed fun ⟨layer, work⟩ _ => by
    cases work with
    | concatenation o axis =>
      refine yields_bind fun _ => (legible_concatenationParts layer o axis 0 0 o.inputs).bind
        fun parts hparts => ?_
      cases parts with
      | nil => exact yields_error _
      | cons first rest =>
        obtain ⟨hfirst, hrest⟩ := List.forall_mem_cons.mp hparts
        refine yields_pure (List.forall_mem_singleton.mpr (List.forall_mem_append.mpr ⟨hfirst, ?_⟩))
        intro l hl
        obtain ⟨part, hpart, hl⟩ := List.mem_flatMap.mp hl
        exact hrest part hpart l hl
    | _ => exact yields_error _

theorem legible_batchNormRef : batchNormRef.Legible := legible_fixed fun ⟨layer, work⟩ _ => by
  cases work with
  | batchNorm o epsilon =>
    unfold planBatchNorm
    dsimp only
    split
    case h_1 input mean variance hinputs =>
      exact yields_bind fun _ => yields_guard fun _ => legible_launch (by decide)
        ((Defines.headed_ofOperands (hinputs ▸ List.cons_ne_nil _ _)).append (by simp))
    case h_2 => exact yields_error _
  | _ => exact yields_error _

theorem legible_scaleRef : scaleRef.Legible := legible_fixed fun ⟨layer, work⟩ _ => by
  cases work with
  | scale o =>
    unfold planScale
    dsimp only
    split
    case h_1 => exact yields_error _
    case h_2 input rest hinputs =>
      exact yields_guard fun _ => yields_bind fun _ => legible_launch (by decide)
        ((Defines.headed_ofOperands (hinputs ▸ List.cons_ne_nil _ _)).append (by simp))
  | _ => exact yields_error _

/-! ### Work with weights -/

section Convolutions

variable {w : ConvolutionWork} {name layer : String} {extra : Defines} {groups : WorkGroups}
  {cost : Single} {change : Option WeightsChange} {input : DataTensor} {options : Options}

/-- A convolution defines its input first. -/
theorem headed_convolutionDefines (h : w.operands.inputs = [input]) :
    (convolutionDefines w).Headed := by
  refine ((Defines.headed_ofOperands ?_).append (Defines.legible_ofFilter w.filter)).append (by simp)
  rw [h]
  exact List.cons_ne_nil _ _

/-- A convolution is legible with whatever legible constants come behind its own. -/
theorem legible_convolutionPlan (hname : '=' ∉ name.toList) (hinputs : w.operands.inputs = [input])
    (hextra : extra.Legible) :
    Yields Plan.Legible (convolutionPlan w name layer extra groups cost change) :=
  (legible_singleLaunch hname ((headed_convolutionDefines hinputs).append hextra)).bind
    fun _ hplan => yields_pure hplan

/-- So is a plan of that convolution alone. -/
theorem legible_convolutionPlans (hname : '=' ∉ name.toList)
    (hinputs : w.operands.inputs = [input]) (hextra : extra.Legible) :
    Yields (fun plans => ∀ plan ∈ plans, plan.Legible) (do
      let plan ← convolutionPlan w name layer extra groups cost change
      return [plan]) :=
  (legible_convolutionPlan hname hinputs hextra).bind fun _ hplan =>
    yields_pure (List.forall_mem_singleton.mpr hplan)

theorem legible_convolutionRef : convolutionRef.Legible := legible_fixed fun ⟨_, work⟩ _ => by
  cases work with
  | convolution w =>
    exact yields_checkConvolution.bind fun _ hinputs => yields_bind fun _ =>
      legible_convolutionPlans (by decide) hinputs (by simp)
  | _ => exact yields_error _

theorem legible_convolutionGemm : convolutionGemm.Legible := legible_fixed fun ⟨_, work⟩ _ => by
  cases work with
  | convolution w =>
    refine yields_checkConvolution.bind fun input hinputs => yields_bind fun _ =>
      yields_bind fun _ => legible_convolutionPlans (by decide) hinputs ?_
    have hvariant : ';' ∉ (GemmStyle.of input.element).variant.toList := by
      unfold GemmStyle.of
      split <;> decide
    simpa using hvariant
  | _ => exact yields_error _

theorem legible_convolutionBatch : convolutionBatch.Legible := legible_fixed fun ⟨_, work⟩ _ => by
  cases work with
  | convolution w =>
    exact yields_checkConvolution.bind fun _ hinputs => yields_guard fun _ => yields_bind fun _ =>
      yields_bind fun _ => legible_convolutionPlans (by decide) hinputs (by simp)
  | _ => exact yields_error _

theorem legible_convolutionBlock : convolutionBlock.Legible := fun r o plan hgives => by
  obtain ⟨⟨w, input⟩, block, given, hcheck, -, hgiven, hplan⟩ := tunes_convolutionBlock.planned hgives
  obtain ⟨-, hinputs⟩ := inputs_of_checkBlock _ hcheck
  have hplanned : Yields Plan.Legible (planBlock w input r.layer o block) :=
    yields_bind fun _ => yields_bind fun _ => yields_bind fun _ =>
      legible_convolutionPlan (by decide) hinputs
        (Defines.legible_append.mpr ⟨by simp, Defines.legible_ite (by simp) (by simp)⟩)
  have hlegible : given.Legible := hplanned given hgiven
  rw [hplan]
  exact hlegible

theorem legible_depthwise : depthwise.Legible := fun r o plan hgives => by
  obtain ⟨⟨w, input⟩, tile, given, hcheck, -, hgiven, hplan⟩ := tunes_depthwise.planned hgives
  obtain ⟨-, hinputs⟩ := inputs_of_checkDepthwise _ hcheck
  have hlegible : given.Legible := Yields.bind (fun _ h => h)
    (fun _ _ => legible_convolutionPlan (by decide) hinputs (by simp)) given hgiven
  rw [hplan]
  exact hlegible

/-- Only the data is an input of the definitions. -/
theorem legible_fusedRef : fusedRef.Legible := legible_fixed fun ⟨layer, work⟩ o => by
  cases work with
  | fusedConvBnScale w epsilon =>
    unfold planFused
    dsimp only
    split
    case h_1 input rest hinputs =>
      refine yields_guard fun _ => yields_bind fun _ => yields_bind fun _ => yields_bind fun _ => ?_
      refine (legible_singleLaunch (by decide) ?_).bind fun _ hplan =>
        yields_pure (List.forall_mem_singleton.mpr hplan)
      have hdata : ({ w with operands := { w.operands with inputs := [input] } } :
          ConvolutionWork).operands.inputs = [input] := rfl
      exact (headed_convolutionDefines hdata).append (by simp)
    case h_2 => exact yields_error _
  | _ => exact yields_error _

end Convolutions

section FullyConnected

variable {w : FullyConnectedWork} {input : DataTensor}

/-- A matrix product is legible with whatever legible constants come behind its own. -/
theorem legible_fullyConnectedPlan {name layer : String} {extra : Defines} {groups : WorkGroups}
    {cost : Single} {change : Option WeightsChange} (hname : '=' ∉ name.toList)
    (hinputs : w.operands.inputs = [input]) (hextra : extra.Legible) :
    Yields (fun plans => ∀ plan ∈ plans, plan.Legible)
      (fullyConnectedPlan w name layer extra groups cost change) := by
  have hoperands : w.operands.inputs ≠ [] := hinputs ▸ List.cons_ne_nil _ _
  refine (legible_singleLaunch hname ?_).bind fun _ hplan =>
    yields_pure (List.forall_mem_singleton.mpr hplan)
  exact ((Defines.headed_ofOperands hoperands).append (Defines.legible_ofFilter w.filter)).append
    hextra

theorem legible_fullyConnectedRef : fullyConnectedRef.Legible := legible_fixed fun ⟨_, work⟩ _ => by
  cases work with
  | fullyConnected w =>
    exact yields_checkFullyConnected.bind fun _ hinputs => yields_bind fun _ =>
      legible_fullyConnectedPlan (by decide) hinputs (by simp)
  | _ => exact yields_error _

theorem legible_fullyConnectedGemm : fullyConnectedGemm.Legible :=
  legible_fixed fun ⟨_, work⟩ _ => by
    cases work with
    | fullyConnected w =>
      exact yields_checkFullyConnected.bind fun _ hinputs => yields_bind fun _ =>
        legible_fullyConnectedPlan (by decide) hinputs (by simp)
    | _ => exact yields_error _

theorem legible_fullyConnectedBlock : fullyConnectedBlock.Legible :=
  legible_fixed fun ⟨_, work⟩ _ => by
    cases work with
    | fullyConnected w =>
      exact yields_checkFullyConnected.bind fun _ hinputs => yields_guard fun _ =>
        yields_guard fun _ => yields_bind fun _ =>
          legible_fullyConnectedPlan (by decide) hinputs (by simp)
    | _ => exact yields_error _

theorem legible_fullyConnectedSingle : fullyConnectedSingle.Legible :=
  legible_fixed fun ⟨_, work⟩ _ => by
    cases work with
    | fullyConnected w =>
      exact yields_checkFullyConnected.bind fun _ hinputs => yields_bind fun _ =>
        legible_fullyConnectedPlan (by decide) hinputs (by simp)
    | _ => exact yields_error _

end FullyConnected

/-- **The source of whatever a builtin implementation plans can be read back.** -/
theorem legible_builtin : ∀ i ∈ Registry.builtin.implementations, i.Legible := by
  simp only [Registry.builtin, List.forall_mem_cons, List.not_mem_nil, false_imp_iff, implies_true,
    and_true]
  exact ⟨legible_convolutionRef, legible_convolutionBlock, legible_convolutionGemm,
    legible_convolutionBatch, legible_depthwise, legible_fullyConnectedRef,
    legible_fullyConnectedGemm, legible_fullyConnectedBlock, legible_fullyConnectedSingle,
    legible_poolingRef, legible_poolingAverage, legible_poolingBlock, legible_activationRef,
    legible_activationOpt, legible_eltwiseRef, legible_reorderRef, legible_reorderFast,
    legible_reorderWeights, legible_softmaxRef, legible_softmaxItems, legible_concatenationRef,
    legible_batchNormRef, legible_scaleRef, legible_fusedRef⟩

/-! ## Sources -/

/-- **Equal bytes of source, equal kernels.**  Take any launches of any plans that builtin
implementations give, with or without tuning, for any requests and under any names of layers.  If the
bytes hashed for their sources are equal, then so are their entry points, and their definitions, name by
name and value by value. -/
theorem source_inj {i j : Implementation} (hi : i ∈ Registry.builtin.implementations)
    (hj : j ∈ Registry.builtin.implementations) {r s : Request} {o p : Options} {plan other : Plan}
    (hgives : i.Gives r o plan) (hgives' : j.Gives s p other) {l m : Launch}
    (hl : l ∈ plan.launches) (hm : m ∈ other.launches)
    (h : Hash.utf8 (sourceText l.entry l.defines) = Hash.utf8 (sourceText m.entry m.defines)) :
    l.entry = m.entry ∧ l.defines = m.defines :=
  (legible_builtin i hi r o plan hgives l hl).eq_of_utf8 (legible_builtin j hj s p other hgives' m hm)
    h

/-- An activation of one number, under the name of a layer. -/
def activated (layer : String) : Request :=
  let number : DataTensor := .dense .f32 .bf ⟨1, 1, 1, 1⟩
  ⟨layer, .activation ⟨.none, [number], number⟩⟩

/-- Two layers whose names are spelled alike have the same source. -/
theorem source_inj_spelledAlike : activationRef ∈ Registry.builtin.implementations ∧
    ∃ plan other l m, activationRef.Gives (activated "a.b") .default plan ∧
      activationRef.Gives (activated "a_b") .default other ∧ l ∈ plan.launches ∧
      m ∈ other.launches ∧ (l.layer, m.layer) = ("a.b", "a_b") ∧
      Hash.utf8 (sourceText l.entry l.defines) = Hash.utf8 (sourceText m.entry m.defines) ∧
      l.entry = m.entry ∧ l.defines = m.defines := by
  have hi : activationRef ∈ Registry.builtin.implementations := by simp [Registry.builtin]
  have hplanned (layer : String) : ∃ plan l, activationRef.Gives (activated layer) .default plan ∧
      l ∈ plan.launches ∧ l.layer = layer ∧ l.entry = entryPoint activationRefName layer ∧
      l.defines = Defines.ofOperands ⟨.none, [.dense .f32 .bf ⟨1, 1, 1, 1⟩],
        .dense .f32 .bf ⟨1, 1, 1, 1⟩⟩ ++ [] :=
    ⟨_, _, ⟨_, List.mem_singleton_self _, Or.inl rfl⟩, List.mem_singleton_self _, rfl, rfl, rfl⟩
  obtain ⟨plan, l, hgives, hl, hlayer, hentry, hdefines⟩ := hplanned "a.b"
  obtain ⟨other, m, hgives', hm, hlayer', hentry', hdefines'⟩ := hplanned "a_b"
  have hkept : "a.b".toList.map (fun c => if c.isAlphanum then c else '_')
      = "a_b".toList.map fun c => if c.isAlphanum then c else '_' := by decide
  have hspelled : entryPoint activationRefName "a.b" = entryPoint activationRefName "a_b" := by
    rw [entryPoint, entryPoint, hkept]
  have hbytes : Hash.utf8 (sourceText l.entry l.defines)
      = Hash.utf8 (sourceText m.entry m.defines) := by
    rw [hentry, hentry', hspelled, hdefines, hdefines']
  exact ⟨hi, plan, other, l, m, hgives, hgives', hl, hm, by rw [hlayer, hlayer'], hbytes,
    source_inj hi hi hgives hgives' hl hm hbytes⟩

end Kernel

end NetPlan
