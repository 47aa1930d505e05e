import NetPlan.Proofs.Host.Placement

/-!
# Proofs/Host/Addressing — which layouts hold tensors, and where

Whether the place of an element is known is a matter of the layout, not of the element
(`isSome_offset?`).  So a layout either has a place for each of its elements or for none, and a
tensor of its shape can be packed into it as soon as the first element has a place:

* `offset?_places` — the places of a layout are all there or none, lie in the buffer and apart;
* `pack_places` — a packed buffer has the values of the tensor at their places and zero elsewhere,
  and gives the tensor back, rounded to the element type.
-/

namespace NetPlan

/-! ## Positions of a shape -/

namespace Coord

variable {s : Shape} {c : Coord}

theorem mem_all : c ∈ all s ↔ c.inside s = true := by
  simp only [all, List.mem_flatMap, List.mem_map, List.mem_range, inside, Bool.and_eq_true,
    decide_eq_true_eq]
  constructor
  · rintro ⟨b, hb, f, hf, y, hy, x, hx, rfl⟩
    exact ⟨⟨⟨hb, hf⟩, hx⟩, hy⟩
  · rintro ⟨⟨⟨hb, hf⟩, hx⟩, hy⟩
    exact ⟨c.b, hb, c.f, hf, c.y, hy, c.x, hx, rfl⟩

/-- A shape has elements iff the first position lies in it. -/
theorem inside_origin : inside ⟨0, 0, 0, 0⟩ s = true ↔ s.count ≠ 0 := by
  simp only [inside, Shape.count, Bool.and_eq_true, decide_eq_true_eq, Nat.pos_iff_ne_zero,
    Nat.mul_ne_zero_iff]

theorem count_ne_zero_of_inside (h : c.inside s = true) : s.count ≠ 0 := by
  rw [← length_all]
  exact Nat.ne_of_gt (List.length_pos_of_mem (mem_all.mpr h))

theorem get_set_self (c : Coord) (a : Axis) (i : Nat) : (c.set a i).get a = i := by
  cases a <;> rfl

theorem get_set_of_ne (c : Coord) {a b : Axis} (i : Nat) (h : b ≠ a) :
    (c.set a i).get b = c.get b := by
  cases a <;> cases b <;> first | rfl | exact absurd rfl h

/-- A position moved along an axis to within a shape. -/
theorem inside_set {axis : Axis} {i : Nat}
    (hc : ∀ a, a ≠ axis → c.get a < s.get a) (hi : i < s.get axis) :
    (c.set axis i).inside s = true := by
  refine inside_iff.mpr fun a => ?_
  by_cases ha : a = axis
  · subst ha
    rwa [get_set_self]
  · rw [get_set_of_ne c i ha]
    exact hc a ha

end Coord

/-! ## Layouts with places -/

namespace Layout

variable {l : Layout} {c c' : Coord}

theorem isSome_blockedOffset? (l : Layout) (c c' : Coord) :
    (l.blockedOffset? c).isSome = (l.blockedOffset? c').isSome := by
  unfold blockedOffset?
  split <;> rfl

/-- Whether the places of elements are known: those of the plain formats, and without padding those
of some of the blocked ones. -/
def hasPlaces (l : Layout) : Bool :=
  l.format.order?.isSome || (l.padding.isNone && (l.blockedOffset? ⟨0, 0, 0, 0⟩).isSome)

/-- **Whether an element has a place** does not depend on the element. -/
theorem isSome_offset? (l : Layout) (c : Coord) :
    (l.offset? c).isSome = (c.inside l.size && l.hasPlaces) := by
  rw [offset?, hasPlaces, ← l.isSome_blockedOffset? c]
  cases c.inside l.size
  · rfl
  cases l.format.order? with
  | some order => rfl
  | none => cases l.padding.isNone <;> rfl

theorem isAddressable_iff : l.isAddressable = true ↔ l.count = 0 ∨ l.hasPlaces = true := by
  rw [isAddressable, isSome_offset?, Bool.or_eq_true, beq_iff_eq, Bool.and_eq_true,
    Coord.inside_origin]
  by_cases hcount : l.count = 0
  · simp only [hcount, true_or]
  · exact or_congr_right (and_iff_right hcount)

theorem isAddressable_iff_forall :
    l.isAddressable = true ↔ ∀ c, c.inside l.size = true → (l.offset? c).isSome = true := by
  rw [isAddressable_iff]
  constructor
  · rintro (hcount | hplaces) c hc
    · exact absurd hcount (Coord.count_ne_zero_of_inside hc)
    · rw [isSome_offset?, hc, hplaces]
      rfl
  · intro h
    refine or_iff_not_imp_left.mpr fun hcount => ?_
    have hfirst := h _ (Coord.inside_origin.mpr hcount)
    rw [isSome_offset?, Bool.and_eq_true] at hfirst
    exact hfirst.2

theorem unplaced?_eq_none_iff : l.unplaced? = none ↔ l.isAddressable = true := by
  rw [unplaced?, List.getLast?_eq_none_iff, List.filter_eq_nil_iff, isAddressable_iff_forall]
  refine forall_congr' fun c => ?_
  rw [Coord.mem_all, Option.isNone_iff_eq_none, ← ne_eq, ← Option.isSome_iff_ne_none]

/-- **The places of a layout** are known of all elements or of none; each lies in the buffer, no two
elements share one, and what is no element has none. -/
theorem offset?_places (l : Layout) :
    (∀ c c', c.inside l.size = true → c'.inside l.size = true →
      ((l.offset? c).isSome = true ↔ (l.offset? c').isSome = true)) ∧
    (l.isAddressable = true ↔ ∀ c, c.inside l.size = true → (l.offset? c).isSome = true) ∧
    (∀ c i, l.offset? c = some i → i < l.bufferSize) ∧
    (∀ c c' i, l.offset? c = some i → l.offset? c' = some i → c = c') ∧
    ∀ c, c.inside l.size = false → l.offset? c = none := by
  refine ⟨fun c c' hc hc' => ?_, isAddressable_iff_forall, fun c i => offset?_lt,
    fun c c' i => offset?_inj, fun c hc => ?_⟩
  · rw [isSome_offset?, isSome_offset?, hc, hc']
  · rw [← Option.isNone_iff_eq_none, ← Option.not_isSome, isSome_offset?, hc]
    rfl

end Layout

/-! ## Tensors with a value for each position -/

namespace HostTensor

variable {t : HostTensor} {s : Shape} {c : Coord}

theorem index_lt (h : c.inside s = true) : index s c < s.count := by
  have hcount : s.count = s.batch * s.feature * s.y * s.x := Nat.mul_right_comm ..
  rw [Coord.inside_iff] at h
  rw [hcount]
  exact digits_lt (digits_lt (digits_lt (h .batch) (h .feature)) (h .y)) (h .x)

theorem exists_get_iff : (∃ v, t.get c = .ok v) ↔ index t.size c < t.values.size := by
  simp only [get_eq_ok_iff, Array.getElem?_eq_some_iff]
  exact ⟨fun ⟨_, h, _⟩ => h, fun h => ⟨_, h, rfl⟩⟩

/-- A full tensor has a value for each position. -/
theorem Full.exists_get (ht : t.Full) (hc : c.inside t.size = true) : ∃ v, t.get c = .ok v :=
  exists_get_iff.mpr (ht ▸ index_lt hc)

end HostTensor

/-! ## Packing and unpacking succeed -/

section Packing

variable {l : Layout} {t : HostTensor}

theorem exists_readAt {raw : Array Single} {o : Option Nat} :
    (∃ v, readAt raw o = .ok v) ↔ ∃ i, o = some i ∧ i < raw.size := by
  simp only [readAt_eq_ok_iff, Array.getElem?_eq_some_iff]
  exact ⟨fun ⟨_, i, ho, hi, _⟩ => ⟨i, ho, hi⟩, fun ⟨i, ho, hi⟩ => ⟨_, i, ho, hi, rfl⟩⟩

/-- A buffer of the right size can be unpacked from an addressable layout. -/
theorem exists_unpack {b : Buffer} (hl : l.isAddressable = true)
    (hb : b.size = l.bufferSize) : ∃ t, unpack l b = .ok t := by
  have hread : ∀ c ∈ Coord.all l.size, ∃ v, readAt b.toSingles (l.offset? c) = .ok v := by
    intro c hc
    obtain ⟨i, hi⟩ := Option.isSome_iff_exists.mp
      (Layout.isAddressable_iff_forall.mp hl c (Coord.mem_all.mp hc))
    refine exists_readAt.mpr ⟨i, hi, ?_⟩
    rw [Buffer.size_toSingles, hb]
    exact Layout.offset?_lt hi
  obtain ⟨values, hvalues⟩ := exists_mapM_iff.mpr hread
  exact ⟨⟨l.size, values.toArray⟩, unpack_eq_ok_iff.mpr ⟨hb, Layout.unplaced?_eq_none_iff.mpr hl,
    rfl, mapM_eq_ok_iff.mp hvalues⟩⟩

/-- **A full tensor can be packed** into every layout of its shape that has places. -/
theorem exists_pack (hl : l.isAddressable = true) (hsize : t.size = l.size) (ht : t.Full) :
    ∃ b, pack t l = .ok b := by
  obtain ⟨raw, hraw, -⟩ := exists_foldlM (f := fun raw c => do
      writeAt raw (l.offset? c) (← t.get c))
    (fun raw => raw.size = l.bufferSize) (Coord.all l.size)
    (fun c hc raw hraw => by
      have hc := Coord.mem_all.mp hc
      obtain ⟨v, hv⟩ := ht.exists_get (hsize ▸ hc)
      obtain ⟨i, hi⟩ := Option.isSome_iff_exists.mp (Layout.isAddressable_iff_forall.mp hl c hc)
      have hlt : i < raw.size := hraw ▸ Layout.offset?_lt hi
      exact ⟨raw.set i v hlt, bind_eq_ok_iff.mpr
        ⟨v, hv, writeAt_eq_ok_iff.mpr ⟨i, hlt, hi, rfl⟩⟩, (Array.size_set hlt).trans hraw⟩)
    (Array.size_replicate (v := Single.zero))
  exact ⟨_, pack_eq_ok_iff.mpr ⟨hsize, Layout.unplaced?_eq_none_iff.mpr hl, raw, hraw, rfl⟩⟩

/-- **Packing and unpacking.**  The buffer has the values of the tensor at their places and zero
everywhere else, all converted to the element type; read back, it gives the tensor with every value
converted and back. -/
theorem pack_places (hl : l.isAddressable = true) (hsize : t.size = l.size)
    (ht : t.values.size = l.count) :
    ∃ b raw, pack t l = .ok b ∧ b = Buffer.ofSingles l.element raw ∧
      b.element = l.element ∧ b.size = l.bufferSize ∧
      (∀ c i, l.offset? c = some i → ∃ v, t.get c = .ok v ∧ raw[i]? = some v) ∧
      (∀ i < l.bufferSize, (∀ c, l.offset? c ≠ some i) → raw[i]? = some Single.zero) ∧
      unpack l b = .ok (t.cast l.element) ∧
      (l.element = .f32 → unpack l b = .ok t) := by
  have hfull : t.Full := ht.trans (congrArg Shape.count hsize.symm)
  obtain ⟨b, hpack⟩ := exists_pack hl hsize hfull
  obtain ⟨hbuffer, helement, -⟩ := pack_size hpack
  obtain ⟨-, -, raw, hraw, hb⟩ := pack_eq_ok_iff.mp hpack
  obtain ⟨-, hin, hout⟩ := placed_spec hraw
  have hback := unpack_pack hpack hfull
  refine ⟨b, raw, hpack, hb, helement, hbuffer, fun c i ho => ?_, fun i hi hfree => ?_, hback,
    fun hf32 => ?_⟩
  · obtain ⟨j, v, ho', hv, hat⟩ := hin c (Coord.mem_all.mpr (Layout.inside_of_offset? ho))
    cases ho.symm.trans ho'
    exact ⟨v, hv, hat⟩
  · rw [hout i fun c _ => hfree c, Array.getElem?_replicate, if_pos hi]
  · rw [hback, hf32, HostTensor.cast_f32]

end Packing

end NetPlan
