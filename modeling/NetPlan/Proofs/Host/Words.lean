import Mathlib.Algebra.BigOperators.Ring.List
import NetPlan.Proofs.Host.Addressing

/-!
# Proofs/Host/Words — layouts and buffers in machine words

Where the number of elements and the size of the buffer are words, so is everything that is computed
on the way to a place (`place?_eq`): the partial sums of a place are below the place, and partial
products below the size of the buffer.  What holds of places and buffers then holds in words too:

* `place?_places` — the places of a layout are all there or none, lie in the buffer and apart;
* `pack?_places` — tensors can be packed and unpacked, if there can be arrays as long as the buffer.

Neither holds of every layout (`place?_overflows`, `pack?_overflows`).
-/

namespace NetPlan

open Machine

/-! ## Sizes -/

namespace Shape

variable {s t u : Shape} {n : Nat}

theorem count?_eq_some (h : s.count? = some n) : s.count = n ∧ n < range := by
  simp only [count?, bind, Option.bind_eq_some_iff, mul?_eq_some] at h
  obtain ⟨_, ⟨-, rfl⟩, _, ⟨-, rfl⟩, hlt, rfl⟩ := h
  exact ⟨rfl, hlt⟩

theorem add?_eq_some (h : s.add? t = some u) : u = s.add t := by
  simp only [add?, bind, Option.bind_eq_some_iff, Machine.add?_eq_some, pure, Option.some.injEq] at h
  obtain ⟨_, ⟨-, rfl⟩, _, ⟨-, rfl⟩, _, ⟨-, rfl⟩, _, ⟨-, rfl⟩, rfl⟩ := h
  rfl

end Shape

namespace Layout

variable {l : Layout} {c : Coord} {order : List Axis} {n block size : Nat}

theorem blockUp?_eq_some :
    blockUp? n block = some size ↔ blockUp n block < range ∧ blockUp n block = size := mul?_eq_some

theorem paddedSize?_eq_some {s : Shape} (h : l.paddedSize? = some s) : l.paddedSize = s := by
  simp only [paddedSize?, bind, Option.bind_eq_some_iff] at h
  obtain ⟨t, ht, hs⟩ := h
  rw [Shape.add?_eq_some hs, Shape.add?_eq_some ht]
  rfl

/-- **A buffer size in words** is the size of the buffer. -/
theorem bufferSize?_eq_some (h : l.bufferSize? = some size) : l.bufferSize = size ∧ size < range := by
  obtain ⟨element, format, s, padding⟩ := l
  cases format
  case osIyxOsv16 | bsXBsv16 | osIOsv16 =>
    simp only [bufferSize?, bind, Option.bind_eq_some_iff, mul?_eq_some, blockUp?_eq_some] at h
    obtain ⟨_, ⟨-, rfl⟩, _, ⟨-, rfl⟩, _, ⟨-, rfl⟩, hlt, rfl⟩ := h
    exact ⟨rfl, hlt⟩
  case bsXsXsv8Bsv8 | osIsv8Osv8 =>
    simp only [bufferSize?, bind, Option.bind_eq_some_iff, mul?_eq_some, blockUp?_eq_some] at h
    obtain ⟨_, ⟨-, rfl⟩, _, ⟨-, rfl⟩, _, ⟨-, rfl⟩, _, ⟨-, rfl⟩, hlt, rfl⟩ := h
    exact ⟨rfl, hlt⟩
  case bf8Xy16 =>
    simp only [bufferSize?, bind, Option.bind_eq_some_iff, mul?_eq_some, blockUp?_eq_some] at h
    obtain ⟨_, ⟨-, rfl⟩, _, ⟨-, rfl⟩, _, ⟨-, rfl⟩, _, ⟨-, rfl⟩, hlt, rfl⟩ := h
    exact ⟨rfl, hlt⟩
  case iyXsOsXsv2Osv16Ao32 | iyXsOsXsv2Osv8Ao32 =>
    simp only [bufferSize?, bind, Option.bind_eq_some_iff, mul?_eq_some, blockUp?_eq_some] at h
    obtain ⟨_, ⟨-, rfl⟩, _, ⟨-, rfl⟩, _, ⟨-, rfl⟩, _, ⟨-, rfl⟩, hlt, rfl⟩ := h
    exact ⟨rfl, hlt⟩
  all_goals
    obtain ⟨padded, hpadded, h⟩ := Option.bind_eq_some_iff.mp h
    obtain rfl := paddedSize?_eq_some hpadded
    exact Shape.count?_eq_some h

/-- The padded axes of a plain format are words. -/
theorem paddedSize?_of_order (h : l.bufferSize? = some size) (horder : l.format.order? = some order) :
    l.paddedSize? = some l.paddedSize := by
  have hpadded : ∃ s, l.paddedSize? = some s ∧ s.count? = some size := by
    obtain ⟨element, format, s, padding⟩ := l
    cases format <;> cases horder <;> exact Option.bind_eq_some_iff.mp h
  obtain ⟨s, hs, -⟩ := hpadded
  rw [hs, paddedSize?_eq_some hs]

/-! ## Places -/

/-- Digits of a number that is a word are put together in words. -/
theorem foldlM_digits {α : Type} {radix : α → Nat} {d d₁ d₂ : α → Nat} : ∀ {axes : List α}
    {start : Nat} (bound : Nat), (∀ a ∈ axes, d₁ a + d₂ a = d a ∧ d a < radix a) → start < bound →
    bound * (axes.map radix).prod ≤ range →
    axes.foldlM (fun offset a => do
      let before ← mul? offset (radix a)
      add? before (← add? (d₁ a) (d₂ a))) start = some (digits radix d axes start)
  | [], start, bound, _, _, _ => rfl
  | a :: axes, start, bound, hd, hstart, hbound => by
      obtain ⟨⟨hsum, hlt⟩, hrest⟩ := List.forall_mem_cons.mp hd
      have hnext := digits_lt hstart hlt
      rw [List.map_cons, List.prod_cons, ← Nat.mul_assoc] at hbound
      have hpos : 0 < (axes.map radix).prod := Nat.pos_of_ne_zero <| List.prod_ne_zero fun hzero => by
        obtain ⟨b, hb, hradix⟩ := List.mem_map.mp hzero
        exact absurd (hrest b hb).2 (hradix ▸ Nat.not_lt_zero _)
      have hword : start * radix a + d a < range :=
        hnext.trans_le ((Nat.le_mul_of_pos_right _ hpos).trans hbound)
      have hdigit : add? (d₁ a) (d₂ a) = some (d a) := hsum ▸ add?_of_lt (by omega)
      have hstep : (do
          let before ← mul? start (radix a)
          add? before (← add? (d₁ a) (d₂ a))) = some (start * radix a + d a) := by
        rw [mul?_of_lt (by omega), hdigit]
        exact add?_of_lt hword
      rw [List.foldlM_cons, hstep]
      exact foldlM_digits _ hrest hnext hbound

/-- **A place in a plain format** is found in words. -/
theorem plainOffset?_eq (h : l.bufferSize? = some size) (horder : l.format.order? = some order)
    (hc : c.inside l.size = true) : l.plainOffset? order c = some (l.plainOffset order c) := by
  obtain ⟨hsize, hlt⟩ := bufferSize?_eq_some h
  rw [plainOffset?, paddedSize?_of_order h horder, plainOffset_eq]
  refine foldlM_digits 1 (fun a _ => ⟨rfl, padded_get_lt hc a⟩) Nat.one_pos ?_
  rw [Nat.one_mul, (prod_order horder _).1, ← bufferSize_of_order horder, hsize]
  exact hlt.le

theorem le_blockUp (h : 0 < block) : n ≤ blockUp n block := by
  have hmod := Nat.div_add_mod (n + (block - 1)) block
  have hlt := Nat.mod_lt (n + (block - 1)) h
  rw [blockUp, Nat.mul_comm]
  omega

/-- **A batch is no longer than the buffer** of a blocked format, if there is any. -/
theorem flatSize_le (hformat : l.format.order? = none) (hb : 0 < l.size.batch) :
    l.flatSize ≤ l.bufferSize := by
  obtain ⟨element, format, s, padding⟩ := l
  have hcomm : s.feature * s.y * s.x = s.feature * s.x * s.y := Nat.mul_right_comm ..
  have hblock : ∀ block, 0 < block → 0 < blockUp s.batch block := fun block hblock =>
    hb.trans_le (le_blockUp hblock)
  rw [flatSize, hcomm]
  cases format <;> try cases hformat
  case osIyxOsv16 | bsXBsv16 | osIOsv16 =>
    exact Nat.mul_le_mul_right _ (Nat.mul_le_mul_right _
      (Nat.le_mul_of_pos_left _ (hblock 16 (by decide))))
  case bsXsXsv8Bsv8 | osIsv8Osv8 =>
    exact (le_blockUp (by decide)).trans (Nat.le_mul_of_pos_left _ (hblock _ (by decide)))
  case bf8Xy16 =>
    rw [Nat.mul_assoc]
    exact Nat.mul_le_mul ((le_blockUp (by decide)).trans (Nat.le_mul_of_pos_left _ hb))
      (le_blockUp (by decide))
  case iyXsOsXsv2Osv16Ao32 | iyXsOsXsv2Osv8Ao32 =>
    exact Nat.mul_le_mul_right _ (Nat.mul_le_mul (Nat.le_mul_of_pos_left _ (hblock _ (by decide)))
      (le_blockUp (by decide)))

/-- **A place in a blocked format** is found in words. -/
theorem blockedPlace?_eq (h : l.bufferSize? = some size) (hformat : l.format.order? = none)
    (hc : c.inside l.size = true) : l.blockedPlace? c = some (l.blockedOffset? c) := by
  obtain ⟨hsize, hlt⟩ := bufferSize?_eq_some h
  have hin := Coord.inside_iff.mp hc
  have hb : c.b < l.size.batch := hin .batch
  have hwords : l.flatSize < range :=
    ((flatSize_le hformat (Nat.zero_lt_of_lt hb)).trans hsize.le).trans_lt hlt
  have hflat : (c.f * l.size.y + c.y) * l.size.x + c.x < l.size.feature * l.size.y * l.size.x :=
    Coord.flat_lt hc
  have hrow : c.f * l.size.y + c.y < l.size.feature * l.size.y := digits_lt (hin .feature) (hin .y)
  have hplane : l.size.feature * l.size.y ≤ l.size.feature * l.size.y * l.size.x :=
    Nat.le_mul_of_pos_right _ (Nat.zero_lt_of_lt (hin .x))
  rw [flatSize] at hwords
  have hplace : ∀ i, l.blockedOffset? c = some i → i < range := fun i hi =>
    ((blockedOffset?_lt hc hi).trans_le hsize.le).trans hlt
  unfold blockedPlace?
  dsimp only
  rw [mul?_of_lt (by omega), Option.bind_eq_bind, Option.bind_some, add?_of_lt (by omega),
    Option.bind_some, mul?_of_lt (by omega), Option.bind_some, add?_of_lt (by omega),
    Option.bind_some, mul?_of_lt (by omega), Option.bind_some, mul?_of_lt hwords, Option.bind_some]
  obtain ⟨element, format, s, padding⟩ := l
  cases format <;> try cases hformat
  case osIyxOsv16 | bsXBsv16 | osIOsv16 =>
    have hlast := hplace _ rfl
    dsimp only at hlast ⊢
    rw [mul?_of_lt (by omega), Option.bind_some, add?_of_lt (by omega), Option.bind_some,
      mul?_of_lt (by omega), Option.bind_some, add?_of_lt hlast]
    rfl
  case bsXsXsv8Bsv8 | osIsv8Osv8 =>
    have hlast := hplace _ rfl
    have hcomm : s.feature * s.y * s.x = s.feature * s.x * s.y := Nat.mul_right_comm ..
    have hbatches : 0 < blockUp s.batch 8 := (Nat.zero_lt_of_lt hb).trans_le (le_blockUp (by decide))
    have hblocks : blockUp (s.feature * s.y * s.x) 8 < range := by
      rw [hcomm]
      exact ((Nat.le_mul_of_pos_left _ hbatches).trans hsize.le).trans_lt hlt
    dsimp only at hlast ⊢
    rw [blockUp?_eq_some.mpr ⟨hblocks, rfl⟩, Option.bind_some, mul?_of_lt (by omega),
      Option.bind_some, add?_of_lt (by omega), Option.bind_some, mul?_of_lt (by omega),
      Option.bind_some, add?_of_lt (by omega), Option.bind_some, mul?_of_lt (by omega),
      Option.bind_some, add?_of_lt hlast]
    rfl
  all_goals rfl

/-- **Places are found in words** where the buffer has a size. -/
theorem place?_eq (h : l.bufferSize? = some size) (c : Coord) : l.place? c = some (l.offset? c) := by
  unfold place? offset?
  cases hc : c.inside l.size with
  | false => rfl
  | true =>
    simp only [Bool.not_true, Bool.false_eq_true, if_false]
    cases horder : l.format.order? with
    | some order =>
      dsimp only
      rw [plainOffset?_eq h horder hc, Option.map_some]
    | none =>
      dsimp only
      rw [blockedPlace?_eq h horder hc]
      split <;> rfl

theorem addressable?_eq {count : Nat} (h : l.bufferSize? = some size)
    (hcount : l.count? = some count) : l.addressable? = some l.isAddressable := by
  rw [addressable?, hcount, place?_eq h, isAddressable,
    show l.count = count from (Shape.count?_eq_some hcount).1]
  by_cases hzero : count = 0 <;> simp [hzero]

/-- **The places of a layout** of so many elements and a buffer of some size, both in words, are known
of all elements or of none; each lies in the buffer, no two elements share one, and what is no element
has none. -/
theorem place?_places {count : Nat} (hcount : l.count? = some count)
    (hsize : l.bufferSize? = some size) :
    (∀ c, ∃ place, l.place? c = some place) ∧
    (∀ c c', c.inside l.size = true → c'.inside l.size = true →
      ((∃ i, l.place? c = some (some i)) ↔ ∃ i, l.place? c' = some (some i))) ∧
    (l.addressable? = some true ↔
      ∀ c, c.inside l.size = true → ∃ i, l.place? c = some (some i)) ∧
    (∀ c i, l.place? c = some (some i) → i < size) ∧
    (∀ c c' i, l.place? c = some (some i) → l.place? c' = some (some i) → c = c') ∧
    ∀ c, c.inside l.size = false → l.place? c = some none := by
  obtain ⟨hsame, haddressable, hlt, hinj, houtside⟩ := l.offset?_places
  simp only [place?_eq hsize, addressable?_eq hsize hcount, Option.some.injEq,
    ← Option.isSome_iff_exists, exists_eq', implies_true, true_and]
  exact ⟨hsame, haddressable, fun c i hi => (bufferSize?_eq_some hsize).1 ▸ hlt c i hi, hinj,
    houtside⟩

/-- A block of eight output features by eight others, and another one of each. -/
theorem place?_places_blocked : (dense .f32 .osIsv8Osv8 ⟨9, 3, 1, 3⟩).count? = some 81 ∧
    (dense .f32 .osIsv8Osv8 ⟨9, 3, 1, 3⟩).bufferSize? = some 256 ∧
    (dense .f32 .osIsv8Osv8 ⟨9, 3, 1, 3⟩).place? ⟨8, 2, 0, 2⟩ = some (some 192) ∧ 192 < 256 ∧
    ∀ c, (dense .f32 .osIsv8Osv8 ⟨9, 3, 1, 3⟩).place? c = some (some 192) → c = ⟨8, 2, 0, 2⟩ := by
  have hat : (dense .f32 .osIsv8Osv8 ⟨9, 3, 1, 3⟩).place? ⟨8, 2, 0, 2⟩ = some (some 192) := by
    decide
  have hcount : (dense .f32 .osIsv8Osv8 ⟨9, 3, 1, 3⟩).count? = some 81 := by decide
  have hsize : (dense .f32 .osIsv8Osv8 ⟨9, 3, 1, 3⟩).bufferSize? = some 256 := by decide
  obtain ⟨-, -, -, hlt, hinj, -⟩ := place?_places hcount hsize
  exact ⟨hcount, hsize, hat, hlt _ _ hat, fun c hc => hinj _ _ _ hc hat⟩

/-- **Not every layout tells whether it has places**: here, where there are no elements at all, as
many batches of as many features are no word. -/
theorem place?_overflows :
    (dense .f32 .bfyx ⟨2 ^ 33, 2 ^ 33, 1, 0⟩).addressable? = none ∧
    (dense .f32 .bfyx ⟨2 ^ 33, 2 ^ 33, 1, 0⟩).bufferSize? = none ∧
    ∀ c : Coord, c.inside ⟨2 ^ 33, 2 ^ 33, 1, 0⟩ = false :=
  ⟨by decide, by decide, fun c => by simp [Coord.inside]⟩

end Layout

/-! ## Packing -/

section Packing

variable {l : Layout} {t : HostTensor} {size : Nat}

/-- **Packing and unpacking in words.**  The buffer has the values of the tensor at their places and
zero everywhere else, all converted to the element type; read back, it gives the tensor with every
value converted and back.  There have to be arrays as long as the buffer. -/
theorem pack?_places (hl : l.addressable? = some true) (hsize : t.size = l.size)
    (ht : l.count? = some t.values.size) (hbuffer : l.bufferSize? = some size)
    (harray : canHold size 4 = true) :
    ∃ b raw, pack? t l = some (.ok b) ∧ b = Buffer.ofSingles l.element raw ∧
      b.element = l.element ∧ b.size = size ∧
      (∀ c i, l.place? c = some (some i) → ∃ v, t.get c = .ok v ∧ raw[i]? = some v) ∧
      (∀ i < size, (∀ c, l.place? c ≠ some (some i)) → raw[i]? = some Single.zero) ∧
      unpack? l b = some (.ok (t.cast l.element)) ∧
      (l.element = .f32 → unpack? l b = some (.ok t)) := by
  have hplaces : l.isAddressable = true :=
    Option.some.inj ((Layout.addressable?_eq hbuffer ht).symm.trans hl)
  have hfull : t.values.size = l.count := (Shape.count?_eq_some ht).1.symm
  obtain ⟨b, raw, hpack, hb, helement, hsame, hin, hout, hback, hf32⟩ :=
    pack_places hplaces hsize hfull
  rw [(Layout.bufferSize?_eq_some hbuffer).1] at hsame hout
  have hpack? : pack? t l = some (pack t l) := by
    rw [pack?, if_pos hsize, hbuffer, Option.bind_eq_bind, Option.bind_some, harray]
    rfl
  have hunpack? : unpack? l b = some (unpack l b) := by
    rw [unpack?, hbuffer, Option.bind_eq_bind, Option.bind_some, if_pos hsame, harray, ht]
    rfl
  simp only [Layout.place?_eq hbuffer, Option.some.injEq, ne_eq]
  exact ⟨b, raw, hpack?.trans (congrArg some hpack), hb, helement, hsame, hin, hout,
    hunpack?.trans (congrArg some hback), fun h => hunpack?.trans (congrArg some (hf32 h))⟩

/-- A quarter and 300 as signed bytes, 0 and 127, in a block of 16. -/
theorem pack?_places_bytes :
    ∃ b raw, pack? ⟨⟨2, 1, 1, 1⟩, #[⟨0x3e800000⟩, ⟨0x43960000⟩]⟩
        (.dense .i8 .osIyxOsv16 ⟨2, 1, 1, 1⟩) = some (.ok b) ∧ b = Buffer.ofSingles .i8 raw ∧
      b.size = 16 ∧ raw[1]? = some ⟨0x43960000⟩ ∧ raw[2]? = some Single.zero ∧
      unpack? (.dense .i8 .osIyxOsv16 ⟨2, 1, 1, 1⟩) b
        = some (.ok ⟨⟨2, 1, 1, 1⟩, #[Single.zero, ⟨0x42fe0000⟩]⟩) := by
  have hbuffer : (Layout.dense .i8 .osIyxOsv16 ⟨2, 1, 1, 1⟩).bufferSize? = some 16 := by decide
  obtain ⟨b, raw, hpack, hb, -, hsize, hin, hout, hback, -⟩ :=
    pack?_places (l := .dense .i8 .osIyxOsv16 ⟨2, 1, 1, 1⟩)
      (t := ⟨⟨2, 1, 1, 1⟩, #[⟨0x3e800000⟩, ⟨0x43960000⟩]⟩) (by decide) rfl (by decide) hbuffer
      (by decide)
  obtain ⟨v, hv, hat⟩ := hin ⟨1, 0, 0, 0⟩ 1 (by decide)
  cases hv
  have hfree : ∀ c ∈ Coord.all ⟨2, 1, 1, 1⟩,
      (Layout.dense .i8 .osIyxOsv16 ⟨2, 1, 1, 1⟩).offset? c ≠ some 2 := by decide
  refine ⟨b, raw, hpack, hb, hsize, hat, hout 2 (by decide) fun c hc => ?_, hback.trans ?_⟩
  · rw [Layout.place?_eq hbuffer, Option.some.injEq] at hc
    exact hfree c (Coord.mem_all.mpr (Layout.inside_of_offset? hc)) hc
  · exact congrArg (fun t => some (Except.ok t)) (by decide +kernel)

/-- **Not every tensor can be packed**: one without elements, into a layout with so much padding
around them that the size of the buffer is no word. -/
theorem pack?_overflows :
    (Layout.mk .f32 .bfyx ⟨1, 1, 0, 1⟩ ⟨⟨2 ^ 33 - 1, 2 ^ 33 - 1, 0, 0⟩, Shape.zero⟩).addressable?
      = some true ∧
    (Layout.mk .f32 .bfyx ⟨1, 1, 0, 1⟩ ⟨⟨2 ^ 33 - 1, 2 ^ 33 - 1, 0, 0⟩, Shape.zero⟩).count?
      = some 0 ∧
    pack? ⟨⟨1, 1, 0, 1⟩, #[]⟩
      (Layout.mk .f32 .bfyx ⟨1, 1, 0, 1⟩ ⟨⟨2 ^ 33 - 1, 2 ^ 33 - 1, 0, 0⟩, Shape.zero⟩) = none :=
  ⟨by decide, by decide, by decide⟩

end Packing

end NetPlan
