import Mathlib.Data.List.Forall2
import Mathlib.Tactic.Ring
import NetPlan.Host.Tensor
import NetPlan.Proofs.Host.Conversion
import NetPlan.Proofs.Layout.Fresh

/-!
# Proofs/Host/Placement — tensors in buffers

A layout places every element of a tensor inside the buffer (`offset?_lt`) and no two at the same
place (`offset?_inj`): in a plain format the offset is a number with one digit per axis, in a blocked
one a number with a digit per block and a digit inside.  So what is packed can be unpacked again:

* `unpack_pack` — up to the rounding to the element type;
* `pack_of_cast` — and a tensor that has been rounded to it is packed as it was before.
-/

namespace NetPlan

/-! ## Numbers by their digits -/

section Digits

variable {m n i i' j j' : Nat}

/-- Two digits make a number below the product. -/
theorem digits_lt (hi : i < m) (hj : j < n) : i * n + j < m * n :=
  calc i * n + j < i * n + n := Nat.add_lt_add_left hj _
    _ = (i + 1) * n := (Nat.succ_mul i n).symm
    _ ≤ m * n := Nat.mul_le_mul_right n hi

/-- A number has one pair of digits. -/
theorem digits_inj (hj : j < n) (hj' : j' < n) (h : i * n + j = i' * n + j') : i = i' ∧ j = j' := by
  have hpos : 0 < n := Nat.zero_lt_of_lt hj
  have hdiv : (i * n + j) / n = (i' * n + j') / n := congrArg (· / n) h
  rw [Nat.mul_comm i, Nat.mul_comm i', Nat.mul_add_div hpos, Nat.mul_add_div hpos,
    Nat.div_eq_of_lt hj, Nat.div_eq_of_lt hj', Nat.add_zero, Nat.add_zero] at hdiv
  subst hdiv
  exact ⟨rfl, Nat.add_left_cancel h⟩

variable {α : Type} {radix d d' : α → Nat}

/-- A number with one digit per element of a list, outermost first. -/
def digits (radix d : α → Nat) (axes : List α) (start : Nat) : Nat :=
  axes.foldl (fun offset a => offset * radix a + d a) start

/-- Digits of several radices make a number below their product. -/
theorem digits_list_lt : ∀ {axes : List α} {start bound : Nat}, (∀ a ∈ axes, d a < radix a) →
    start < bound → digits radix d axes start < bound * (axes.map radix).prod
  | [], start, bound, _, h => by
      rw [List.map_nil, List.prod_nil, Nat.mul_one]
      exact h
  | a :: axes, start, bound, hd, h => by
      rw [List.map_cons, List.prod_cons, ← Nat.mul_assoc]
      exact digits_list_lt (fun b hb => hd b (List.mem_cons_of_mem a hb))
        (digits_lt h (hd a List.mem_cons_self))

/-- A number has one list of digits. -/
theorem digits_list_inj : ∀ {axes : List α} {start start' : Nat}, (∀ a ∈ axes, d a < radix a) →
    (∀ a ∈ axes, d' a < radix a) → digits radix d axes start = digits radix d' axes start' →
    start = start' ∧ ∀ a ∈ axes, d a = d' a
  | [], _, _, _, _, h => ⟨h, fun _ ha => nomatch ha⟩
  | a :: axes, start, start', hd, hd', h => by
      obtain ⟨hstart, hrest⟩ := digits_list_inj (fun b hb => hd b (List.mem_cons_of_mem a hb))
        (fun b hb => hd' b (List.mem_cons_of_mem a hb)) h
      obtain ⟨hs, ha⟩ := digits_inj (hd a List.mem_cons_self) (hd' a List.mem_cons_self) hstart
      refine ⟨hs, fun b hb => ?_⟩
      rcases List.mem_cons.mp hb with rfl | hb
      · exact ha
      · exact hrest b hb

end Digits

/-! ## Offsets -/

namespace Coord

variable {c c' : Coord} {s : Shape}

/-- A coordinate is inside if it is along every axis. -/
theorem inside_iff : c.inside s = true ↔ ∀ a, c.get a < s.get a := by
  simp only [inside, Bool.and_eq_true, decide_eq_true_eq]
  constructor
  · rintro ⟨⟨⟨hb, hf⟩, hx⟩, hy⟩ a
    cases a <;> assumption
  · exact fun h => ⟨⟨⟨h .batch, h .feature⟩, h .x⟩, h .y⟩

/-- Coordinates that agree along every axis. -/
theorem ext_get (h : ∀ a, c.get a = c'.get a) : c = c' := by
  cases c
  cases c'
  exact Coord.mk.injEq .. ▸ ⟨h .batch, h .feature, h .x, h .y⟩

/-- The place of a position in its batch. -/
def flat (s : Shape) (c : Coord) : Nat := (c.f * s.y + c.y) * s.x + c.x

/-- The rest of a coordinate is a number below the rest of the size. -/
theorem flat_lt (h : c.inside s = true) : c.flat s < s.feature * s.y * s.x := by
  rw [inside_iff] at h
  exact digits_lt (digits_lt (h .feature) (h .y)) (h .x)

/-- Coordinates of one batch with the same rest. -/
theorem ext_flat (h : c.inside s = true) (h' : c'.inside s = true) (hb : c.b = c'.b)
    (hflat : c.flat s = c'.flat s) : c = c' := by
  rw [inside_iff] at h h'
  obtain ⟨hfy, hx⟩ := digits_inj (h .x) (h' .x) hflat
  obtain ⟨hf, hy⟩ := digits_inj (h .y) (h' .y) hfy
  refine ext_get fun a => ?_
  cases a <;> assumption

end Coord

namespace Layout

variable {l : Layout} {c c' : Coord} {i : Nat} {order : List Axis}

theorem plainOffset_eq (l : Layout) (order : List Axis) (c : Coord) :
    l.plainOffset order c
      = digits l.paddedSize.get (fun a => c.get a + l.padding.lower.get a) order 0 := rfl

/-- With the padding in front a coordinate is inside the padded size. -/
theorem padded_get_lt (h : c.inside l.size = true) (a : Axis) :
    c.get a + l.padding.lower.get a < l.paddedSize.get a := by
  have hlt := Coord.inside_iff.mp h a
  cases a <;> exact Nat.lt_of_lt_of_le (Nat.add_lt_add_right hlt _) (Nat.le_add_right _ _)

/-- The formats without blocks have every axis once. -/
theorem prod_order (h : l.format.order? = some order) (s : Shape) :
    (order.map s.get).prod = s.count ∧ ∀ a, a ∈ order := by
  unfold Format.order? at h
  split at h <;> cases h <;> constructor
  any_goals
    simp only [List.map_cons, List.map_nil, List.prod_cons, List.prod_nil, Shape.get, Shape.count]
    ring
  all_goals
    intro a
    cases a <;> decide

/-- Without blocks a buffer has a place for every padded element. -/
theorem bufferSize_of_order (h : l.format.order? = some order) :
    l.bufferSize = l.paddedSize.count := by
  unfold Format.order? at h
  rw [bufferSize]
  cases hf : l.format <;> rw [hf] at h <;> first | rfl | cases h

/-- Number of elements in a batch. -/
def flatSize (l : Layout) : Nat := l.size.feature * l.size.y * l.size.x

/-- Number of blocks that hold a number of elements. -/
def blocks (n block : Nat) : Nat := (n + (block - 1)) / block

/-- Every index is in one of the blocks. -/
theorem div_lt_blocks {n k block : Nat} (hb : 0 < block) (h : k < n) :
    k / block < blocks n block := by
  have hmod := Nat.div_add_mod (n + (block - 1)) block
  have hlt := Nat.mod_lt (n + (block - 1)) hb
  exact Nat.div_lt_of_lt_mul (Nat.lt_of_lt_of_le h (by rw [blocks]; omega))

/-- **Two ways to block**: the batch, or the batch and the rest. -/
theorem blockedOffset?_cases (h : l.blockedOffset? c = some i) :
    ((∀ c, l.blockedOffset? c
        = some ((c.b / 16 * l.flatSize + c.flat l.size) * 16 + c.b % 16)) ∧
      l.bufferSize = blocks l.size.batch 16 * l.flatSize * 16) ∨
    ((∀ c, l.blockedOffset? c = some (((c.b / 8 * blocks l.flatSize 8 + c.flat l.size / 8) * 8
        + c.flat l.size % 8) * 8 + c.b % 8)) ∧
      l.bufferSize = blocks l.size.batch 8 * blocks l.flatSize 8 * 8 * 8) := by
  have hcomm : l.size.feature * l.size.x * l.size.y = l.flatSize := Nat.mul_right_comm ..
  have hblocks : blockUp l.flatSize 8 / 8 = blocks l.flatSize 8 := Nat.mul_div_cancel _ (by decide)
  cases hf : l.format <;> simp only [blockedOffset?, hf] at h
  case osIyxOsv16 | bsXBsv16 | osIOsv16 =>
    refine Or.inl ⟨fun c => by simp only [blockedOffset?, hf]; rfl, ?_⟩
    simp only [bufferSize, hf]
    change blocks l.size.batch 16 * 16 * _ * _ * _ = _
    rw [← hcomm]
    ring
  case bsXsXsv8Bsv8 | osIsv8Osv8 =>
    refine Or.inr ⟨fun c => ?_, ?_⟩
    · simp only [blockedOffset?, hf]
      exact congrArg (fun k => some (((c.b / 8 * k + c.flat l.size / 8) * 8
        + c.flat l.size % 8) * 8 + c.b % 8)) hblocks
    · simp only [bufferSize, hf, hcomm]
      change blocks l.size.batch 8 * 8 * (blocks l.flatSize 8 * 8) = _
      ring
  all_goals cases h

/-- Places in blocks are inside the buffer. -/
theorem blockedOffset?_lt (hc : c.inside l.size = true) (h : l.blockedOffset? c = some i) :
    i < l.bufferSize := by
  have hb : c.b < l.size.batch := Coord.inside_iff.mp hc .batch
  have hflat : c.flat l.size < l.flatSize := Coord.flat_lt hc
  rcases blockedOffset?_cases h with ⟨hat, hsize⟩ | ⟨hat, hsize⟩
  · rw [hat] at h
    cases h
    rw [hsize]
    exact digits_lt (digits_lt (div_lt_blocks (by decide) hb) hflat) (Nat.mod_lt _ (by decide))
  · rw [hat] at h
    cases h
    rw [hsize]
    exact digits_lt (digits_lt (digits_lt (div_lt_blocks (by decide) hb)
      (div_lt_blocks (by decide) hflat)) (Nat.mod_lt _ (by decide))) (Nat.mod_lt _ (by decide))

/-- A number is told by block and rest. -/
theorem eq_of_div_mod {k m n : Nat} (hd : m / k = n / k) (hm : m % k = n % k) : m = n := by
  rw [← Nat.div_add_mod m k, ← Nat.div_add_mod n k, hd, hm]

/-- Places in blocks are told apart. -/
theorem blockedOffset?_inj (hc : c.inside l.size = true) (hc' : c'.inside l.size = true)
    (h : l.blockedOffset? c = some i) (h' : l.blockedOffset? c' = some i) : c = c' := by
  have hflat : c.flat l.size < l.flatSize := Coord.flat_lt hc
  have hflat' : c'.flat l.size < l.flatSize := Coord.flat_lt hc'
  have heq := h.trans h'.symm
  rcases blockedOffset?_cases h with ⟨hat, -⟩ | ⟨hat, -⟩
  · rw [hat, hat, Option.some.injEq] at heq
    obtain ⟨heq, hmod⟩ := digits_inj (Nat.mod_lt _ (by decide)) (Nat.mod_lt _ (by decide)) heq
    obtain ⟨hdiv, heq⟩ := digits_inj hflat hflat' heq
    exact Coord.ext_flat hc hc' (eq_of_div_mod hdiv hmod) heq
  · rw [hat, hat, Option.some.injEq] at heq
    obtain ⟨heq, hmod⟩ := digits_inj (Nat.mod_lt _ (by decide)) (Nat.mod_lt _ (by decide)) heq
    obtain ⟨heq, hfmod⟩ := digits_inj (Nat.mod_lt _ (by decide)) (Nat.mod_lt _ (by decide)) heq
    obtain ⟨hdiv, hfdiv⟩ := digits_inj (div_lt_blocks (by decide) hflat)
      (div_lt_blocks (by decide) hflat') heq
    exact Coord.ext_flat hc hc' (eq_of_div_mod hdiv hmod) (eq_of_div_mod hfdiv hfmod)

/-- What has a place is inside. -/
theorem inside_of_offset? (h : l.offset? c = some i) : c.inside l.size = true := by
  rw [offset?] at h
  split at h
  · cases h
  case isFalse hc => simpa using hc

/-- **Elements lie inside the buffer.** -/
theorem offset?_lt (h : l.offset? c = some i) : i < l.bufferSize := by
  have hc := inside_of_offset? h
  rw [offset?, if_neg (by simp [hc])] at h
  split at h
  case h_1 order ho =>
    cases h
    rw [bufferSize_of_order ho, plainOffset_eq, ← (prod_order ho _).1, ← Nat.one_mul (List.prod _)]
    exact digits_list_lt (fun a _ => padded_get_lt hc a) Nat.zero_lt_one
  case h_2 =>
    split at h
    · exact blockedOffset?_lt hc h
    · cases h

/-- **No two elements lie at one place.** -/
theorem offset?_inj (h : l.offset? c = some i) (h' : l.offset? c' = some i) : c = c' := by
  have hc := inside_of_offset? h
  have hc' := inside_of_offset? h'
  rw [offset?, if_neg (by simp [hc])] at h
  rw [offset?, if_neg (by simp [hc'])] at h'
  cases ho : l.format.order? with
  | some order =>
    simp only [ho, Option.some.injEq] at h h'
    obtain ⟨-, heq⟩ := digits_list_inj (fun a _ => padded_get_lt hc a)
      (fun a _ => padded_get_lt hc' a) (h.trans h'.symm)
    exact Coord.ext_get fun a => Nat.add_right_cancel (heq a ((prod_order ho l.size).2 a))
  | none =>
    simp only [ho] at h h'
    split at h
    case isTrue hp =>
      rw [if_pos hp] at h'
      exact blockedOffset?_inj hc hc' h h'
    case isFalse => cases h

end Layout

/-! ## All positions -/

/-- Rows of indices, one behind the other. -/
theorem range_mul (m n : Nat) :
    (List.range m).flatMap (fun i => (List.range n).map fun j => i * n + j)
      = List.range (m * n) := by
  induction m with
  | zero => simp
  | succ m ih =>
    rw [List.range_succ, List.flatMap_append, ih, List.flatMap_singleton, Nat.succ_mul,
      List.range_add]

/-- A double loop as one loop. -/
theorem flatMap_range_mul {α : Type} (m n : Nat) (g : Nat → List α) :
    (List.range m).flatMap (fun i => (List.range n).flatMap fun j => g (i * n + j))
      = (List.range (m * n)).flatMap g := by
  rw [← range_mul, List.flatMap_assoc]
  simp only [List.flatMap_map]

namespace Coord

variable {s : Shape} {c : Coord}

/-- **The positions stand in the order of their indices.** -/
theorem map_index_all (s : Shape) :
    (all s).map (HostTensor.index s) = List.range s.count := by
  have hcount : s.count = s.batch * s.feature * s.y * s.x := Nat.mul_right_comm ..
  simp only [all, List.map_flatMap, List.map_map, Function.comp_def, HostTensor.index]
  rw [flatMap_range_mul s.batch s.feature
      fun k => (List.range s.y).flatMap fun y =>
        (List.range s.x).map fun x => (k * s.y + y) * s.x + x,
    flatMap_range_mul (s.batch * s.feature) s.y fun k => (List.range s.x).map fun x => k * s.x + x,
    range_mul, hcount]

@[simp] theorem length_all (s : Shape) : (all s).length = s.count := by
  simpa using congrArg List.length (map_index_all s)

/-- Coordinates are listed in the order of their places. -/
theorem index_getElem_all (s : Shape) {k : Nat} (hk : k < (all s).length) :
    HostTensor.index s (all s)[k] = k := by
  have h : ((all s).map (HostTensor.index s))[k]? = some k := by
    rw [map_index_all, List.getElem?_range (length_all s ▸ hk)]
  rw [List.getElem?_map, List.getElem?_eq_getElem hk, Option.map_some] at h
  exact Option.some.inj h

end Coord

namespace HostTensor

/-- One value per position. -/
def Full (t : HostTensor) : Prop := t.values.size = t.size.count

/-- The tensor read back from a buffer of an element type. -/
def cast (t : HostTensor) (e : Element) : HostTensor := ⟨t.size, t.values.map e.cast⟩

/-- Single precision holds what it is given. -/
theorem cast_f32 (t : HostTensor) : t.cast .f32 = t :=
  congrArg (HostTensor.mk t.size) (Array.map_id' t.values)

variable {t : HostTensor} {s : Shape} {f : Coord → Except EvalError Single}

/-- A value is found where it is stored. -/
theorem get_eq_ok_iff {c : Coord} {v : Single} :
    t.get c = .ok v ↔ t.values[index t.size c]? = some v := by
  rw [get]
  split
  case h_1 w hw => rw [hw, Option.some.injEq, Except.ok.injEq]
  case h_2 hn => simp [hn]

/-- A table has a value for every coordinate, in order. -/
theorem tabulate_eq_ok_iff : tabulate s f = .ok t ↔
    t.size = s ∧ List.Forall₂ (fun c v => f c = .ok v) (Coord.all s) t.values.toList := by
  rw [tabulate, bind_eq_ok_iff]
  simp only [mapM_eq_ok_iff]
  constructor
  · rintro ⟨values, hv, heq⟩
    cases heq
    exact ⟨rfl, hv⟩
  · rintro ⟨rfl, hv⟩
    exact ⟨_, hv, rfl⟩

/-- A table is full. -/
theorem full_of_tabulate (h : tabulate s f = .ok t) : t.size = s ∧ t.Full := by
  obtain ⟨rfl, hv⟩ := tabulate_eq_ok_iff.mp h
  refine ⟨rfl, ?_⟩
  rw [Full, ← Array.length_toList, ← hv.length_eq, Coord.length_all]

/-- A full tensor is the table of its values. -/
theorem Full.forall₂_get (h : t.Full) :
    List.Forall₂ (fun c v => t.get c = .ok v) (Coord.all t.size) t.values.toList := by
  have hlen : (Coord.all t.size).length = t.values.toList.length := by
    rw [Coord.length_all, Array.length_toList, h]
  refine List.forall₂_iff_get.mpr ⟨hlen, fun k hk hk' => ?_⟩
  rw [get_eq_ok_iff, List.get_eq_getElem, Coord.index_getElem_all]
  simp only [List.get_eq_getElem, Array.getElem_toList]
  exact Array.getElem?_eq_getElem _

end HostTensor

/-! ## Packing -/

section Packing

variable {l : Layout} {t : HostTensor} {b : Buffer} {raw raw' : Array Single}

/-- Writing succeeds at a place inside. -/
theorem writeAt_eq_ok_iff {o : Option Nat} {v : Single} :
    writeAt raw o v = .ok raw' ↔ ∃ i, ∃ h : i < raw.size, o = some i ∧ raw' = raw.set i v h := by
  unfold writeAt
  split
  case h_1 => simp
  case h_2 i =>
    split
    case isTrue hi => simp [hi, eq_comm]
    case isFalse hi =>
      simp only [reduceCtorEq, Option.some.injEq, false_iff]
      rintro ⟨_, hi', rfl, -⟩
      exact hi hi'

/-- The values of a tensor at their places. -/
def Layout.placed (l : Layout) (t : HostTensor) (cs : List Coord) (raw : Array Single) :
    Except EvalError (Array Single) :=
  cs.foldlM (fun raw c => do writeAt raw (l.offset? c) (← t.get c)) raw

/-- **When a tensor can be packed**, and into what. -/
theorem pack_eq_ok_iff : pack t l = .ok b ↔ t.size = l.size ∧ l.unplaced? = none ∧
    ∃ raw, l.placed t (Coord.all l.size) (Array.replicate l.bufferSize Single.zero) = .ok raw ∧
      b = Buffer.ofSingles l.element raw := by
  unfold pack
  split
  case isTrue hne => simp [hne]
  case isFalse heq =>
    rw [ne_eq, not_not] at heq
    split
    case h_1 c hc => simp [hc]
    case h_2 hnone =>
      simp only [heq, hnone, true_and, bind_eq_ok_iff]
      exact exists_congr fun raw => and_congr_right fun _ =>
        ⟨fun h => (Except.ok.inj h).symm, fun h => h ▸ rfl⟩

/-- Values are placed one by one. -/
theorem placed_cons_eq_ok_iff {c : Coord} {cs : List Coord} :
    l.placed t (c :: cs) raw = .ok raw' ↔ ∃ v i, ∃ h : i < raw.size, t.get c = .ok v ∧
      l.offset? c = some i ∧ l.placed t cs (raw.set i v h) = .ok raw' := by
  rw [Layout.placed, List.foldlM_cons, bind_eq_ok_iff]
  simp only [bind_eq_ok_iff, writeAt_eq_ok_iff]
  constructor
  · rintro ⟨_, ⟨v, hv, i, hi, ho, rfl⟩, h⟩
    exact ⟨v, i, hi, hv, ho, h⟩
  · rintro ⟨v, i, hi, hv, ho, h⟩
    exact ⟨_, ⟨v, hv, i, hi, ho, rfl⟩, h⟩

/-- **What is placed stays in its place**, and all else is as it was. -/
theorem placed_spec : ∀ {cs : List Coord} {raw raw' : Array Single},
    l.placed t cs raw = .ok raw' → raw'.size = raw.size ∧
      (∀ c ∈ cs, ∃ i v, l.offset? c = some i ∧ t.get c = .ok v ∧ raw'[i]? = some v) ∧
      ∀ i, (∀ c ∈ cs, l.offset? c ≠ some i) → raw'[i]? = raw[i]?
  | [], raw, raw', h => by
      cases h
      exact ⟨rfl, fun c hc => absurd hc List.not_mem_nil, fun _ _ => rfl⟩
  | c :: cs, raw, raw', h => by
      obtain ⟨v, i, hi, hv, ho, h⟩ := placed_cons_eq_ok_iff.mp h
      obtain ⟨hsize, hin, hout⟩ := placed_spec h
      refine ⟨hsize.trans (Array.size_set hi), fun c' hc' => ?_, fun j hj => ?_⟩
      · rcases List.mem_cons.mp hc' with rfl | hc'
        · refine ⟨i, v, ho, hv, ?_⟩
          by_cases hlater : ∃ c ∈ cs, l.offset? c = some i
          · obtain ⟨c, hc, hoc⟩ := hlater
            obtain rfl := Layout.offset?_inj ho hoc
            obtain ⟨i', v', ho', hv', hat⟩ := hin _ hc
            rw [ho] at ho'
            rw [hv] at hv'
            cases ho'
            cases hv'
            exact hat
          · rw [hout i fun c hc hoc => hlater ⟨c, hc, hoc⟩, Array.getElem?_set_self]
        · exact hin c' hc'
      · rw [hout j fun c hc => hj c (List.mem_cons_of_mem _ hc),
          Array.getElem?_set_ne]
        exact fun he => hj c List.mem_cons_self (he ▸ ho)

/-- A packed buffer is as long as its layout says. -/
theorem pack_size (h : pack t l = .ok b) :
    b.size = l.bufferSize ∧ b.element = l.element ∧ t.size = l.size := by
  obtain ⟨hsize, -, raw, hraw, rfl⟩ := pack_eq_ok_iff.mp h
  refine ⟨?_, Buffer.element_ofSingles .., hsize⟩
  rw [Buffer.size_ofSingles, (placed_spec hraw).1, Array.size_replicate]

/-- **When a buffer can be unpacked**, and into what. -/
theorem unpack_eq_ok_iff : unpack l b = .ok t ↔ b.size = l.bufferSize ∧ l.unplaced? = none ∧
    t.size = l.size ∧ List.Forall₂ (fun c v => readAt b.toSingles (l.offset? c) = .ok v)
      (Coord.all l.size) t.values.toList := by
  unfold unpack
  split
  case isTrue hne => simp [hne]
  case isFalse heq =>
    rw [ne_eq, not_not] at heq
    split
    case h_1 c hc => simp [hc]
    case h_2 hnone => simp only [heq, hnone, true_and, HostTensor.tabulate_eq_ok_iff]

/-- Reading succeeds at a place inside. -/
theorem readAt_eq_ok_iff {o : Option Nat} {v : Single} :
    readAt raw o = .ok v ↔ ∃ i, o = some i ∧ raw[i]? = some v := by
  unfold readAt
  split
  case h_1 => simp
  case h_2 i =>
    split
    case h_1 w hw => simp [hw]
    case h_2 hn => simp [hn]

/-- **What is packed can be unpacked**, rounded to the element type. -/
theorem unpack_pack (h : pack t l = .ok b) (ht : t.Full) :
    unpack l b = .ok (t.cast l.element) := by
  obtain ⟨hbuffer, -, hsize⟩ := pack_size h
  obtain ⟨-, hplaced, raw, hraw, rfl⟩ := pack_eq_ok_iff.mp h
  refine unpack_eq_ok_iff.mpr ⟨hbuffer, hplaced, hsize, ?_⟩
  obtain ⟨-, hin, -⟩ := placed_spec hraw
  have hget := ht.forall₂_get
  rw [hsize] at hget
  simp only [HostTensor.cast, Array.toList_map]
  rw [List.forall₂_map_right_iff]
  refine List.forall₂_iff_zip.mpr ⟨hget.length_eq, fun {c v} hcv => ?_⟩
  obtain ⟨i, w, ho, hw, hat⟩ := hin c (List.of_mem_zip hcv).1
  have hv : t.get c = .ok v := (List.forall₂_iff_zip.mp hget).2 hcv
  rw [hv] at hw
  cases hw
  rw [readAt_eq_ok_iff]
  exact ⟨i, ho, by rw [Buffer.toSingles_ofSingles, Array.getElem?_map, hat, Option.map_some]⟩

/-- What is unpacked is full, and fits the element type of the buffer. -/
theorem unpack_spec (h : unpack l b = .ok t) : t.Full ∧ t.size = l.size ∧ t.cast b.element = t := by
  obtain ⟨-, -, hsize, hread⟩ := unpack_eq_ok_iff.mp h
  refine ⟨?_, hsize, ?_⟩
  · rw [HostTensor.Full, ← Array.length_toList, ← hread.length_eq, Coord.length_all, hsize]
  · refine congrArg (HostTensor.mk t.size)
      ((Array.map_congr_left fun v hv => ?_).trans (Array.map_id' t.values))
    obtain ⟨c, hcv⟩ : ∃ c, readAt b.toSingles (l.offset? c) = .ok v := by
      obtain ⟨k, hk, rfl⟩ := Array.getElem_of_mem hv
      exact ⟨_, (List.forall₂_iff_get.mp hread).2 k (by rw [hread.length_eq]; simpa using hk)
        (by simpa using hk)⟩
    obtain ⟨i, -, hi⟩ := readAt_eq_ok_iff.mp hcv
    have hfix := congrArg (·[i]?) b.map_cast_toSingles
    simpa [hi] using hfix

/-- A function of all values at one coordinate. -/
theorem get_map (g : Single → Single) (c : Coord) :
    HostTensor.get ⟨t.size, t.values.map g⟩ c = (t.get c).map g := by
  simp only [HostTensor.get, Array.getElem?_map]
  cases t.values[HostTensor.index t.size c]? <;> rfl

/-- A function of all values, one of them overwritten. -/
theorem writeAt_map (g : Single → Single) (o : Option Nat) (v : Single) :
    writeAt (raw.map g) o (g v) = (writeAt raw o v).map fun raw => raw.map g := by
  cases o with
  | none => rfl
  | some i =>
    simp only [writeAt, Array.size_map]
    split
    · exact congrArg Except.ok (Array.map_set ..).symm
    · rfl

/-- Placing commutes with a function on the values. -/
theorem placed_map (g : Single → Single) : ∀ (cs : List Coord) (raw : Array Single),
    l.placed ⟨t.size, t.values.map g⟩ cs (raw.map g)
      = (l.placed t cs raw).map fun raw => raw.map g
  | [], _ => rfl
  | c :: cs, raw => by
      have hstep :
          (HostTensor.get ⟨t.size, t.values.map g⟩ c >>= writeAt (raw.map g) (l.offset? c))
            = (t.get c >>= writeAt raw (l.offset? c)).map fun raw => raw.map g := by
        rw [get_map]
        cases t.get c with
        | error e => rfl
        | ok v => exact writeAt_map g (l.offset? c) v
      rw [Layout.placed, Layout.placed, List.foldlM_cons, List.foldlM_cons, hstep]
      cases t.get c >>= writeAt raw (l.offset? c) with
      | error e => rfl
      | ok raw' => exact placed_map g cs raw'

/-- **A tensor that has been rounded is packed as it was before.** -/
theorem pack_of_cast (h : pack (t.cast l.element) l = .ok b) : pack t l = .ok b := by
  obtain ⟨hsize, hnone, raw', hraw', rfl⟩ := pack_eq_ok_iff.mp h
  have hplaced := placed_map (l := l) (t := t) l.element.cast (Coord.all l.size)
    (Array.replicate l.bufferSize Single.zero)
  rw [Array.map_replicate, Element.cast_zero] at hplaced
  have hmap := hplaced.symm.trans hraw'
  cases hraw : l.placed t (Coord.all l.size) (Array.replicate l.bufferSize Single.zero) with
  | error e =>
    rw [hraw] at hmap
    cases hmap
  | ok raw =>
    rw [hraw] at hmap
    cases hmap
    exact pack_eq_ok_iff.mpr ⟨hsize, hnone, raw, hraw, Buffer.ofSingles_map_cast ..⟩

end Packing

end NetPlan
