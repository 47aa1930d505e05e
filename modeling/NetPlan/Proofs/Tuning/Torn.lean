import NetPlan.Proofs.Tuning.Records

/-!
# Proofs/Tuning/Torn — what is read of a text that was torn off

A text of written records may end anywhere.  The reader takes words in threes and does not see where a
line ends, so what it makes of the last record hangs on where that was torn.

* `parse_torn` — torn before its index, the last record does not count; torn inside the digits of its
  index, it counts with the digits that are left, and nowhere else does what is read differ from the
  complete records;
* `parse_torn_misread` — so a record that was never written can be read.
-/

namespace NetPlan.Tuning.Records

open Text

variable {r : Records} {hash : String} {entry : Entry} {writes : List (String × Entry)}
  {text torn : String}

/-! ## Where a text is torn -/

theorem prefix_append_cons {α : Type} {l a c : List α} {b : α} (h : l <+: a ++ b :: c) :
    l <+: a ∨ ∃ u, l = a ++ b :: u ∧ u <+: c := by
  rcases List.prefix_or_prefix_of_prefix h (List.prefix_append a (b :: c)) with hshort | ⟨u, rfl⟩
  · exact Or.inl hshort
  · rcases List.prefix_cons_iff.mp ((List.prefix_append_right_inj a).mp h) with rfl | ⟨v, rfl, hv⟩
    · exact Or.inl (by simp)
    · exact Or.inr ⟨v, rfl, hv⟩

/-- A record without the newline behind it. -/
def body (hash : String) (entry : Entry) : String :=
  hash ++ " " ++ entry.implementation ++ " " ++ toString (indexOf entry.variant)

theorem line_eq_body (hash : String) (entry : Entry) : line hash entry = body hash entry ++ "\n" :=
  line_eq hash entry

theorem toList_body (hash : String) (entry : Entry) : (body hash entry).toList
    = hash.toList ++ ' ' :: (entry.implementation.toList
        ++ ' ' :: (toString (indexOf entry.variant)).toList) := by
  unfold body
  simp only [String.toList_append, List.append_assoc]
  rfl

/-- A text that was torn off consists of whole records and the beginning of one more. -/
theorem exists_torn : ∀ {writes : List (String × Entry)} {text : String},
    text.toList <+: (written writes).toList →
      text = written writes ∨ ∃ k torn hash entry, writes[k]? = some (hash, entry) ∧
        text = written (writes.take k) ++ torn ∧ torn.toList <+: (body hash entry).toList
  | [], text, h => by
      rw [written_nil] at h
      exact Or.inl (String.toList_inj.mp (List.prefix_nil.mp h) |>.trans written_nil.symm)
  | (hash, entry) :: writes, text, h => by
      have hwritten : (written ((hash, entry) :: writes)).toList
          = (body hash entry).toList ++ '\n' :: (written writes).toList := by
        rw [written_cons, line_eq_body, String.toList_append, String.toList_append, List.append_assoc]
        rfl
      rcases prefix_append_cons (hwritten ▸ h) with hbody | ⟨rest, htext, hrest⟩
      · refine Or.inr ⟨0, text, hash, entry, rfl, ?_, hbody⟩
        rw [List.take_zero, written_nil, String.empty_append]
      · have hsplit : text = line hash entry ++ String.ofList rest := by
          rw [← String.toList_inj, line_eq_body, htext]
          simp only [String.toList_append, String.toList_ofList, List.append_assoc]
          rfl
        have hrest : (String.ofList rest).toList <+: (written writes).toList := by
          rw [String.toList_ofList]
          exact hrest
        rcases exists_torn hrest with hall | ⟨k, torn, hash', entry', hk, htorn, hbody⟩
        · exact Or.inl (by rw [hsplit, hall, written_cons])
        · refine Or.inr ⟨k + 1, torn, hash', entry', hk, ?_, hbody⟩
          rw [hsplit, htorn, List.take_succ_cons, written_cons, String.append_assoc]

/-! ## What is read of a torn record -/

theorem addWords_short (r : Records) : ∀ {ws : List String}, ws.length ≤ 2 → r.addWords ws = r
  | [], _ => rfl
  | [_], _ => rfl
  | [_, _], _ => rfl
  | _ :: _ :: _ :: _, h => absurd h (by simp)

/-- Fewer than three words are left of a record, or its index has only its sign, or some of its
digits. -/
theorem words_torn (h : Legible hash entry) (htorn : torn.toList <+: (body hash entry).toList) :
    (words torn).length ≤ 2 ∨ words torn = [hash, entry.implementation, "-"] ∨
      ∃ j, torn = hash ++ " " ++ entry.implementation ++ " "
          ++ toString ((indexOf entry.variant).tdiv (10 ^ j : Nat)) ∧
        (0 < j → (indexOf entry.variant).tdiv (10 ^ j : Nat) ≠ 0) ∧
        words torn = [hash, entry.implementation,
          toString ((indexOf entry.variant).tdiv (10 ^ j : Nat))] := by
  have hspace : isBlank ' ' = true := by decide
  rw [toList_body] at htorn
  rcases prefix_append_cons htorn with hhash | ⟨rest, htext, hrest⟩
  · refine Or.inl ?_
    rw [words, List.length_map]
    exact Nat.le_succ_of_le (h.hash.length_wordsFrom hhash)
  rcases prefix_append_cons hrest with hname | ⟨digits, rfl, hdigits⟩
  · refine Or.inl ?_
    rw [words, List.length_map, htext, wordsFrom_append_blank hspace, h.hash.wordsFrom,
      List.singleton_append, List.length_cons]
    exact Nat.succ_le_succ (h.name.length_wordsFrom hname)
  have hwords : words torn
      = [hash, entry.implementation] ++ (wordsFrom [] digits).map String.ofList := by
    rw [words, htext, wordsFrom_append_blank hspace, wordsFrom_append_blank hspace, h.hash.wordsFrom,
      h.name.wordsFrom]
    simp
  rcases prefix_toString hdigits with rfl | rfl | ⟨j, rfl, hj⟩
  · exact Or.inl (by simp [hwords, wordsFrom, closeWord])
  · exact Or.inr (Or.inl (by rw [hwords]; rfl))
  · refine Or.inr (Or.inr ⟨j, ?_, hj, ?_⟩)
    · rw [← String.toList_inj, htext]
      simp only [String.toList_append, List.append_assoc]
      rfl
    · rw [hwords, (isWord_toString _).wordsFrom]
      simp

/-! ## Complete records -/

/-- The first `k` records stand in a text and no more of them; the newline behind the last may be
missing. -/
structure Complete (text : String) (writes : List (String × Entry)) (k : Nat) : Prop where
  le : k ≤ writes.length
  stands : (written (writes.take k)).toList <+: (text ++ "\n").toList
  longest : ∀ m ≤ writes.length, (written (writes.take m)).toList <+: (text ++ "\n").toList → m ≤ k

theorem written_append : ∀ xs ys : List (String × Entry),
    written (xs ++ ys) = written xs ++ written ys
  | [], ys => by rw [written_nil, String.empty_append, List.nil_append]
  | x :: xs, ys => by
      rw [List.cons_append, written_cons, written_cons, written_append xs ys, String.append_assoc]

variable {k : Nat}

theorem written_take_succ (hk : writes[k]? = some (hash, entry)) :
    written (writes.take (k + 1)) = written (writes.take k) ++ body hash entry ++ "\n" := by
  rw [List.take_add_one, hk, Option.toList_some, written_append, written_cons, written_nil,
    String.append_empty, line_eq_body, String.append_assoc]

theorem length_written_take_succ (hk : writes[k]? = some (hash, entry)) :
    (written (writes.take (k + 1))).toList.length
      = (written (writes.take k)).toList.length + (body hash entry).toList.length + 1 := by
  rw [written_take_succ hk, String.toList_append, String.toList_append, List.length_append,
    List.length_append]
  rfl

/-- More records are longer. -/
theorem length_written_lt {i : Nat} : ∀ {j : Nat}, i < j → j ≤ writes.length →
    (written (writes.take i)).toList.length < (written (writes.take j)).toList.length
  | 0, hij, _ => absurd hij (Nat.not_lt_zero i)
  | j + 1, hij, hj => by
      have hlast := length_written_take_succ (List.getElem?_eq_getElem (Nat.lt_of_succ_le hj))
      rcases Nat.lt_succ_iff_lt_or_eq.mp hij with hij | rfl
      · have hshort := length_written_lt hij (Nat.le_of_succ_le hj)
        omega
      · omega

theorem complete_written (writes : List (String × Entry)) :
    Complete (written writes) writes writes.length where
  le := Nat.le_refl _
  stands := by
    rw [List.take_length, String.toList_append]
    exact List.prefix_append _ _
  longest _ hm _ := hm

/-- Only its newline is missing. -/
theorem complete_body (hk : writes[k]? = some (hash, entry)) :
    Complete (written (writes.take k) ++ body hash entry) writes (k + 1) where
  le := (List.getElem?_eq_some_iff.mp hk).1
  stands := written_take_succ hk ▸ List.prefix_refl _
  longest := by
    intro m hm hstands
    by_contra hlong
    have hlonger := length_written_lt (Nat.not_le.mp hlong) hm
    have hfits := hstands.length_le
    rw [← written_take_succ hk] at hfits
    omega

theorem complete_torn (hk : writes[k]? = some (hash, entry))
    (htorn : torn.toList <+: (body hash entry).toList) (hne : torn ≠ body hash entry) :
    Complete (written (writes.take k) ++ torn) writes k where
  le := Nat.le_of_lt (List.getElem?_eq_some_iff.mp hk).1
  stands := by
    rw [String.append_assoc, String.toList_append]
    exact List.prefix_append _ _
  longest := by
    intro m hm hstands
    by_contra hlong
    have hshort : torn.toList.length < (body hash entry).toList.length :=
      Nat.lt_of_le_of_ne htorn.length_le fun hlength =>
        hne (String.toList_inj.mp (htorn.eq_of_length hlength))
    have hmore : (written (writes.take (k + 1))).toList.length
        ≤ (written (writes.take m)).toList.length := by
      rcases Nat.eq_or_lt_of_le (Nat.not_le.mp hlong) with rfl | hlt
      · exact Nat.le_refl _
      · exact Nat.le_of_lt (length_written_lt hlt hm)
    have hfits := hstands.length_le
    rw [length_written_take_succ hk] at hmore
    rw [String.toList_append, String.toList_append, List.length_append, List.length_append] at hfits
    change _ ≤ _ + 1 at hfits
    omega

/-! ## What is read -/

/-- Dropping digits keeps an index small. -/
theorem tdiv_fits {index : Int} {j : Nat} (hlow : -0x8000000000000000 ≤ index)
    (hhigh : index < 0x8000000000000000) (hj : 0 < j) :
    -0x8000000000000000 ≤ index.tdiv (10 ^ j : Nat) ∧
      index.tdiv (10 ^ j : Nat) < 0x8000000000000000 := by
  have hten : 10 ≤ 10 ^ j := Nat.le_self_pow (Nat.pos_iff_ne_zero.mp hj) 10
  have hshort : (index.tdiv (10 ^ j : Nat)).natAbs ≤ index.natAbs / 10 := by
    rw [Int.natAbs_tdiv, Int.natAbs_natCast]
    exact Nat.div_le_div_left hten (by decide)
  omega

/-- What the records that were written say is on record. -/
theorem mem_of_lookup_parse_written (h : ∀ w ∈ writes, Legible w.1 w.2)
    (hfound : (parse (written writes)).lookup hash = some entry) :
    ∃ w ∈ writes, w.1 = hash ∧ recorded w.2 = entry := by
  rw [lookup_parse_written hash h] at hfound
  obtain ⟨stored, hstored, rfl⟩ := Option.map_eq_some_iff.mp hfound
  obtain ⟨earlier, later, hsplit, -⟩ := List.lookup_eq_some_iff.mp hstored
  have hmem : (hash, stored) ∈ writes.reverse := hsplit ▸ List.mem_append_right _ List.mem_cons_self
  exact ⟨_, List.mem_reverse.mp hmem, rfl, rfl⟩

/-- **What is read of a text that was torn off.**  Where it was not torn inside the digits of an index,
it is what the complete records say, and nothing else.  Where it was, the last record counts too, with
its digits up to there. -/
theorem parse_torn (h : ∀ w ∈ writes, Legible w.1 w.2)
    (htext : text.toList <+: (written writes).toList) :
    ∃ k, Complete text writes k ∧
      (∀ hash entry, (parse (written (writes.take k))).lookup hash = some entry →
        ∃ w ∈ writes.take k, w.1 = hash ∧ recorded w.2 = entry) ∧
      (parse text = parse (written (writes.take k)) ∨
        ∃ hash entry j, writes[k]? = some (hash, entry) ∧ 0 < j ∧
          (indexOf entry.variant).tdiv (10 ^ j : Nat) ≠ 0 ∧
          text = written (writes.take k) ++ (hash ++ " " ++ entry.implementation ++ " "
            ++ toString ((indexOf entry.variant).tdiv (10 ^ j : Nat))) ∧
          parse text = (parse (written (writes.take k))).insert hash
            ⟨entry.implementation, variantOf ((indexOf entry.variant).tdiv (10 ^ j : Nat))⟩) := by
  have hlegible : ∀ k, ∀ w ∈ writes.take k, Legible w.1 w.2 := fun k w hw =>
    h w (List.mem_of_mem_take hw)
  have hlookup : ∀ k hash entry, (parse (written (writes.take k))).lookup hash = some entry →
      ∃ w ∈ writes.take k, w.1 = hash ∧ recorded w.2 = entry := fun k _ _ hfound =>
    mem_of_lookup_parse_written (hlegible k) hfound
  rcases exists_torn htext with rfl | ⟨k, torn, hash, entry, hk, rfl, htorn⟩
  · refine ⟨writes.length, complete_written writes, hlookup _, Or.inl ?_⟩
    rw [List.take_length]
  rcases eq_or_ne torn (body hash entry) with rfl | hne
  · refine ⟨k + 1, complete_body hk, hlookup _, Or.inl ?_⟩
    rw [written_take_succ hk, parse, parse, words_append_newline]
  refine ⟨k, complete_torn hk htorn hne, hlookup k, ?_⟩
  have hwhole := whole_written (hlegible k)
  have hparse : parse (written (writes.take k) ++ torn)
      = (parse (written (writes.take k))).addWords (words torn) := by
    rw [parse, words_append hwhole.closed, addWords_append hwhole.records]
    rfl
  rcases words_torn (h _ (List.mem_of_getElem? hk)) htorn with hshort | hsign | ⟨j, htext, hj, hwords⟩
  · exact Or.inl (hparse.trans (addWords_short _ hshort))
  · refine Or.inl (hparse.trans ?_)
    rw [hsign, addWords]
    rfl
  · have hpos : 0 < j := by
      refine Nat.pos_of_ne_zero fun hzero => hne ?_
      rw [htext, hzero, Nat.pow_zero, Int.natCast_one, Int.tdiv_one]
      rfl
    obtain ⟨hlow, hhigh⟩ := indexOf_fits entry.variant
    obtain ⟨hlow, hhigh⟩ := tdiv_fits hlow hhigh hpos
    refine Or.inr ⟨hash, entry, j, hk, hpos, hj hpos, htext ▸ rfl, hparse.trans ?_⟩
    rw [hwords, addWords, variant?_toString hlow hhigh]
    rfl

/-- Two results; writing the second stopped inside its index. -/
def interrupted : List (String × Entry) :=
  [("7f", ⟨"softmax", some 0⟩), ("2d", ⟨"convolution", some 123⟩)]

theorem parse_torn_interrupted :
    (∀ w ∈ interrupted, Legible w.1 w.2) ∧
    "7f softmax 0\n2d convolution 12".toList <+: (written interrupted).toList ∧
    ∃ k, Complete "7f softmax 0\n2d convolution 12" interrupted k ∧
      (∀ hash entry, (parse (written (interrupted.take k))).lookup hash = some entry →
        ∃ w ∈ interrupted.take k, w.1 = hash ∧ recorded w.2 = entry) ∧
      (parse "7f softmax 0\n2d convolution 12" = parse (written (interrupted.take k)) ∨
        ∃ hash entry j, interrupted[k]? = some (hash, entry) ∧ 0 < j ∧
          (indexOf entry.variant).tdiv (10 ^ j : Nat) ≠ 0 ∧
          "7f softmax 0\n2d convolution 12" = written (interrupted.take k) ++ (hash ++ " "
            ++ entry.implementation ++ " "
            ++ toString ((indexOf entry.variant).tdiv (10 ^ j : Nat))) ∧
          parse "7f softmax 0\n2d convolution 12" = (parse (written (interrupted.take k))).insert hash
            ⟨entry.implementation, variantOf ((indexOf entry.variant).tdiv (10 ^ j : Nat))⟩) := by
  have hlegible : ∀ w ∈ interrupted, Legible w.1 w.2 :=
    List.forall_mem_cons.mpr ⟨⟨by decide, by decide⟩,
      List.forall_mem_singleton.mpr ⟨by decide, by decide⟩⟩
  have htorn : "7f softmax 0\n2d convolution 12".toList <+: (written interrupted).toList :=
    List.isPrefixOf_iff_prefix.mp (by decide)
  exact ⟨hlegible, htorn, parse_torn hlegible htorn⟩

/-- **A record that was never written can be read**: of the result of one variant, torn inside its index,
a result of another is read, though no record is complete. -/
theorem parse_torn_misread :
    Storable "2d" ⟨"convolution", some 12⟩ ∧
    "2d convolution 1".toList <+: (written [("2d", ⟨"convolution", some 12⟩)]).toList ∧
    Complete "2d convolution 1" [("2d", ⟨"convolution", some 12⟩)] 0 ∧
    (parse (written [])).lookup "2d" = none ∧
    (parse "2d convolution 1").lookup "2d" = some ⟨"convolution", some 1⟩ := by
  refine ⟨⟨⟨by decide, by decide⟩, by rintro _ ⟨⟩; decide⟩, List.isPrefixOf_iff_prefix.mp (by decide),
    ⟨Nat.zero_le _, List.isPrefixOf_iff_prefix.mp (by decide), fun m hm hstands => ?_⟩, by decide,
    by decide⟩
  have hlength := hstands.length_le
  match m, hm with
  | 0, _ => exact Nat.le_refl 0
  | 1, _ => exact absurd hlength (by decide)

end NetPlan.Tuning.Records
