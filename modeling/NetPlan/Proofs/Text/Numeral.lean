import Mathlib.Algebra.Group.Nat.Defs
import Mathlib.Data.List.Basic
import Mathlib.Data.Nat.Init
import NetPlan.Text.Quoted
import NetPlan.Text.Word

/-!
# Proofs/Text/Numeral — words and numerals are read as they are written

A text is cut into words at its blanks and nowhere else.  So a text that does not end inside a word has
its own words, whatever is put behind it (`words_append`).

A number that fits is read from its numeral (`integer?_toString`).  Nothing marks the end of a numeral:
what is left of one that was torn off is the numeral of the number without its last digits
(`prefix_toString`), unless no digit is left.
-/

namespace NetPlan.Text

variable {cs : List Char} {b : Char} {s t : String}

/-- A word: characters that are not blank, and not none. -/
structure IsWord (s : String) : Prop where
  ne_empty : s ≠ ""
  solid : ∀ c ∈ s.toList, isBlank c = false

theorem isWord_iff : IsWord s ↔ s ≠ "" ∧ s.toList.all (fun c => !isBlank c) = true := by
  simp only [List.all_eq_true, Bool.not_eq_true']
  exact ⟨fun h => ⟨h.ne_empty, h.solid⟩, fun h => ⟨h.1, h.2⟩⟩

instance (s : String) : Decidable (IsWord s) := decidable_of_iff _ isWord_iff.symm

/-- A text that does not end inside a word. -/
def Closed (s : String) : Prop := ∀ c ∈ s.toList.getLast?, isBlank c = true

/-! ## Blanks between words -/

theorem closeWord_append (word : List Char) (ws vs : List (List Char)) :
    closeWord word (ws ++ vs) = closeWord word ws ++ vs := by
  unfold closeWord
  split <;> rfl

/-- A blank ends the word before it, whatever follows. -/
theorem wordsFrom_append_blank (hb : isBlank b = true) (ds : List Char) :
    ∀ word cs : List Char, wordsFrom word (cs ++ b :: ds) = wordsFrom word cs ++ wordsFrom [] ds
  | word, [] => by
      have hclose : wordsFrom word (b :: ds) = closeWord word (wordsFrom [] ds) := if_pos hb
      rw [List.nil_append, hclose, wordsFrom, ← closeWord_append, List.nil_append]
  | word, c :: cs => by
      rw [List.cons_append, wordsFrom, wordsFrom]
      split
      · rw [wordsFrom_append_blank hb ds [] cs, closeWord_append]
      · exact wordsFrom_append_blank hb ds (c :: word) cs

/-- Characters that are not blank go on with the open word. -/
theorem wordsFrom_solid : ∀ (word cs : List Char), (∀ c ∈ cs, isBlank c = false) →
    wordsFrom word cs = closeWord (cs.reverse ++ word) []
  | word, [], _ => rfl
  | word, c :: cs, h => by
      obtain ⟨hc, hcs⟩ := List.forall_mem_cons.mp h
      rw [wordsFrom, hc, if_neg Bool.false_ne_true, wordsFrom_solid (c :: word) cs hcs,
        List.reverse_cons, List.append_assoc, List.singleton_append]

/-- Characters that are not blank are one word, or none if there are none. -/
theorem wordsFrom_nil_solid (h : ∀ c ∈ cs, isBlank c = false) :
    wordsFrom [] cs = if cs = [] then [] else [cs] := by
  rw [wordsFrom_solid [] cs h, List.append_nil, closeWord, List.isEmpty_reverse, List.reverse_reverse]
  cases cs <;> rfl

/-! ## Words of texts -/

theorem IsWord.of_toList (hne : s.toList ≠ []) (h : ∀ c ∈ s.toList, isBlank c = false) : IsWord s :=
  ⟨fun hempty => hne (String.toList_eq_nil_iff.mpr hempty), h⟩

theorem IsWord.toList_ne_nil (h : IsWord s) : s.toList ≠ [] := fun hnil =>
  h.ne_empty (String.toList_eq_nil_iff.mp hnil)

theorem IsWord.wordsFrom (h : IsWord s) : wordsFrom [] s.toList = [s.toList] := by
  rw [wordsFrom_nil_solid h.solid, if_neg h.toList_ne_nil]

/-- A beginning of a word is one word at most. -/
theorem IsWord.length_wordsFrom (h : IsWord s) (hcs : cs <+: s.toList) :
    (Text.wordsFrom [] cs).length ≤ 1 := by
  rw [wordsFrom_nil_solid fun c hc => h.solid c (hcs.subset hc)]
  split <;> simp

theorem closed_empty : Closed "" := fun _ h => by cases h

/-- A line is closed. -/
theorem closed_append_newline (s : String) : Closed (s ++ "\n") := by
  intro c hc
  have hlast : (s ++ "\n").toList.getLast? = some '\n' := by
    rw [String.toList_append]
    exact List.getLast?_concat
  rw [hlast] at hc
  cases hc
  decide

theorem Closed.append (hs : Closed s) (ht : Closed t) : Closed (s ++ t) := by
  intro c hc
  rw [String.toList_append, List.getLast?_append] at hc
  cases hlast : t.toList.getLast? with
  | none =>
    rw [hlast] at hc
    exact hs c hc
  | some d =>
    rw [hlast] at hc
    exact ht c (hlast ▸ hc)

theorem words_append_newline (s : String) : words (s ++ "\n") = words s := by
  unfold words
  rw [String.toList_append]
  exact congrArg _ ((wordsFrom_append_blank (by decide) [] [] s.toList).trans (List.append_nil _))

/-- **No word reaches over the end of a closed text.** -/
theorem words_append (h : Closed s) (t : String) : words (s ++ t) = words s ++ words t := by
  unfold words
  rw [← List.map_append, String.toList_append]
  refine congrArg (List.map String.ofList) ?_
  obtain hnil | ⟨cs, b, hcs⟩ := List.eq_nil_or_concat' s.toList
  · rw [hnil]
    rfl
  · have hb : isBlank b = true := h b (by rw [hcs, List.getLast?_concat]; rfl)
    have hends : wordsFrom [] (cs ++ [b]) = wordsFrom [] cs :=
      (wordsFrom_append_blank hb [] [] cs).trans (List.append_nil _)
    rw [hcs, hends, List.append_assoc, List.singleton_append, wordsFrom_append_blank hb]

/-! ## Numerals -/

variable {n : Nat} {z : Int}

theorem digitsValue?_eq : ∀ (start : Nat) (ds : List Char), (∀ c ∈ ds, c.isDigit = true) →
    digitsValue? start ds = some (Nat.ofDigitChars 10 ds start)
  | _, [], _ => rfl
  | start, c :: ds, h => by
      obtain ⟨hc, hds⟩ := List.forall_mem_cons.mp h
      rw [digitsValue?, if_pos hc, digitsValue?_eq _ ds hds, Nat.ofDigitChars_cons]
      rfl

theorem isDigit_of_mem_toDigits {c : Char} (h : c ∈ Nat.toDigits 10 n) : c.isDigit = true :=
  Nat.isDigit_of_mem_toDigits (by omega) (by omega) h

/-- **The digits of a number have its value.** -/
theorem naturalValue?_toDigits (n : Nat) : naturalValue? (Nat.toDigits 10 n) = some n := by
  have hvalue : digitsValue? 0 (Nat.toDigits 10 n) = some n := by
    rw [digitsValue?_eq 0 _ fun _ => isDigit_of_mem_toDigits,
      Nat.ofDigitChars_toDigits (by omega) (by omega)]
  unfold naturalValue?
  split
  case h_1 hnil => exact absurd hnil Nat.toDigits_ne_nil
  case h_2 => exact hvalue

/-- The digits of a number are no sign. -/
theorem integer?_of_toDigits {s : String} (hs : s.toList = Nat.toDigits 10 n)
    (hn : n < 0x8000000000000000) : integer? s = some (n : Int) := by
  have hdigit : ∀ c ∈ s.toList, c.isDigit = true := fun c hc => isDigit_of_mem_toDigits (hs ▸ hc)
  unfold integer?
  split
  case h_1 cs hcs =>
    rw [hcs] at hdigit
    exact absurd (hdigit '-' List.mem_cons_self) (by decide)
  case h_2 cs hcs =>
    rw [hcs] at hdigit
    exact absurd (hdigit '+' List.mem_cons_self) (by decide)
  case h_3 =>
    rw [hs, naturalValue?_toDigits]
    change Option.filter _ (some (n : Int)) = _
    rw [Option.filter_some, if_pos]
    simp only [Bool.and_eq_true, decide_eq_true_eq]
    omega

theorem integer?_of_minus {s : String} (hs : s.toList = '-' :: Nat.toDigits 10 n)
    (hn : n ≤ 0x8000000000000000) : integer? s = some (-(n : Int)) := by
  unfold integer?
  split
  case h_1 cs hcs =>
    rw [(List.cons.inj (hcs.symm.trans hs)).2, naturalValue?_toDigits]
    change Option.filter _ (some (-(n : Int))) = _
    rw [Option.filter_some, if_pos]
    simp only [Bool.and_eq_true, decide_eq_true_eq]
    omega
  case h_2 cs hcs => exact absurd (List.cons.inj (hcs.symm.trans hs)).1 (by decide)
  case h_3 hnot _ => exact (hnot _ hs).elim

theorem toList_toString_ofNat (n : Nat) : (toString (n : Int)).toList = Nat.toDigits 10 n :=
  (Nat.toList_repr : (Nat.repr n).toList = _)

theorem toList_toString_negSucc (n : Nat) :
    (toString (Int.negSucc n)).toList = '-' :: Nat.toDigits 10 (n + 1) := by
  have hminus : toString (Int.negSucc n) = "-" ++ Nat.repr (n + 1) := rfl
  rw [hminus, String.toList_append, Nat.toList_repr]
  rfl

/-- **A number that fits is read as it is written.** -/
theorem integer?_toString (hlow : -0x8000000000000000 ≤ z) (hhigh : z < 0x8000000000000000) :
    integer? (toString z) = some z := by
  cases z with
  | ofNat n => exact integer?_of_toDigits (toList_toString_ofNat n) (Int.ofNat_lt.mp hhigh)
  | negSucc n => exact integer?_of_minus (toList_toString_negSucc n) (by omega)

theorem isBlank_of_isDigit {c : Char} (h : c.isDigit = true) : isBlank c = false := by
  obtain ⟨hlow, hhigh⟩ := Bool.and_eq_true_iff.mp h
  have hlow : 48 ≤ c.toNat := of_decide_eq_true hlow
  have hhigh : c.toNat ≤ 57 := of_decide_eq_true hhigh
  simp only [isBlank, inRanges, blankRanges, List.any_cons, List.any_nil, Bool.or_false,
    Bool.or_eq_false_iff, Bool.and_eq_false_iff, decide_eq_false_iff_not]
  omega

/-- A numeral is a word. -/
theorem isWord_toString (z : Int) : IsWord (toString z) := by
  have hdigits : ∀ n, ∀ c ∈ Nat.toDigits 10 n, isBlank c = false := fun n c hc =>
    isBlank_of_isDigit (isDigit_of_mem_toDigits hc)
  cases z with
  | ofNat n =>
    refine .of_toList (fun hnil => ?_) fun c hc => hdigits n c (toList_toString_ofNat n ▸ hc)
    exact Nat.toDigits_ne_nil ((toList_toString_ofNat n).symm.trans hnil)
  | negSucc n =>
    refine .of_toList (fun hnil => ?_) fun c hc => ?_
    · exact List.cons_ne_nil _ _ ((toList_toString_negSucc n).symm.trans hnil)
    · rw [toList_toString_negSucc] at hc
      rcases List.mem_cons.mp hc with rfl | hc
      · decide
      · exact hdigits (n + 1) c hc

/-- Hexadecimal digits are not blank. -/
theorem isBlank_of_mem_toDigits_sixteen (n : Nat) :
    ∀ c ∈ Nat.toDigits 16 n, isBlank c = false := by
  have hdigit : ∀ d < 16, isBlank (Nat.digitChar d) = false := by decide
  induction n using Nat.strong_induction_on with
  | _ n ih =>
    rw [Nat.toDigits_eq_if (by omega)]
    split
    case isTrue hlt => exact List.forall_mem_singleton.mpr (hdigit n hlt)
    case isFalse hge =>
      exact List.forall_mem_append.mpr ⟨ih (n / 16) (by omega),
        List.forall_mem_singleton.mpr (hdigit _ (Nat.mod_lt n (by omega)))⟩

/-- A hexadecimal numeral is a word, with zeros in front or without. -/
theorem isWord_hexPadded (width n : Nat) : IsWord (hexPadded width n) := by
  refine .of_toList ?_ ?_ <;> rw [hexPadded, String.toList_ofList]
  · exact List.append_ne_nil_of_right_ne_nil _ Nat.toDigits_ne_nil
  · refine List.forall_mem_append.mpr ⟨fun c hc => ?_, isBlank_of_mem_toDigits_sixteen n⟩
    rw [List.eq_of_mem_replicate hc]
    decide

/-! ## Words of 64 bits -/

theorem signed64_fits (n : Nat) :
    -0x8000000000000000 ≤ signed64 n ∧ signed64 n < 0x8000000000000000 := by
  unfold signed64
  dsimp only
  split <;> omega

/-- A value that fits is its own signed value. -/
theorem signed64_of_lt (hn : n < 0x8000000000000000) : signed64 n = (n : Int) := by
  have hword : n % 0x10000000000000000 = n := Nat.mod_eq_of_lt (by omega)
  unfold signed64
  rw [hword, if_pos hn]

/-! ## Torn numerals -/

/-- **The first digits of a number** are those of the number without its last digits. -/
theorem prefix_toDigits : ∀ (n : Nat) {ds : List Char}, ds <+: Nat.toDigits 10 n → ds ≠ [] →
    ∃ k, ds = Nat.toDigits 10 (n / 10 ^ k) ∧ (0 < k → 10 ^ k ≤ n) := by
  intro n
  induction n using Nat.strong_induction_on with
  | _ n ih =>
    intro ds hds hne
    rw [Nat.toDigits_eq_if (by omega)] at hds
    split at hds
    case isTrue hlt =>
      refine ⟨0, ?_, fun h => absurd h (Nat.lt_irrefl 0)⟩
      rw [Nat.pow_zero, Nat.div_one, Nat.toDigits_of_lt_base hlt]
      exact (List.prefix_cons_iff.mp hds).elim (fun h => absurd h hne) fun ⟨t, ht, hnil⟩ => by
        rw [ht, List.prefix_nil.mp hnil]
    case isFalse hge =>
      obtain rfl | hshort := List.prefix_concat_iff.mp hds
      · refine ⟨0, ?_, fun h => absurd h (Nat.lt_irrefl 0)⟩
        rw [Nat.pow_zero, Nat.div_one, ← Nat.toDigits_of_base_le (by omega) (by omega)]
      · obtain ⟨k, hk, hle⟩ := ih (n / 10) (by omega) hshort hne
        have hle : 10 ^ k ≤ n / 10 := by
          rcases Nat.eq_zero_or_pos k with rfl | hpos
          · omega
          · exact hle hpos
        refine ⟨k + 1, ?_, fun _ => ?_⟩
        · rw [hk, Nat.pow_succ', Nat.div_div_eq_div_mul]
        · rw [Nat.pow_succ]
          omega

/-- **A torn numeral** is nothing, a lone sign, or the numeral of the number without its last digits. -/
theorem prefix_toString {ds : List Char} (h : ds <+: (toString z).toList) :
    ds = [] ∨ ds = ['-'] ∨
      ∃ k, ds = (toString (z.tdiv (10 ^ k : Nat))).toList ∧ (0 < k → z.tdiv (10 ^ k : Nat) ≠ 0) := by
  cases z with
  | ofNat n =>
    rw [Int.ofNat_eq_natCast] at h ⊢
    rw [toList_toString_ofNat] at h
    refine (eq_or_ne ds []).imp_right fun hne => Or.inr ?_
    obtain ⟨k, rfl, hle⟩ := prefix_toDigits n h hne
    refine ⟨k, ?_, fun hk => ?_⟩
    · rw [← Int.ofNat_tdiv, toList_toString_ofNat]
    · rw [← Int.ofNat_tdiv]
      exact Int.natCast_ne_zero.mpr (Nat.ne_of_gt <| Nat.div_pos (hle hk) (Nat.pow_pos (by omega)))
  | negSucc n =>
    rw [toList_toString_negSucc] at h
    refine (List.prefix_cons_iff.mp h).imp_right fun ⟨digits, hds, hdigits⟩ => ?_
    subst hds
    refine (eq_or_ne digits []).imp (congrArg _) fun hne => ?_
    obtain ⟨k, rfl, hle⟩ := prefix_toDigits (n + 1) hdigits hne
    have hle : 10 ^ k ≤ n + 1 := by
      rcases Nat.eq_zero_or_pos k with rfl | hk
      · omega
      · exact hle hk
    obtain ⟨m, hm⟩ := Nat.exists_eq_succ_of_ne_zero
      (Nat.ne_of_gt <| Nat.div_pos hle (Nat.pow_pos (by omega)))
    have hdiv : (Int.negSucc n).tdiv (10 ^ k : Nat) = Int.negSucc m := by
      rw [Int.negSucc_eq, Int.neg_tdiv, Int.negSucc_eq]
      exact congrArg Neg.neg (by exact_mod_cast congrArg Int.ofNat hm)
    refine ⟨k, ?_, fun _ => ?_⟩
    · rw [hdiv, toList_toString_negSucc, hm]
    · rw [hdiv]
      exact Int.negSucc_ne_zero m

end NetPlan.Text
