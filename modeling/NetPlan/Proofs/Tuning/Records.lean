import NetPlan.Proofs.Text.Numeral
import NetPlan.Tuning.Records

/-!
# Proofs/Tuning/Records — what a file of records says

Records are added at the end of a text and read from its start, word by word.  Reading whole records and
then more is reading both, where the later record of a fingerprint counts (`lookup_parse_append`).

* `last_write_wins` — so a file that was only written to by adding records holds the last entry that was
  stored for each fingerprint.

A record is added behind whatever stands in a file, and reading stops at the first record whose index is
none.

* `load_store` — behind whole records, what was stored is found and no other entry changes; behind a record
  without an index, nothing that is stored changes what is read.
* `load_store_unread` — so a result can be stored and not be found.
-/

namespace NetPlan.Tuning

open Text

namespace Records

variable {r : Records} {hash name : String} {entry : Entry} {text : String}

/-! ## Whole records -/

/-- Words in threes, the third of each a variant. -/
def AreRecords : List String → Prop
  | [] => True
  | _ :: _ :: index :: rest => (variant? index).isSome = true ∧ AreRecords rest
  | _ => False

/-- A text of whole records, with a blank behind the last. -/
structure Whole (text : String) : Prop where
  closed : Closed text
  records : AreRecords (words text)

theorem whole_empty : Whole "" := ⟨closed_empty, trivial⟩

theorem areRecords_append : ∀ {ws vs : List String}, AreRecords ws → AreRecords vs →
    AreRecords (ws ++ vs)
  | [], _, _, hvs => hvs
  | _ :: _ :: _ :: _, _, ⟨hindex, hrest⟩, hvs => ⟨hindex, areRecords_append hrest hvs⟩
  | [_], _, h, _ => h.elim
  | [_, _], _, h, _ => h.elim

theorem Whole.append {more : String} (h : Whole text) (hmore : Whole more) : Whole (text ++ more) :=
  ⟨h.closed.append hmore.closed,
    words_append h.closed more ▸ areRecords_append h.records hmore.records⟩

/-- Whole records are read to their end. -/
theorem addWords_append : ∀ {ws : List String}, AreRecords ws → ∀ (r : Records) (vs : List String),
    r.addWords (ws ++ vs) = (r.addWords ws).addWords vs
  | [], _, _, _ => rfl
  | hash :: name :: index :: rest, ⟨hindex, hrest⟩, r, vs => by
      obtain ⟨variant, hvariant⟩ := Option.isSome_iff_exists.mp hindex
      simp only [List.cons_append, addWords, hvariant]
      exact addWords_append hrest _ vs

/-! ## Entries -/

theorem lookup_insert (r : Records) (hash : String) (entry : Entry) (other : String) :
    (r.insert hash entry).lookup other = if hash = other then some entry else r.lookup other := by
  unfold insert lookup
  rw [List.find?_cons]
  by_cases hsame : hash = other
  · simp [hsame]
  · have hfilter : (r.entries.filter (·.1 ≠ hash)).find? (·.1 = other)
        = r.entries.find? (·.1 = other) := by
      rw [List.find?_filter]
      refine congrArg (r.entries.find? ·) (funext fun e => ?_)
      by_cases he : e.1 = other
      · simp [he, Ne.symm hsame]
      · simp [he]
    rw [hfilter]
    simp [hsame]

/-- What was on record counts where the words say nothing. -/
theorem lookup_addWords (other : String) : ∀ (ws : List String) (r : Records),
    (r.addWords ws).lookup other = ((empty.addWords ws).lookup other).or (r.lookup other)
  | hash :: name :: index :: rest, r => by
      rw [addWords, addWords]
      cases variant? index with
      | none => rfl
      | some variant =>
        dsimp only
        rw [lookup_addWords other rest (r.insert _ _), lookup_addWords other rest (empty.insert _ _),
          Option.or_assoc, lookup_insert, lookup_insert]
        split <;> rfl
  | [], _ => rfl
  | [_], _ => rfl
  | [_, _], _ => rfl

/-- **Later records count over whole records before them.** -/
theorem lookup_parse_append (h : Whole text) (more other : String) :
    (parse (text ++ more)).lookup other = ((parse more).lookup other).or ((parse text).lookup other) := by
  rw [parse, words_append h.closed, addWords_append h.records, lookup_addWords]
  rfl

/-- No fingerprint has two entries. -/
def Distinct (r : Records) : Prop := (r.entries.map Prod.fst).Nodup

theorem distinct_empty : empty.Distinct := List.nodup_nil

theorem Distinct.insert (h : r.Distinct) (hash : String) (entry : Entry) :
    (r.insert hash entry).Distinct := by
  refine List.nodup_cons.mpr ⟨fun hmem => ?_, h.sublist (List.filter_sublist.map _)⟩
  obtain ⟨e, he, hkey⟩ := List.mem_map.mp hmem
  exact of_decide_eq_true (List.mem_filter.mp he).2 hkey

theorem Distinct.addWords : ∀ {ws : List String} {r : Records}, r.Distinct → (r.addWords ws).Distinct
  | hash :: name :: index :: rest, r, h => by
      rw [Records.addWords]
      cases variant? index with
      | none => exact h
      | some variant => exact (h.insert hash ⟨name, variant⟩).addWords
  | [], _, h => h
  | [_], _, h => h
  | [_, _], _, h => h

theorem distinct_parse (text : String) : (parse text).Distinct := distinct_empty.addWords

/-! ## Written records -/

/-- The number that stands for a variant in a record. -/
def indexOf : Option Nat → Int
  | none => -1
  | some i => signed64 i

/-- The variant that a number stands for. -/
def variantOf (index : Int) : Option Nat := if index < 0 then none else some index.toNat

theorem variant?_toString {index : Int} (hlow : -0x8000000000000000 ≤ index)
    (hhigh : index < 0x8000000000000000) : variant? (toString index) = some (variantOf index) := by
  rw [variant?, integer?_toString hlow hhigh]
  rfl

theorem indexOf_fits : ∀ variant : Option Nat,
    -0x8000000000000000 ≤ indexOf variant ∧ indexOf variant < 0x8000000000000000
  | none => by decide
  | some i => signed64_fits i

theorem line_eq (hash : String) (entry : Entry) : line hash entry
    = hash ++ " " ++ entry.implementation ++ " " ++ toString (indexOf entry.variant) ++ "\n" := by
  obtain ⟨name, variant⟩ := entry
  cases variant <;> rfl

/-- A record whose fingerprint and name are words. -/
structure Legible (hash : String) (entry : Entry) : Prop where
  hash : IsWord hash
  name : IsWord entry.implementation

/-- What a legible record says: an index that is too large is negative in it. -/
def recorded (entry : Entry) : Entry := ⟨entry.implementation, variantOf (indexOf entry.variant)⟩

theorem words_line (h : Legible hash entry) : words (line hash entry)
    = [hash, entry.implementation, toString (indexOf entry.variant)] := by
  have hspace : isBlank ' ' = true := by decide
  have hnewline : isBlank '\n' = true := by decide
  have hline : (line hash entry).toList = hash.toList ++ ' ' :: (entry.implementation.toList
      ++ ' ' :: ((toString (indexOf entry.variant)).toList ++ ['\n'])) := by
    rw [line_eq]
    simp only [String.toList_append, List.append_assoc]
    rfl
  rw [words, hline, wordsFrom_append_blank hspace, wordsFrom_append_blank hspace,
    wordsFrom_append_blank hnewline, h.hash.wordsFrom, h.name.wordsFrom, (isWord_toString _).wordsFrom]
  simp [wordsFrom, closeWord]

theorem whole_line (h : Legible hash entry) : Whole (line hash entry) where
  closed := line_eq hash entry ▸ closed_append_newline _
  records := by
    obtain ⟨hlow, hhigh⟩ := indexOf_fits entry.variant
    rw [words_line h]
    exact ⟨Option.isSome_iff_exists.mpr ⟨_, variant?_toString hlow hhigh⟩, trivial⟩

theorem parse_line (h : Legible hash entry) :
    parse (line hash entry) = empty.insert hash (recorded entry) := by
  obtain ⟨hlow, hhigh⟩ := indexOf_fits entry.variant
  rw [parse, words_line h, addWords, variant?_toString hlow hhigh]
  rfl

/-- What can be recorded: its variant fits. -/
structure Storable (hash : String) (entry : Entry) : Prop extends Legible hash entry where
  variant : ∀ i, entry.variant = some i → i < 0x8000000000000000

/-- **A record says what was recorded.** -/
theorem Storable.recorded_eq (h : Storable hash entry) : recorded entry = entry := by
  obtain ⟨name, variant⟩ := entry
  cases variant with
  | none => rfl
  | some i =>
    rw [recorded, indexOf, signed64_of_lt (h.variant i rfl), variantOf,
      if_neg (Int.not_lt.mpr (Int.natCast_nonneg i)), Int.toNat_natCast]

/-- The text of records that were written one after another. -/
def written (writes : List (String × Entry)) : String :=
  String.join (writes.map fun w => line w.1 w.2)

theorem written_nil : written [] = "" := String.join_nil

theorem written_cons (w : String × Entry) (writes : List (String × Entry)) :
    written (w :: writes) = line w.1 w.2 ++ written writes := String.join_cons

theorem whole_written : ∀ {writes : List (String × Entry)}, (∀ w ∈ writes, Legible w.1 w.2) →
    Whole (written writes)
  | [], _ => written_nil ▸ whole_empty
  | w :: writes, h => by
      obtain ⟨hw, hwrites⟩ := List.forall_mem_cons.mp h
      exact written_cons w writes ▸ (whole_line hw).append (whole_written hwrites)

/-- **What is read of written records** is what the last record of each fingerprint says. -/
theorem lookup_parse_written (hash : String) : ∀ {writes : List (String × Entry)},
    (∀ w ∈ writes, Legible w.1 w.2) →
      (parse (written writes)).lookup hash = (writes.reverse.lookup hash).map recorded
  | [], _ => by
      rw [written_nil]
      rfl
  | (key, entry) :: writes, h => by
      obtain ⟨hw, hwrites⟩ := List.forall_mem_cons.mp h
      have hline : (parse (line key entry)).lookup hash
          = ([(key, entry)].lookup hash).map recorded := by
        rw [parse_line hw, lookup_insert]
        dsimp only
        by_cases hsame : key = hash
        · rw [if_pos hsame, hsame, List.lookup_cons_self]
          rfl
        · rw [if_neg hsame, List.lookup_cons, beq_false_of_ne (Ne.symm hsame)]
          rfl
      rw [written_cons, lookup_parse_append (whole_line hw), lookup_parse_written hash hwrites, hline,
        List.reverse_cons, List.lookup_append, Option.map_or]

end Records

/-! ## Files -/

namespace CacheFile

open Records

/-- A file that can be written and holds whole records, or none. -/
def Intact : CacheFile → Prop
  | .absent => True
  | .text contents => Whole contents
  | _ => False

/-- **What was stored last is found.** -/
theorem Intact.lookup_store {f : CacheFile} {hash : String} {entry : Entry} (hf : f.Intact)
    (h : Storable hash entry) : (f.store hash entry).load.lookup hash = some entry := by
  have hline : (parse (line hash entry)).lookup hash = some entry := by
    rw [parse_line h.toLegible, lookup_insert, if_pos rfl, h.recorded_eq]
  cases f with
  | absent => exact hline
  | text contents =>
    refine (lookup_parse_append hf _ hash).trans ?_
    rw [hline]
    rfl
  | unset | readOnly | unreadable | unusable => exact hf.elim

/-- The file after records have been stored one after another. -/
def storeAll (f : CacheFile) (writes : List (String × Entry)) : CacheFile :=
  writes.foldl (fun f w => f.store w.1 w.2) f

theorem storeAll_text : ∀ (writes : List (String × Entry)) (contents : String),
    (CacheFile.text contents).storeAll writes = .text (contents ++ written writes)
  | [], contents => by
      rw [written_nil, String.append_empty]
      rfl
  | w :: writes, contents => by
      rw [written_cons, ← String.append_assoc]
      exact storeAll_text writes _

/-- A file that did not exist holds what was written to it. -/
theorem load_storeAll_absent : ∀ writes : List (String × Entry),
    (absent.storeAll writes).load = parse (written writes)
  | [] => by
      rw [written_nil]
      rfl
  | w :: writes => by
      rw [written_cons]
      exact congrArg load (storeAll_text writes _)

/-- **The last writer wins.**  A file that was written record by record holds one entry for every
fingerprint in it, the one that was stored last.  And what stands behind whole records counts over them,
whatever it is. -/
theorem last_write_wins :
    (∀ writes : List (String × Entry), (∀ w ∈ writes, Storable w.1 w.2) →
      (absent.storeAll writes).load.Distinct ∧
        ∀ hash, (absent.storeAll writes).load.lookup hash = writes.reverse.lookup hash) ∧
    ∀ before after : String, Whole before → ∀ hash,
      (parse (before ++ after)).lookup hash
        = ((parse after).lookup hash).or ((parse before).lookup hash) := by
  refine ⟨fun writes hwrites => ?_, fun before after hbefore => lookup_parse_append hbefore after⟩
  rw [load_storeAll_absent]
  refine ⟨distinct_parse _, fun hash => ?_⟩
  rw [lookup_parse_written hash fun w hw => (hwrites w hw).toLegible]
  -- an entry that was found was written, so its record says just that
  cases hfound : writes.reverse.lookup hash with
  | none => rfl
  | some entry =>
    obtain ⟨earlier, later, hsplit, -⟩ := List.lookup_eq_some_iff.mp hfound
    have hmem : (hash, entry) ∈ writes.reverse := hsplit ▸ List.mem_append_right _ List.mem_cons_self
    exact congrArg some (hwrites _ (List.mem_reverse.mp hmem)).recorded_eq

/-- Two results for one fingerprint, the later without a variant, and one for another between them. -/
def retuned : List (String × Entry) :=
  [("2d", ⟨"convolution", some 12⟩), ("7f", ⟨"softmax", some 0⟩), ("2d", ⟨"pooling", none⟩)]

theorem last_write_wins_retuned :
    (∀ w ∈ retuned, Storable w.1 w.2) ∧
      (absent.storeAll retuned).load.lookup "2d" = some ⟨"pooling", none⟩ ∧
      (absent.storeAll retuned).load.lookup "7f" = some ⟨"softmax", some 0⟩ ∧
      (absent.storeAll retuned).load.Distinct ∧
    Whole (written retuned) ∧
      (parse (written retuned ++ "7f max +3 2d")).lookup "7f" = some ⟨"max", some 3⟩ ∧
      (parse (written retuned ++ "7f max +3 2d")).lookup "2d" = some ⟨"pooling", none⟩ := by
  have hstorable : ∀ w ∈ retuned, Storable w.1 w.2 :=
    List.forall_mem_cons.mpr ⟨⟨⟨by decide, by decide⟩, by rintro _ ⟨⟩; decide⟩,
      List.forall_mem_cons.mpr ⟨⟨⟨by decide, by decide⟩, by rintro _ ⟨⟩; decide⟩,
        List.forall_mem_singleton.mpr ⟨⟨by decide, by decide⟩, by rintro _ ⟨⟩⟩⟩⟩
  have hwhole : Whole (written retuned) := whole_written fun w hw => (hstorable w hw).toLegible
  obtain ⟨hdistinct, hlast⟩ := last_write_wins.1 retuned hstorable
  have hover := last_write_wins.2 _ "7f max +3 2d" hwhole
  exact ⟨hstorable, (hlast "2d").trans (by decide), (hlast "7f").trans (by decide), hdistinct, hwhole,
    (hover "7f").trans (by decide), (hover "2d").trans (by decide)⟩

end CacheFile

/-! ## Whether a record that was added is read -/

open Text

namespace Records

variable {before : String}

/-- Words in threes up to a record without an index. -/
def Halts : List String → Prop
  | _ :: _ :: index :: rest => variant? index = none ∨ Halts rest
  | _ => False

/-- What stands behind a record without an index is not read. -/
theorem addWords_of_halts : ∀ {ws : List String}, Halts ws → ∀ (r : Records) (vs : List String),
    r.addWords (ws ++ vs) = r.addWords ws
  | hash :: name :: index :: rest, h, r, vs => by
      simp only [List.cons_append, addWords]
      cases hindex : variant? index with
      | none => rfl
      | some variant =>
        have hrest : Halts rest := h.resolve_left (hindex ▸ Option.some_ne_none variant)
        exact addWords_of_halts hrest _ vs

/-- Words in threes are records as far as none of them is without an index. -/
theorem areRecords_or_halts : ∀ {ws : List String}, 3 ∣ ws.length → AreRecords ws ∨ Halts ws
  | [], _ => Or.inl trivial
  | [_], h => absurd (show 3 ∣ 1 from h) (by decide)
  | [_, _], h => absurd (show 3 ∣ 2 from h) (by decide)
  | _ :: _ :: index :: rest, h => by
      have hrest : 3 ∣ rest.length := (Nat.dvd_add_left (Nat.dvd_refl 3)).mp h
      rcases hindex : variant? index with _ | variant
      · exact Or.inr (Or.inl hindex)
      · have hsome : (variant? index).isSome = true := hindex ▸ rfl
        exact (areRecords_or_halts hrest).imp (fun hr => ⟨hsome, hr⟩) Or.inr

/-- **Reading stops for good**: whatever is put behind a text with a record without an index, what is read
is the same. -/
theorem parse_append_of_halts (hclosed : Closed before) (h : Halts (words before)) (after : String) :
    parse (before ++ after) = parse before := by
  rw [parse, words_append hclosed, addWords_of_halts h]
  rfl

end Records

namespace CacheFile

open Records

variable {f : CacheFile} {hash : String} {entry : Entry}

/-- The other entries stay. -/
theorem Intact.lookup_store_of_ne (hf : f.Intact) (h : Legible hash entry) {other : String}
    (hother : other ≠ hash) : (f.store hash entry).load.lookup other = f.load.lookup other := by
  have hline : (parse (line hash entry)).lookup other = none := by
    rw [parse_line h, lookup_insert, if_neg hother.symm]
    rfl
  match f, hf with
  | .absent, _ => exact hline
  | .text contents, hf =>
    refine (lookup_parse_append hf _ other).trans ?_
    rw [hline]
    rfl

/-- **Whether what was stored is found.**  Where a file does not exist or holds whole records, it is, and
every other entry stays.  Where a record without an index stands in the file, what is read stays what it
was.  A text of words in threes with a blank behind the last is of one of these kinds. -/
theorem load_store (h : Storable hash entry) :
    (∀ f : CacheFile, f.Intact →
      (f.store hash entry).load.lookup hash = some entry ∧
        ∀ other, other ≠ hash → (f.store hash entry).load.lookup other = f.load.lookup other) ∧
    (∀ before after : String, Closed before → Halts (words before) →
      ((text (before ++ after)).store hash entry).load = (text (before ++ after)).load) ∧
    ∀ contents : String, Closed contents → 3 ∣ (words contents).length →
      (text contents).Intact ∨ Halts (words contents) := by
  refine ⟨fun f hf => ⟨hf.lookup_store h, fun other => hf.lookup_store_of_ne h.toLegible⟩, ?_, ?_⟩
  · intro before after hclosed hhalts
    change parse (before ++ after ++ line hash entry) = parse (before ++ after)
    rw [String.append_assoc, parse_append_of_halts hclosed hhalts, parse_append_of_halts hclosed hhalts]
  · intro contents hclosed hthrees
    exact (areRecords_or_halts hthrees).imp_left fun hrecords => ⟨hclosed, hrecords⟩

/-- A record, and one whose index is no numeral. -/
def garbled : String := "7f softmax 0\n2d convolution x\n"

theorem closed_garbled : Closed garbled := closed_append_newline "7f softmax 0\n2d convolution x"

theorem load_store_garbled :
    Storable "2d" ⟨"convolution", some 12⟩ ∧
    (absent.store "2d" ⟨"convolution", some 12⟩).load.lookup "2d" = some ⟨"convolution", some 12⟩ ∧
    ((text garbled).store "2d" ⟨"convolution", some 12⟩).load = (text garbled).load ∧
    ((text garbled).Intact ∨ Halts (words garbled)) := by
  have hstorable : Storable "2d" ⟨"convolution", some 12⟩ :=
    ⟨⟨by decide, by decide⟩, by rintro _ ⟨⟩; decide⟩
  have hhalts : Halts (words garbled) := by
    rw [show words garbled = ["7f", "softmax", "0", "2d", "convolution", "x"] by decide]
    exact Or.inr (Or.inl (by decide))
  obtain ⟨hintact, hsame, hkinds⟩ := load_store hstorable
  have hload := hsame garbled "" closed_garbled hhalts
  rw [String.append_empty] at hload
  exact ⟨hstorable, (hintact absent trivial).1, hload, hkinds garbled closed_garbled (by decide)⟩

/-- **A result can be stored and not be found**: behind a record without an index. -/
theorem load_store_unread :
    Storable "2d" ⟨"convolution", some 12⟩ ∧
    (text garbled).store "2d" ⟨"convolution", some 12⟩ = .text (garbled ++ "2d convolution 12\n") ∧
    ((text garbled).store "2d" ⟨"convolution", some 12⟩).load.lookup "2d" = none := by
  refine ⟨⟨⟨by decide, by decide⟩, by rintro _ ⟨⟩; decide⟩, by decide, by decide⟩

end CacheFile

end NetPlan.Tuning
