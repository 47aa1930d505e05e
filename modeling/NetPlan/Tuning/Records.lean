import NetPlan.Text.Word

/-!
# Tuning/Records — tuning results as text

A record is three words: fingerprint, implementation and variant, where a negative variant names
the default.  Records are appended, so the last one for a fingerprint counts; reading stops at the
first incomplete or malformed record.
-/

namespace NetPlan.Tuning

/-- The winner for one fingerprint; variant `none` is the implementation's default. -/
structure Entry where
  implementation : String
  variant : Option Nat
  deriving DecidableEq

/-- Winners by fingerprint, one entry each. -/
structure Records where
  entries : List (String × Entry)

namespace Records

/-- No records. -/
def empty : Records := ⟨[]⟩

/-- The entry of a fingerprint. -/
def lookup (r : Records) (hash : String) : Option Entry :=
  (r.entries.find? (·.1 = hash)).map (·.2)

/-- Records an entry in place of any earlier one for the fingerprint. -/
def insert (r : Records) (hash : String) (entry : Entry) : Records :=
  ⟨(hash, entry) :: r.entries.filter (·.1 ≠ hash)⟩

/-- The number of records. -/
def size (r : Records) : Nat := r.entries.length

/-- A variant: a signed integer, negative for the default. -/
def variant? (word : String) : Option (Option Nat) :=
  (Text.integer? word).map fun v => if v < 0 then none else some v.toNat

/-- Adds the records of a list of words. -/
def addWords (r : Records) : List String → Records
  | hash :: name :: index :: rest =>
    match variant? index with
    | some variant => (r.insert hash ⟨name, variant⟩).addWords rest
    | none => r
  | _ => r

/-- Reads records. -/
def parse (text : String) : Records := empty.addWords (Text.words text)

/-- One record as a line of text. -/
def line (hash : String) (entry : Entry) : String :=
  let index : Int := match entry.variant with
    | none => -1
    | some i => Text.signed64 i
  s!"{hash} {entry.implementation} {index}\n"

end Records

/-- Where records are kept between selections. -/
inductive CacheFile where
  /-- No file is in use. -/
  | unset
  /-- The file does not exist yet. -/
  | absent
  /-- The file holds this text. -/
  | text (contents : String)
  /-- The file holds this text, and cannot be written. -/
  | readOnly (contents : String)
  /-- The file can be written and holds bytes that are not read, being no text or out of bounds. -/
  | unreadable (bytes : List UInt8)
  /-- The file can be neither read nor written. -/
  | unusable
  deriving DecidableEq

namespace CacheFile

/-- The records in the file; a file that cannot be read holds none. -/
def load : CacheFile → Records
  | .text contents | .readOnly contents => Records.parse contents
  | _ => Records.empty

/-- The file with one more record; a file that cannot be written stays as it is. -/
def store (f : CacheFile) (hash : String) (entry : Entry) : CacheFile :=
  match f with
  | .absent => .text (Records.line hash entry)
  | .text contents => .text (contents ++ Records.line hash entry)
  | .unreadable bytes => .unreadable (bytes ++ (Records.line hash entry).toUTF8.toList)
  | other => other

/-- The text of the file, if it has one. -/
def contents? : CacheFile → Option String
  | .text contents | .readOnly contents => some contents
  | _ => none

end CacheFile

end NetPlan.Tuning
