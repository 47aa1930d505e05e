import NetPlan.Text.Class

/-!
# Text/Word — words, and the integers that they spell

The blank characters are those with the Unicode property `White_Space`; a word is a longest run of
characters that are not blank.  A numeral is an optional sign and at least one decimal digit, and names
a value that fits 64 bits.
-/

namespace NetPlan.Text

/-- Ranges of code points with the property `White_Space`. -/
def blankRanges : List CodeRange :=
  [(0x09, 0x0d), (0x20, 0x20), (0x85, 0x85), (0xa0, 0xa0), (0x1680, 0x1680), (0x2000, 0x200a),
    (0x2028, 0x2029), (0x202f, 0x202f), (0x205f, 0x205f), (0x3000, 0x3000)]

/-- Whether a character is blank. -/
def isBlank (c : Char) : Bool := inRanges blankRanges c

/-- Puts a finished word in front of the words that follow it; an empty run is no word. -/
def closeWord (word : List Char) (rest : List (List Char)) : List (List Char) :=
  if word.isEmpty then rest else word.reverse :: rest

/-- Words of a text, given the characters of the open word in reverse. -/
def wordsFrom : List Char → List Char → List (List Char)
  | word, [] => closeWord word []
  | word, c :: cs =>
    if isBlank c then closeWord word (wordsFrom [] cs) else wordsFrom (c :: word) cs

/-- Words of a text, in order. -/
def words (s : String) : List String :=
  (wordsFrom [] s.toList).map String.ofList

/-- A text without the blanks at its two ends. -/
def trim (s : String) : String :=
  String.ofList ((s.toList.dropWhile isBlank).reverse.dropWhile isBlank).reverse

/-! ## Numerals -/

/-- Value of a run of decimal digits, `none` when a character is no digit. -/
def digitsValue? (start : Nat) : List Char → Option Nat
  | [] => some start
  | c :: cs => if c.isDigit then digitsValue? (10 * start + (c.toNat - 48)) cs else none

/-- Value of a numeral without its sign. -/
def naturalValue? : List Char → Option Nat
  | [] => none
  | cs => digitsValue? 0 cs

/-- Reads a signed 64-bit integer. -/
def integer? (s : String) : Option Int :=
  let value? : Option Int := match s.toList with
    | '-' :: cs => (naturalValue? cs).map fun n => -(n : Int)
    | '+' :: cs => (naturalValue? cs).map fun n => (n : Int)
    | cs => (naturalValue? cs).map fun n => (n : Int)
  value?.filter fun v => -0x8000000000000000 ≤ v && v < 0x8000000000000000

/-- The signed value of a 64-bit word. -/
def signed64 (n : Nat) : Int :=
  let word : Nat := n % 0x10000000000000000
  if word < 0x8000000000000000 then (word : Int) else (word : Int) - 0x10000000000000000

end NetPlan.Text
