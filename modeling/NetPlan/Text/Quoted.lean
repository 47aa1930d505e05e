import NetPlan.Text.Class

/-!
# Text/Quoted — quoted strings, lists and tuples

The text of a value inside a listing: strings in double quotes with escapes, lists in brackets,
tuples in parentheses.
-/

namespace NetPlan.Text

/-- Hexadecimal digits of a number, lower case. -/
def hexDigits (n : Nat) : String := String.ofList (Nat.toDigits 16 n)

/-- A number as `width` hexadecimal digits, zeros in front. -/
def hexPadded (width n : Nat) : String :=
  let ds := Nat.toDigits 16 n
  String.ofList (List.replicate (width - ds.length) '0' ++ ds)

/-- Ranges of code points that leave no trace on a page or none that is agreed on: controls, format
characters, blanks other than the plain space, private use (categories `Cc`, `Cf`, `Zs`, `Zl`, `Zp`,
`Co`), and all that has the property `Default_Ignorable_Code_Point`. -/
def invisibleRanges : List CodeRange :=
  [(0x0, 0x1f), (0x7f, 0xa0), (0xad, 0xad), (0x34f, 0x34f), (0x600, 0x605), (0x61c, 0x61c),
    (0x6dd, 0x6dd), (0x70f, 0x70f), (0x890, 0x891), (0x8e2, 0x8e2), (0x115f, 0x1160),
    (0x1680, 0x1680), (0x17b4, 0x17b5), (0x180b, 0x180f), (0x2000, 0x200f), (0x2028, 0x202f),
    (0x205f, 0x206f), (0x3000, 0x3000), (0x3164, 0x3164), (0xe000, 0xf8ff), (0xfe00, 0xfe0f),
    (0xfeff, 0xfeff), (0xffa0, 0xffa0), (0xfff0, 0xfffb), (0x110bd, 0x110bd), (0x110cd, 0x110cd),
    (0x13430, 0x1343f), (0x1bca0, 0x1bca3), (0x1d173, 0x1d17a), (0xe0000, 0xe0fff),
    (0xf0000, 0xffffd), (0x100000, 0x10fffd)]

/-- Whether a character is written by its code point: it could not be told from its neighbours, or
it would be drawn on one of them. -/
def isHidden (c : Char) : Bool := inRanges invisibleRanges c || isMark c || isUnassigned c

/-- A character inside a quoted string: the two delimiters and the hidden characters are
escaped. -/
def escaped (c : Char) : String :=
  if c = '"' then "\\\""
  else if c = '\\' then "\\\\"
  else if c = '\n' then "\\n"
  else if c = '\r' then "\\r"
  else if c = '\t' then "\\t"
  else if c.toNat = 0 then "\\0"
  else if isHidden c then "\\u\x7b" ++ hexDigits c.toNat ++ "\x7d"
  else c.toString

/-- A string in double quotes. -/
def quoted (s : String) : String :=
  "\"" ++ String.join (s.toList.map escaped) ++ "\""

/-- Items in brackets, separated by commas. -/
def bracketed (items : List String) : String := "[" ++ ", ".intercalate items ++ "]"

/-- Items in parentheses, separated by commas. -/
def tuple (items : List String) : String := "(" ++ ", ".intercalate items ++ ")"

/-- A record: its name and its fields in braces. -/
def record (name : String) (fields : List (String × String)) : String :=
  let body := ", ".intercalate (fields.map fun (field, value) => field ++ ": " ++ value)
  name ++ " \x7b " ++ body ++ " \x7d"

/-- An optional value, spelled `Some(_)` or `None`. -/
def optional : Option String → String
  | some s => "Some(" ++ s ++ ")"
  | none => "None"

end NetPlan.Text
