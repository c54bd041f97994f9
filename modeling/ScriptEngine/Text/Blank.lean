set_option autoImplicit false

/-!
# Text: blank characters

A property of characters is given by the ranges of the code points that have it.
This module has the characters with the Unicode property `White_Space`, and the
removal of those at both ends of a text.
-/

namespace ScriptEngine.Text

/-- Some range of a table holds `n`. -/
def covers (ranges : List (Nat × Nat)) (n : Nat) : Bool :=
  ranges.any fun r => decide (r.1 ≤ n ∧ n ≤ r.2)

/-- The ranges of code points with the property `White_Space`, both ends
included. -/
def blankRanges : List (Nat × Nat) :=
  [(0x09, 0x0d), (0x20, 0x20), (0x85, 0x85), (0xa0, 0xa0), (0x1680, 0x1680),
   (0x2000, 0x200a), (0x2028, 0x2029), (0x202f, 0x202f), (0x205f, 0x205f),
   (0x3000, 0x3000)]

/-- `c` has the property `White_Space`. -/
def isBlank (c : Char) : Bool := covers blankRanges c.toNat

/-- `text` without the blanks at its two ends. -/
def trim (text : String) : String :=
  String.ofList
    ((text.toList.dropWhile isBlank).reverse.dropWhile isBlank).reverse

end ScriptEngine.Text
