set_option autoImplicit false

/-!
# Text: columns and digits

Listings and tables are laid out in columns, and a column's width is counted in
characters.  This module holds the padding of a text to a width, the decimal and
hexadecimal digits of a number, and nothing that knows what is being listed.
-/

namespace ScriptEngine.Text

/-! ## Padding -/

/-- The characters that are missing from `text` to fill `width`. -/
def filling (fill : Char) (width : Nat) (text : String) : String :=
  String.ofList (List.replicate (width - text.length) fill)

/-- `text` at the right edge of a column. -/
def padLeft (fill : Char) (width : Nat) (text : String) : String :=
  filling fill width text ++ text

/-- `text` at the left edge of a column of blanks. -/
def padRight (width : Nat) (text : String) : String :=
  text ++ filling ' ' width text

/-! ## Digits -/

/-- The decimal digits of a number, without leading zeros. -/
def decimal (n : Nat) : String := String.ofList (Nat.toDigits 10 n)

/-- A number at the right edge of a column. -/
def decimalColumn (width n : Nat) : String := padLeft ' ' width (decimal n)

/-- A number with leading zeros up to `width` digits. -/
def decimalZeros (width n : Nat) : String := padLeft '0' width (decimal n)

/-- A byte as two lower-case hexadecimal digits. -/
def hexByte (b : UInt8) : String :=
  String.ofList [Nat.digitChar (b.toNat / 16), Nat.digitChar (b.toNat % 16)]

end ScriptEngine.Text
