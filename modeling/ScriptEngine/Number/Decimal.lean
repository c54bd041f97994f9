import ScriptEngine.Text.Column
set_option autoImplicit false

/-!
# Numbers: decimal numerals

A number of the language is a double, and its written form is a decimal numeral
without an exponent.  Reading a numeral rounds to the nearest double; writing a
double takes the fewest digits that read back, the nearer numeral of those with
that many digits, and the larger of two that are equally near.

The search of `shortest` tests each candidate by reading it.  Its last candidate
is the double's exact value, so the search never ends without an answer that
stands for the double itself.
-/

namespace ScriptEngine

/-- The numeral `digits / 10 ^ places`. -/
structure Decimal where
  /-- All digits, read as one whole number. -/
  digits : Nat
  /-- How many of the digits stand after the point. -/
  places : Nat
  deriving DecidableEq, Repr, Inhabited

namespace Decimal

/-! ## Reading -/

/-- The nearest double; of two that are equally near, the one with the even
significand. -/
def toFloat (d : Decimal) : Float := Float.ofScientific d.digits true d.places

/-- The value of a run of decimal digits. -/
def ofDigits (cs : List Char) : Nat :=
  cs.foldl (fun n c => 10 * n + (c.toNat - '0'.toNat)) 0

/-- The numeral with the whole part `whole` and the digits `fraction` after the
point. -/
def ofParts (whole fraction : List Char) : Decimal :=
  ⟨ofDigits (whole ++ fraction), fraction.length⟩

/-- Reads digits with at most one point among them.  At least one digit stands
before the point, and at least one after it. -/
def ofText? (text : String) : Option Decimal :=
  let whole := text.toList.takeWhile Char.isDigit
  match whole, text.toList.dropWhile Char.isDigit with
  | [], _ => none
  | _, [] => some (ofParts whole [])
  | _, '.' :: fraction =>
      if fraction.isEmpty || fraction.any (fun c => !c.isDigit) then none
      else some (ofParts whole fraction)
  | _, _ => none

/-! ## Writing -/

/-- The numeral without the zeros at the end of its fraction. -/
def trim (digits : Nat) : Nat → Decimal
  | 0 => ⟨digits, 0⟩
  | places + 1 =>
      if digits % 10 = 0 then trim (digits / 10) places else ⟨digits, places + 1⟩

/-- All digits, with a point before the last `places` of them. -/
def toText (d : Decimal) : String :=
  if d.places = 0 then Text.decimal d.digits
  else
    Text.decimal (d.digits / Nat.pow 10 d.places) ++ "." ++
      Text.decimalZeros d.places (d.digits % Nat.pow 10 d.places)

/-- The numeral that stands for `significand * 2 ^ exponent` exactly. -/
def exact (significand : Nat) (exponent : Int) : Decimal :=
  match exponent with
  | .ofNat e => ⟨significand * Nat.pow 2 e, 0⟩
  | .negSucc e => ⟨significand * Nat.pow 5 (e + 1), e + 1⟩

/-- `head` followed by as many zeros as there were digits dropped from `d`. -/
def withDropped (d : Decimal) (dropped head : Nat) : Decimal :=
  if dropped ≤ d.places then ⟨head, d.places - dropped⟩
  else ⟨head * Nat.pow 10 (dropped - d.places), 0⟩

/-- The two neighbours of `d` among the numerals that lack its last `dropped`
digits, the nearer one first, and the larger one first if both are equally
near. -/
def neighbours (d : Decimal) (dropped : Nat) : List Decimal :=
  let unit := Nat.pow 10 dropped
  let below := d.withDropped dropped (d.digits / unit)
  let above := d.withDropped dropped (d.digits / unit + 1)
  if 2 * (d.digits % unit) < unit then [below, above] else [above, below]

/-- The numeral with the fewest digits that reads as the same double as `d`. -/
def fewestDigits (d : Decimal) : Decimal :=
  let bits := d.toFloat.toBits
  let count := (Nat.toDigits 10 d.digits).length
  let found := (List.range count).findSome? fun kept =>
    (d.neighbours (count - (kept + 1))).find? fun c => c.toFloat.toBits == bits
  let best := found.getD d
  trim best.digits best.places

end Decimal

/-! ## Doubles -/

namespace Number

/-- The sign bit is set. -/
def isNegative (x : Float) : Bool := x.toBits >>> 63 == 1

/-- The significand and the binary exponent of a finite double's magnitude. -/
def parts (x : Float) : Nat × Int :=
  let bits := x.toBits.toNat
  let fraction := bits % Nat.pow 2 52
  match bits / Nat.pow 2 52 % Nat.pow 2 11 with
  | 0 => (fraction, -1074)
  | e + 1 => (Nat.pow 2 52 + fraction, (e : Int) - 1074)

/-- The numeral that a finite double's magnitude is written as. -/
def shortest (x : Float) : Decimal :=
  let (significand, exponent) := parts x
  (Decimal.exact significand exponent).fewestDigits

/-- The written form of a number.  Zero keeps its sign. -/
def toText (x : Float) : String :=
  if x.isNaN then "NaN"
  else
    (if isNegative x then "-" else "") ++
      (if x.isInf then "Infinity" else (shortest x).toText)

end Number

end ScriptEngine
