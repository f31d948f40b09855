/-!
Numerals. A finite numeral is a sign, a coefficient and a power of ten, read from a text without
rounding. It is written positionally and in full: never with an exponent, without trailing zeros
after the point, and without a point on a whole number. The sign of zero is kept.
-/

namespace ItemExpressions

inductive Numeral where
  | finite (negative : Bool) (coefficient : Nat) (exponent : Int)
  | infinite (negative : Bool)
  | undefined
  deriving DecidableEq

namespace Numeral

/-! ## Reading -/

def digitsValue (digits : List Char) : Nat :=
  digits.foldl (fun value digit => 10 * value + (digit.toNat - '0'.toNat)) 0

def readSign : List Char → Bool × List Char
  | '-' :: rest => (true, rest)
  | '+' :: rest => (false, rest)
  | text => (false, text)

def readNatural? (digits : List Char) : Option Nat :=
  if digits.isEmpty || !digits.all Char.isDigit then none else some (digitsValue digits)

def readInteger? (text : List Char) : Option Int :=
  let (negative, digits) := readSign text
  (readNatural? digits).map fun magnitude => if negative then -(magnitude : Int) else magnitude

def marksExponent (c : Char) : Bool := c == 'e' || c == 'E'

/-- A point may stand before or after all digits, and each digit after it takes one off the power
of ten. -/
def readFinite? (negative : Bool) (text : List Char) : Option Numeral := do
  let significand := text.takeWhile fun c => !marksExponent c
  let exponent ← match text.dropWhile fun c => !marksExponent c with
    | [] => some 0
    | _ :: power => readInteger? power
  let whole := significand.takeWhile (· != '.')
  let fraction := (significand.dropWhile (· != '.')).drop 1
  let coefficient ← readNatural? (whole ++ fraction)
  return .finite negative coefficient (exponent - fraction.length)

def ofChars? (text : List Char) : Option Numeral :=
  let (negative, magnitude) := readSign text
  match String.ofList (magnitude.map Char.toLower) with
  | "inf" | "infinity" => some (.infinite negative)
  | "nan" => some .undefined
  | _ => readFinite? negative magnitude

def ofText? (text : String) : Option Numeral :=
  ofChars? text.toList

/-! ## Writing -/

/-- The point and the digits after it, for `part` units of the last of `places` places. -/
def fractionText (places part : Nat) : String :=
  let digits := Nat.toDigits 10 part
  let padded := List.replicate (places - digits.length) '0' ++ digits
  match (padded.reverse.dropWhile (· == '0')).reverse with
  | [] => ""
  | kept => String.ofList ('.' :: kept)

def magnitudeText (coefficient : Nat) (exponent : Int) : String :=
  let places := (-exponent).toNat
  let units := coefficient * Nat.pow 10 exponent.toNat
  let unit := Nat.pow 10 places
  toString (units / unit) ++ fractionText places (units % unit)

def signText (negative : Bool) : String :=
  if negative then "-" else ""

def text : Numeral → String
  | .finite negative coefficient exponent => signText negative ++ magnitudeText coefficient exponent
  | .infinite negative => signText negative ++ "inf"
  | .undefined => "NaN"

end Numeral

end ItemExpressions
