import Abacus.Numeral

/-!
# The text of a double

A double is written in positional notation without an exponent, with the fewest digits that
read back as the same double and, among those, the ones nearest to its value. A text is only
ever chosen because reading it gives the double back; the exact expansion, which always does,
stands at the end of the search.
-/
namespace Abacus.Double

/-- `digits · 10^scale` written out. A fraction ends in no zero, and a whole number has no
point. -/
def positional (digits : Nat) (scale : Int) : List Char :=
  let whole := Nat.toDigits 10 digits
  let places := (-scale).toNat
  let shifted := whole ++ List.replicate scale.toNat '0'
  let padded := List.replicate (places + 1 - shifted.length) '0' ++ shifted
  let point := padded.length - places
  let fraction := ((padded.drop point).reverse.dropWhile (· = '0')).reverse
  padded.take point ++ if fraction.isEmpty then [] else '.' :: fraction

def digitCount (n : Nat) : Nat := (Nat.toDigits 10 n).length

/-- The number of digits before the point; below one, the zeros behind it count as fewer than
none. -/
def wholeDigits (units : Nat) : Int :=
  let one := Nat.pow 2 1074
  if one ≤ units then digitCount (units / one) else 1 - digitCount ((one - 1) / units)

/-- The two neighbours of a magnitude on the grid with `places` significant digits, the nearer
one first and the upper one of two equally near. -/
def neighbours (units places : Nat) : List (List Char) :=
  let scale := wholeDigits units - places
  let num := units * Nat.pow 10 (-scale).toNat
  let den := Nat.pow 2 1074 * Nat.pow 10 scale.toNat
  let lower := positional (num / den) scale
  let upper := positional (num / den + 1) scale
  if 2 * (num % den) < den then [lower, upper] else [upper, lower]

/-- All the digits of a magnitude, one thousand and seventy-four of them after the point. -/
def expansion (units : Nat) : List Char :=
  let digits := Nat.toDigits 10 (units * Nat.pow 5 1074)
  let padded := List.replicate (1075 - digits.length) '0' ++ digits
  padded.take (padded.length - 1074) ++ '.' :: padded.drop (padded.length - 1074)

/-- The text denotes the finite magnitude with the given bits. -/
def denotes (bits : Nat) (text : List Char) : Bool := ofText? text = some (ofBits false bits)

/-- The shortest text of a finite magnitude. Seventeen digits are always enough. -/
def shortest (bits : Nat) : List Char :=
  if bits = 0 then ['0']
  else
    let units := unitsOfBits bits
    (((List.range' 1 17).flatMap (neighbours units)).find? (denotes bits)).getD (expansion units)

/-- The text of a double; a `NaN` shows no sign. -/
def write (x : Float) : List Char :=
  if x.isNaN then ['N', 'a', 'N']
  else
    let size := if x.isInf then ['i', 'n', 'f'] else shortest (magnitude x)
    if isNegative x then '-' :: size else size

/-- A text that reads as one operand wherever an operand may stand: what carries a sign is put
in parentheses. -/
def literal (x : Float) : List Char :=
  if isNegative x then '(' :: write x ++ [')'] else write x

end Abacus.Double
