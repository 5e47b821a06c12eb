import Abacus.Double

/-!
# Numerals

A numeral is what the text of a number says before it is rounded: a sign, and an exact decimal,
an infinity or no number at all. Reading is exact, and `toFloat` rounds once, to the nearest
double.
-/
namespace Abacus

/-- The size of a numeral; `decimal d e` stands for `d · 10ᵉ`. -/
inductive Magnitude where
  | nan
  | infinite
  | decimal (digits : Nat) (exponent : Int)
  deriving Repr, DecidableEq

structure Numeral where
  negative : Bool
  magnitude : Magnitude
  deriving Repr, DecidableEq

namespace Numeral

def ofDigits (digits : List Char) : Nat :=
  digits.foldl (fun n c => 10 * n + (c.toNat - '0'.toNat)) 0

/-- A sign in front, if there is one, and what follows it. -/
def splitSign : List Char → Bool × List Char
  | '-' :: rest => (true, rest)
  | '+' :: rest => (false, rest)
  | rest => (false, rest)

/-- The exponent in what follows a mantissa: nothing, or `e`, a sign and digits to the end. -/
def exponent? : List Char → Option Int
  | [] => some 0
  | c :: rest =>
    let (negative, digits) := splitSign rest
    if (c = 'e' || c = 'E') && !digits.isEmpty && digits.all Char.isDigit then
      some (if negative then -ofDigits digits else ofDigits digits)
    else none

/-- Digits with at most one point among or beside them, and an exponent. -/
def decimal? (text : List Char) : Option Magnitude :=
  let whole := text.takeWhile Char.isDigit
  let (fraction, rest) := match text.dropWhile Char.isDigit with
    | '.' :: rest => (rest.takeWhile Char.isDigit, rest.dropWhile Char.isDigit)
    | rest => ([], rest)
  if whole.isEmpty && fraction.isEmpty then none
  else (exponent? rest).map fun e => .decimal (ofDigits (whole ++ fraction)) (e - fraction.length)

/-- The words for what is no decimal, in either case. -/
def magnitude? (text : List Char) : Option Magnitude :=
  let word := text.map Char.toLower
  if word = ['n', 'a', 'n'] then some .nan
  else if word = ['i', 'n', 'f'] || word = ['i', 'n', 'f', 'i', 'n', 'i', 't', 'y'] then some .infinite
  else decimal? text

def ofText? (text : List Char) : Option Numeral :=
  let (negative, rest) := splitSign text
  (magnitude? rest).map fun m => ⟨negative, m⟩

/-- The bits of the magnitude nearest to `digits · 10ᵉ`. Exponents far outside the range of a
double are decided without computing the power. -/
def decimalBits (digits : Nat) (e : Int) : Nat :=
  if digits = 0 then 0
  else if 400 < e then Double.infinityBits
  else if e + digits.log2 < -400 then 0
  else Double.nearestBits (digits * Nat.pow 2 1074 * Nat.pow 10 e.toNat) (Nat.pow 10 (-e).toNat)

/-- The nearest double, ties to even. -/
def toFloat (n : Numeral) : Float :=
  match n.magnitude with
  | .nan => Double.nan
  | .infinite => Double.infinity n.negative
  | .decimal digits e => Double.ofBits n.negative (decimalBits digits e)

end Numeral

/-- The double that a text denotes. -/
def Double.ofText? (text : List Char) : Option Float := (Numeral.ofText? text).map Numeral.toFloat

end Abacus
