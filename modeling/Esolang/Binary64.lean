import Esolang.Text.Decimal

/-! Double-precision numbers as bit patterns: reading decimal text with the result rounded to
nearest, and writing the shortest decimal text that reads back, always in positional notation. -/

namespace Esolang

/-- A sign bit, eleven exponent bits and 52 fraction bits. -/
structure Binary64 where
  bits : UInt64
  deriving DecidableEq, Repr, Inhabited

namespace Binary64

def infinity : Binary64 := ⟨0x7FF0000000000000⟩
def notANumber : Binary64 := ⟨0x7FF8000000000000⟩
def zero : Binary64 := ⟨0⟩
def one : Binary64 := ⟨0x3FF0000000000000⟩
def half : Binary64 := ⟨0x3FE0000000000000⟩
def negativeZero : Binary64 := ⟨0x8000000000000000⟩

def isNegative (x : Binary64) : Bool := x.bits.toNat >>> 63 == 1
def exponentField (x : Binary64) : Nat := x.bits.toNat >>> 52 % 2048
def fraction (x : Binary64) : Nat := x.bits.toNat % (1 <<< 52)

def negate (x : Binary64) : Binary64 := ⟨x.bits ^^^ negativeZero.bits⟩

/-- The magnitude of a finite number is `significand * 2 ^ scale`. -/
def significand (x : Binary64) : Nat :=
  if x.exponentField = 0 then x.fraction else 1 <<< 52 + x.fraction

def scale (x : Binary64) : Int := max x.exponentField 1 - 1075

/-- Whether a number lies between zero and one, ends included. The patterns of numbers without a
sign are ordered as the numbers are, and those of infinity and of no number follow them. -/
def inUnitInterval (x : Binary64) : Bool :=
  x.bits ≤ one.bits || x.bits == negativeZero.bits

/-- The quotient rounded to the nearest whole number, a tie to the even one. -/
def roundQuotient (num den : Nat) : Nat :=
  let q := num / den
  let twice := 2 * (num % den)
  if twice < den then q else if den < twice then q + 1 else q + q % 2

/-- The greatest `e` with `2 ^ e ≤ num / den`, for a positive quotient. -/
def floorLog2 (num den : Nat) : Int :=
  let guess : Int := num.log2 - den.log2
  if den <<< guess.toNat ≤ num <<< (-guess).toNat then guess else guess - 1

/-- The number nearest to a positive quotient, a tie to the even fraction. -/
def ofQuotient (num den : Nat) : Binary64 :=
  let scale := max (floorLog2 num den - 52) (-1074)
  let significand := roundQuotient (num <<< (-scale).toNat) (den <<< scale.toNat)
  let pattern := (scale + 1074).toNat <<< 52 + significand
  if pattern < infinity.bits.toNat then ⟨.ofNat pattern⟩ else infinity

def tenTo (n : Nat) : Nat := Nat.pow 10 n

/-- The number nearest to `digits * 10 ^ exponent`. Beyond 400 decimal places from the leading digit
every number is infinite or zero. -/
def ofScientific (digits : Nat) (exponent : Int) : Binary64 :=
  let leading : Int := (Decimal.ofNat digits).length + exponent
  if digits = 0 ∨ leading < -400 then zero
  else if 400 < leading then infinity
  else ofQuotient (digits * tenTo exponent.toNat) (tenTo (-exponent).toNat)

/-- An exponent mark and a whole number, or nothing. -/
def exponent? : List Char → Option Int
  | [] => some 0
  | mark :: rest => if mark = 'e' ∨ mark = 'E' then Decimal.integer? rest else none

/-- Digits with at most one point among them and at least one digit, then an exponent. -/
def magnitude? (text : List Char) : Option Binary64 :=
  let whole := text.takeWhile Char.isDigit
  let rest := text.dropWhile Char.isDigit
  let places := match rest with
    | '.' :: rest => rest.takeWhile Char.isDigit
    | _ => []
  let rest := match rest with
    | '.' :: rest => rest.dropWhile Char.isDigit
    | _ => rest
  match Decimal.digits? (whole ++ places), exponent? rest with
  | some digits, some exponent => some (ofScientific digits (exponent - places.length))
  | _, _ => none

/-- A magnitude, or the name of an infinity or of no number in any mix of cases. -/
def unsigned? (text : List Char) : Option Binary64 :=
  let name := String.ofList (text.map Char.toLower)
  if name = "inf" ∨ name = "infinity" then some infinity
  else if name = "nan" then some notANumber
  else magnitude? text

def read? (text : String) : Option Binary64 :=
  match text.toList with
  | '+' :: rest => unsigned? rest
  | '-' :: rest => (unsigned? rest).map negate
  | text => unsigned? text

/-- The ends of the interval of reals that round to a finite number, and the number itself, all over
the denominator `den`; `closed` tells whether the ends belong to the interval. -/
structure Rounding where
  lower : Nat
  value : Nat
  upper : Nat
  den : Nat
  closed : Bool

def rounding (x : Binary64) : Rounding :=
  let m := x.significand
  let below := if x.fraction = 0 ∧ 1 < x.exponentField then 1 else 2
  let unit := (x.scale - 2).toNat
  { lower := (4 * m - below) <<< unit
    value := (4 * m) <<< unit
    upper := (4 * m + 2) <<< unit
    den := 1 <<< (2 - x.scale).toNat
    closed := m % 2 = 0 }

def Rounding.holds (r : Rounding) (digits : Nat) (place : Int) : Bool :=
  let point := digits * tenTo place.toNat * r.den
  let unit := tenTo (-place).toNat
  if r.closed then r.lower * unit ≤ point && point ≤ r.upper * unit
  else r.lower * unit < point && point < r.upper * unit

/-- The number of digits before the point of a positive quotient, negative for leading zeros. -/
def decimalMagnitude (num den : Nat) : Int :=
  let guess : Int := (Decimal.ofNat num).length - (Decimal.ofNat den).length
  if den * tenTo guess.toNat ≤ num * tenTo (-guess).toNat then guess + 1 else guess

/-- The decimal point of the grid `10 ^ place` next to the number that lies in the interval, if one
does: the nearer of the two neighbours, the upper one on a tie. -/
def Rounding.onGrid? (r : Rounding) (place : Int) : Option Nat :=
  let num := r.value * tenTo (-place).toNat
  let den := r.den * tenTo place.toNat
  let under := num / den
  match r.holds under place, r.holds (under + 1) place with
  | true, true => some (if 2 * (num % den) < den then under else under + 1)
  | true, false => some under
  | false, true => some (under + 1)
  | false, false => none

/-- Tries grids with one more digit each time; 17 digits always suffice. -/
def Rounding.shortestFrom (r : Rounding) (magnitude : Int) : Nat → Nat → Nat × Int
  | 0, count => (0, magnitude - count)
  | tries + 1, count =>
    match r.onGrid? (magnitude - count) with
    | some digits => (digits, magnitude - count)
    | none => r.shortestFrom magnitude tries (count + 1)

/-- The fewest digits that read back as a finite nonzero number, and the place of the last one. A
single digit may have been rounded up to ten. -/
def shortest (x : Binary64) : Nat × Int :=
  let r := x.rounding
  let (digits, place) := r.shortestFrom (decimalMagnitude r.value r.den) 17 1
  if digits = 10 then (1, place + 1) else (digits, place)

def positional (digits : Nat) (place : Int) : List Char :=
  let text := Decimal.ofNat digits
  if 0 ≤ place then
    text ++ List.replicate place.toNat '0'
  else
    let places := (-place).toNat
    let padded := List.replicate (places + 1 - text.length) '0' ++ text
    padded.take (padded.length - places) ++ '.' :: padded.drop (padded.length - places)

/-- The text of a magnitude: shortest digits, no exponent, no point for a whole number. -/
def magnitudeText (x : Binary64) : List Char :=
  if x.exponentField = 2047 then ['i', 'n', 'f']
  else if x.significand = 0 then ['0']
  else
    let (digits, place) := x.shortest
    positional digits place

def text (x : Binary64) : String :=
  if x.exponentField = 2047 ∧ x.fraction ≠ 0 then "NaN"
  else String.ofList (if x.isNegative then '-' :: x.magnitudeText else x.magnitudeText)

end Binary64

end Esolang
