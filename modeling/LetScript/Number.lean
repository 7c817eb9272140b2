/-! Numbers of the language: the binary floating-point numbers of 64 bits, held as their bit
patterns. Every finite one is a whole number of the smallest positive one, so reading and printing
are exact arithmetic on natural numbers. Reading a decimal text rounds the written value to the
nearest number. Writing is positional, without an exponent, and takes the fewest digits that read
back as the same number. -/
namespace LetScript

/-- A sign bit, eleven exponent bits and 52 fraction bits. -/
structure Binary64 where
  bits : UInt64
deriving DecidableEq, Repr

namespace Binary64

/-- The bit pattern of positive infinity. Larger magnitudes stand for no number. -/
def infinityBits : Nat := 0x7ff0000000000000

def ofMagnitude (bits : Nat) : Binary64 := ⟨UInt64.ofNat bits⟩

def infinity : Binary64 := ofMagnitude infinityBits

def isNegative (x : Binary64) : Bool := Nat.pow 2 63 ≤ x.bits.toNat

def magnitude (x : Binary64) : Nat := x.bits.toNat % Nat.pow 2 63

def isNaN (x : Binary64) : Bool := infinityBits < x.magnitude

def isInfinite (x : Binary64) : Bool := x.magnitude = infinityBits

def isFinite (x : Binary64) : Bool := x.magnitude < infinityBits

def abs (x : Binary64) : Binary64 := ofMagnitude x.magnitude

/-- The fraction bits, below a leading one unless all exponent bits are zero. -/
def significand (x : Binary64) : Nat :=
  if x.magnitude < Nat.pow 2 52 then x.magnitude else x.magnitude % Nat.pow 2 52 + Nat.pow 2 52

def scale (x : Binary64) : Nat := x.magnitude / Nat.pow 2 52 - 1

/-- A finite number, its sign apart, as a multiple of the smallest positive
one, which is 2 ^ -1074. -/
def units (x : Binary64) : Nat := x.significand * Nat.pow 2 x.scale

/-- The quotient of two natural numbers to the nearest natural number, a half
going to the even neighbour. -/
def roundHalfEven (n d : Nat) : Nat :=
  let q := n / d
  let r := n % d
  if 2 * r < d then q
  else if d < 2 * r then q + 1
  else if q % 2 = 0 then q
  else q + 1

/-- The number nearest to a quotient, a tie going to the even significand.
What is too large for a finite number becomes infinity. A significand that
rounds up to the next power of two carries into the exponent by itself. -/
def ofRatio (n d : Nat) : Binary64 :=
  let units := n * Nat.pow 2 1074
  let scale := (units / d).log2 - 52
  let significand := roundHalfEven units (d * Nat.pow 2 scale)
  ofMagnitude (min (scale * Nat.pow 2 52 + significand) infinityBits)

def ofDigits (whole fraction : List Char) : Binary64 :=
  ofRatio (Nat.ofDigitChars 10 (whole ++ fraction) 0) (Nat.pow 10 fraction.length)

/-- Decimal places that suffice to write any finite number exactly. -/
def places : Nat := 1074

/-- The exact decimal expansion of a finite number, as a multiple of its last
place. -/
def expansion (x : Binary64) : Nat := x.units * Nat.pow 5 places

def ofExpansion (s : Nat) : Binary64 := ofRatio s (Nat.pow 10 places)

/-- Search the decimal grids from coarse to fine, the finest being the last
place itself, for a neighbour of the expansion `s` that reads back as `x`. Of
two neighbours on one grid the nearer is taken, and the upper one in a tie. -/
def coarsest (x : Binary64) (s : Nat) : Nat → Nat
  | 0 => s
  | u + 1 =>
    let unit := Nat.pow 10 (u + 1)
    let low := s / unit * unit
    let high := low + unit
    if ofExpansion low = x then
      if ofExpansion high = x ∧ high - s ≤ s - low then high else low
    else if ofExpansion high = x then high
    else coarsest x s u

/-- The expansion with the fewest digits that reads back as the finite
non-negative number `x`. -/
def shortest (x : Binary64) : Nat :=
  let s := x.expansion
  coarsest x s (Nat.toDigits 10 s).length

def trimZeros (ds : List Char) : List Char := (ds.reverse.dropWhile (· == '0')).reverse

def positional (s : Nat) : List Char :=
  let whole := Nat.toDigits 10 (s / Nat.pow 10 places)
  let fraction := trimZeros ((Nat.toDigits 10 (s % Nat.pow 10 places)).leftpad places '0')
  if fraction = [] then whole else whole ++ '.' :: fraction

/-- Text of any number, with the words `inf` and `NaN` for those that are not
finite. Negative zero keeps its sign. -/
def text (x : Binary64) : List Char :=
  if x.isNaN then "NaN".toList
  else
    let size := if x.isInfinite then "inf".toList else positional x.abs.shortest
    if x.isNegative then '-' :: size else size

end Binary64

end LetScript
