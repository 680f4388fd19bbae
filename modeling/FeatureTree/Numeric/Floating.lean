/-
Binary floating-point numbers as bit patterns.

A `FloatFormat` fixes how many bits of a word hold the exponent and how many
hold the fraction; `Floating f` is a word of that format.  Keeping the word,
and not only the number it stands for, means that what is read from a stream
is written back bit for bit, NaN payloads included.

* `FloatFormat.roundMagnitude` — the nearest word to an exact ratio, ties to the even
  word, overflow to infinity;
* `Floating.datum` — what a word stands for;
* `Floating.lt`, `Floating.eq` — the numeric order and equality, false as soon
  as one side is NaN;
* `Floating.add`, `Floating.sub`, `Floating.div` — the exact result, rounded once.

Design: magnitudes are ordered like the words that encode them, so the order
is a comparison of integers (`Floating.key`) and rounding needs no separate
treatment of subnormal numbers or of a carry into the exponent.
-/

namespace FeatureTree

/-- The layout of a binary floating-point word: a sign bit, then the exponent
field, then the fraction field. -/
structure FloatFormat where
  exponentBits : Nat
  fractionBits : Nat
  deriving DecidableEq, Repr

namespace FloatFormat

/-- The format of 32 bits. -/
def single : FloatFormat := ⟨8, 23⟩

/-- The format of 64 bits. -/
def double : FloatFormat := ⟨11, 52⟩

/-- Number of bits of a word. -/
def width (f : FloatFormat) : Nat := 1 + f.exponentBits + f.fractionBits

/-- The word of positive infinity; larger magnitudes are NaNs. -/
def infinityBits (f : FloatFormat) : Nat :=
  (Nat.pow 2 f.exponentBits - 1) * Nat.pow 2 f.fractionBits

/-- The word whose only set bit is the sign. -/
def signBit (f : FloatFormat) : Nat := Nat.pow 2 (f.exponentBits + f.fractionBits)

/-- The exponent of the unit in the last place of the subnormal numbers. -/
def minExponent (f : FloatFormat) : Int :=
  2 - (Nat.pow 2 (f.exponentBits - 1) : Nat) - (f.fractionBits : Nat)

/-- Quotient of two naturals, rounded to the nearest integer, ties to even. -/
def divHalfEven (num den : Nat) : Nat :=
  let q := num / den
  let r := num % den
  if 2 * r < den then q
  else if den < 2 * r then q + 1
  else if q % 2 = 0 then q else q + 1

/-- The largest `k` with `2 ^ k ≤ num / den`, for positive arguments. -/
def floorLog2 (num den : Nat) : Int :=
  let k : Int := (num.log2 : Int) - (den.log2 : Int)
  let reached :=
    if 0 ≤ k then den * Nat.pow 2 k.toNat ≤ num else den ≤ num * Nat.pow 2 (-k).toNat
  if reached then k else k - 1

/-- The magnitude word nearest to `num / den`.  With the unit `2 ^ q` of the
binade that holds the ratio, the word is the number of units counted from the
start of the exponent range, so a carry moves into the next binade by itself. -/
def roundMagnitude (f : FloatFormat) (num den : Nat) : Nat :=
  if num = 0 then 0 else
    let q := max (floorLog2 num den - (f.fractionBits : Nat)) f.minExponent
    let units :=
      if 0 ≤ q then divHalfEven num (den * Nat.pow 2 q.toNat)
      else divHalfEven (num * Nat.pow 2 (-q).toNat) den
    min f.infinityBits ((q - f.minExponent).toNat * Nat.pow 2 f.fractionBits + units)

end FloatFormat

/-- A word of the format `f`. Equality of words is equality of bits. -/
structure Floating (f : FloatFormat) where
  bits : BitVec f.width
  deriving DecidableEq, Repr

/-- Numbers of 32 bits. -/
abbrev Single := Floating FloatFormat.single

/-- Numbers of 64 bits. -/
abbrev Double := Floating FloatFormat.double

/-- What a floating-point word stands for: not a number, an infinity, or
`± significand · 2 ^ exponent`. -/
inductive FloatDatum where
  | nan
  | infinite (negative : Bool)
  | finite (negative : Bool) (significand : Nat) (exponent : Int)
  deriving DecidableEq, Repr

namespace Floating

variable {f : FloatFormat}

/-- The word with this sign and this magnitude. -/
def ofMagnitude (negative : Bool) (magnitude : Nat) : Floating f :=
  ⟨BitVec.ofNat _ (magnitude + if negative then f.signBit else 0)⟩

/-- Positive zero. -/
def zero : Floating f := ofMagnitude false 0

/-- Infinity of the given sign. -/
def infinity (negative : Bool) : Floating f := ofMagnitude negative f.infinityBits

/-- The quiet NaN without payload. -/
def nan : Floating f :=
  ofMagnitude false (f.infinityBits + Nat.pow 2 (f.fractionBits - 1))

instance : Inhabited (Floating f) := ⟨zero⟩

/-- Whether the sign bit is set. -/
def isNegative (x : Floating f) : Bool := f.signBit ≤ x.bits.toNat

/-- The word without its sign bit. -/
def magnitude (x : Floating f) : Nat := x.bits.toNat % f.signBit

/-- Whether the word is a NaN. -/
def isNaN (x : Floating f) : Bool := f.infinityBits < x.magnitude

/-- Whether the word is an infinity of either sign. -/
def isInfinite (x : Floating f) : Bool := x.magnitude == f.infinityBits

/-- What the word stands for. -/
def datum (x : Floating f) : FloatDatum :=
  if x.isNaN then .nan
  else if x.isInfinite then .infinite x.isNegative
  else
    let fraction := x.magnitude % Nat.pow 2 f.fractionBits
    let field := x.magnitude / Nat.pow 2 f.fractionBits
    if field = 0 then .finite x.isNegative fraction f.minExponent
    else .finite x.isNegative (Nat.pow 2 f.fractionBits + fraction) (f.minExponent + (field - 1))

/-- The nearest word to `± num / den`, for a positive `den`. -/
def ofRatio (negative : Bool) (num den : Nat) : Floating f :=
  ofMagnitude negative (f.roundMagnitude num den)

/-- The nearest word to an integer. -/
def ofInt (n : Int) : Floating f := ofRatio (decide (n < 0)) n.natAbs 1

/-- The position of a number in the numeric order; both zeros are at `0`. -/
def key (x : Floating f) : Int :=
  if x.isNegative then -(x.magnitude : Int) else x.magnitude

/-- The numeric order: false when one side is NaN. -/
def lt (x y : Floating f) : Bool := !x.isNaN && !y.isNaN && decide (x.key < y.key)

/-- The numeric order with equality: false when one side is NaN. -/
def le (x y : Floating f) : Bool := !x.isNaN && !y.isNaN && decide (x.key ≤ y.key)

/-- Numeric equality: zeros of both signs are equal, a NaN equals nothing. -/
def eq (x y : Floating f) : Bool := !x.isNaN && !y.isNaN && x.key == y.key

/-- The number with the other sign. -/
def neg (x : Floating f) : Floating f := ofMagnitude (!x.isNegative) x.magnitude

/-- The number without its sign. -/
def abs (x : Floating f) : Floating f := ofMagnitude false x.magnitude

/-- The ratio of naturals that `significand · 2 ^ exponent` is. -/
def dyadicRatio (significand : Nat) (exponent : Int) : Nat × Nat :=
  if 0 ≤ exponent then (significand * Nat.pow 2 exponent.toNat, 1)
  else (significand, Nat.pow 2 (-exponent).toNat)

/-- The number of the format `g` nearest to `x`; a NaN stays a NaN. -/
def convert (g : FloatFormat) (x : Floating f) : Floating g :=
  match x.datum with
  | .nan => nan
  | .infinite s => infinity s
  | .finite s m e => ofRatio s (dyadicRatio m e).1 (dyadicRatio m e).2

/-- The exact sum of two numbers, rounded once.  A zero sum is positive unless
both operands are negative zeros. -/
def add (x y : Floating f) : Floating f :=
  match x.datum, y.datum with
  | .nan, _ => nan
  | _, .nan => nan
  | .infinite s, .infinite t => if s == t then infinity s else nan
  | .infinite s, .finite .. => infinity s
  | .finite .., .infinite t => infinity t
  | .finite s m d, .finite t n e =>
    let low := min d e
    let scaled (negative : Bool) (k : Nat) (p : Int) : Int :=
      let magnitude : Int := k * Nat.pow 2 (p - low).toNat
      if negative then -magnitude else magnitude
    let sum := scaled s m d + scaled t n e
    let negative := if sum = 0 then s && t else decide (sum < 0)
    ofRatio negative (dyadicRatio sum.natAbs low).1 (dyadicRatio sum.natAbs low).2

/-- The exact difference of two numbers, rounded once. -/
def sub (x y : Floating f) : Floating f := x.add y.neg

/-- The exact quotient of two numbers, rounded once. -/
def div (x y : Floating f) : Floating f :=
  let negative := x.isNegative != y.isNegative
  match x.datum, y.datum with
  | .nan, _ => nan
  | _, .nan => nan
  | .infinite _, .infinite _ => nan
  | .infinite _, .finite .. => infinity negative
  | .finite .., .infinite _ => ofMagnitude negative 0
  | .finite _ m d, .finite _ n e =>
    if n = 0 then (if m = 0 then nan else infinity negative)
    else
      let p := dyadicRatio m d
      let q := dyadicRatio n e
      ofRatio negative (p.1 * q.2) (p.2 * q.1)

end Floating

end FeatureTree
