/-
Decimal notation of floating-point numbers, both ways.

* `Floating.ofDecimal` — the nearest word to a decimal number;
* `Floating.shortest` — the decimal number with the fewest digits that rounds
  back to the word, and of two such the nearer one;
* `Floating.parse?` — reads a decimal literal with optional sign, point and
  exponent, or the names of infinity and NaN;
* `Floating.render` — writes a number positionally, without an exponent.

Design: `shortest` tries ever finer decimal grids and keeps a candidate only if
`ofDecimal` gives the word back; the exact expansion, which every binary number
has, closes the search.
-/
import FeatureTree.Numeric.Floating

namespace FeatureTree

/-- The non-negative decimal number `significand · 10 ^ exponent`. -/
structure Decimal where
  significand : Nat
  exponent : Int
  deriving DecidableEq, Repr

namespace Decimal

/-- Number of decimal digits of a natural; none for zero. -/
def digitCount (n : Nat) : Nat := if n = 0 then 0 else (Nat.toDigits 10 n).length

/-- The ratio of naturals that a decimal number is. -/
def ratio (d : Decimal) : Nat × Nat :=
  if 0 ≤ d.exponent then (d.significand * Nat.pow 10 d.exponent.toNat, 1)
  else (d.significand, Nat.pow 10 (-d.exponent).toNat)

/-- Positional notation: digits, with a point only where a fraction follows. -/
def positional (d : Decimal) : String :=
  let digits := Nat.toDigits 10 d.significand
  if 0 ≤ d.exponent then
    String.ofList (digits ++ List.replicate d.exponent.toNat '0')
  else
    let places := (-d.exponent).toNat
    let padded := List.replicate (places + 1 - digits.length) '0' ++ digits
    let whole := padded.length - places
    String.ofList (padded.take whole ++ '.' :: padded.drop whole)

end Decimal

namespace Floating

variable {f : FloatFormat}

/-- A decimal number above `10 ^ 400` is beyond the largest finite number of
both formats, one below `10 ^ -400` is nearer to zero than to any other. -/
def decimalReach : Int := 400

/-- The nearest word to `± d`. -/
def ofDecimal (negative : Bool) (d : Decimal) : Floating f :=
  let digits : Int := Decimal.digitCount d.significand
  if d.significand = 0 then ofMagnitude negative 0
  else if decimalReach < digits + d.exponent then infinity negative
  else if digits + d.exponent < -decimalReach then ofMagnitude negative 0
  else ofRatio negative d.ratio.1 d.ratio.2

/-- The exponent of the coarsest decimal grid worth trying for `num / den`:
the least `k` with `num / den < 10 ^ k`. -/
def decade (num den : Nat) : Int :=
  if den ≤ num then Decimal.digitCount (num / den)
  else 1 - (Decimal.digitCount ((den + num - 1) / num - 1) : Nat)

/-- The two neighbours of `num / den` on the grid `10 ^ k`, the nearer one
first; of two equally near the upper one. -/
def neighbours (num den : Nat) (k : Int) : List Decimal :=
  let scaled : Nat × Nat :=
    if 0 ≤ k then (num, den * Nat.pow 10 k.toNat) else (num * Nat.pow 10 (-k).toNat, den)
  let below := scaled.1 / scaled.2
  let lower : Decimal := ⟨below, k⟩
  let upper : Decimal := ⟨below + 1, k⟩
  if 2 * (scaled.1 % scaled.2) < scaled.2 then [lower, upper] else [upper, lower]

/-- The exact decimal expansion of `significand · 2 ^ exponent`. -/
def exactDecimal (significand : Nat) (exponent : Int) : Decimal :=
  if 0 ≤ exponent then ⟨significand * Nat.pow 2 exponent.toNat, 0⟩
  else ⟨significand * Nat.pow 5 (-exponent).toNat, exponent⟩

/-- The decimal number with the fewest digits that rounds to the magnitude of
`x`, the nearer one of two. Seventeen digits tell all words of both formats
apart. -/
def shortest (x : Floating f) : Decimal :=
  match x.datum with
  | .finite _ 0 _ => ⟨0, 0⟩
  | .finite s m e =>
    let num := (dyadicRatio m e).1
    let den := (dyadicRatio m e).2
    let top := decade num den
    let grids := (List.range 18).map fun (k : Nat) => top - k
    let candidates := grids.flatMap (neighbours num den)
    (candidates.find? fun d => (ofDecimal s d : Floating f) == x).getD (exactDecimal m e)
  | _ => ⟨0, 0⟩

/-- Positional text of a number, with the names of infinity and NaN. -/
def render (x : Floating f) : String :=
  match x.datum with
  | .nan => "NaN"
  | .infinite s => if s then "-inf" else "inf"
  | .finite s .. => (if s then "-" else "") ++ x.shortest.positional

/-- The text of a number with the name of NaN in lower case, as in leaf records. -/
def renderLower (x : Floating f) : String := if x.isNaN then "nan" else x.render

end Floating

namespace Decimal

/-- Whether a character is an ASCII digit. -/
def isDigit (c : Char) : Bool := '0' ≤ c && c ≤ '9'

/-- The number a run of ASCII digits writes. -/
def ofDigits (cs : List Char) : Nat :=
  cs.foldl (fun n c => 10 * n + (c.toNat - '0'.toNat)) 0

/-- The value of an exponent's digits.  Digits that would follow a value of
65536 or more are not counted: the number is out of range already. -/
def exponentOfDigits (cs : List Char) : Nat :=
  cs.foldl (fun n c => if n < 65536 then 10 * n + (c.toNat - '0'.toNat) else n) 0

/-- Reads the exponent part that may follow the digits of a literal: nothing,
or `e`, an optional sign and at least one digit. -/
def parseExponent? : List Char → Option Int
  | [] => some 0
  | c :: rest =>
    if c = 'e' ∨ c = 'E' then
      let (negative, digits) := match rest with
        | '-' :: ds => (true, ds)
        | '+' :: ds => (false, ds)
        | ds => (false, ds)
      if digits.isEmpty || !digits.all isDigit then none
      else
        let n : Int := exponentOfDigits digits
        some (if negative then -n else n)
    else none

/-- Reads an unsigned decimal literal: digits with an optional point before,
among or after them, at least one digit, and an optional exponent. -/
def parse? (cs : List Char) : Option Decimal :=
  let whole := cs.takeWhile isDigit
  let afterWhole := cs.dropWhile isDigit
  let (fraction, rest) := match afterWhole with
    | '.' :: ds => (ds.takeWhile isDigit, ds.dropWhile isDigit)
    | ds => ([], ds)
  if whole.isEmpty && fraction.isEmpty then none
  else (parseExponent? rest).map fun e =>
    ⟨ofDigits (whole ++ fraction), e - (fraction.length : Nat)⟩

end Decimal

namespace Floating

variable {f : FloatFormat}

/-- Reads a sign (`+`, `-` or none) and hands on the rest. -/
def splitSign : List Char → Bool × List Char
  | '-' :: rest => (true, rest)
  | '+' :: rest => (false, rest)
  | cs => (false, cs)

/-- Reads a floating-point literal: an optional sign, then `inf`, `infinity` or
`nan` in any mixture of cases, or a decimal literal. -/
def parse? (s : String) : Option (Floating f) :=
  let (negative, body) := splitSign s.toList
  let lower := body.map Char.toLower
  if lower = "inf".toList ∨ lower = "infinity".toList then some (infinity negative)
  else if lower = "nan".toList then
    some (ofMagnitude negative (f.infinityBits + Nat.pow 2 (f.fractionBits - 1)))
  else (Decimal.parse? body).map (ofDecimal negative)

end Floating

end FeatureTree
