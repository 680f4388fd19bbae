/-
Integer literals with a range.

* `Numeral.unsigned?` — digits with an optional plus sign, below a bound;
* `Numeral.signed?` — digits with an optional sign, between two bounds;
* `Numeral.hex?` — hexadecimal digits with an optional plus sign.

A literal is refused when it holds no digit, a character that is no ASCII
digit, or a value out of range.
-/
import FeatureTree.Numeric.Decimal

namespace FeatureTree.Numeral

/-- Reads a run of ASCII digits, at least one. -/
def digits? (cs : List Char) : Option Nat :=
  if cs.isEmpty || !cs.all Decimal.isDigit then none else some (Decimal.ofDigits cs)

/-- Reads an unsigned literal whose value is below `bound`. -/
def unsigned? (bound : Nat) (cs : List Char) : Option Nat :=
  let body := match cs with
    | '+' :: rest => rest
    | _ => cs
  (digits? body).bind fun n => if n < bound then some n else none

/-- Reads a signed literal whose value lies in `low … high`. -/
def signed? (low high : Int) (cs : List Char) : Option Int :=
  let value := match cs with
    | '-' :: rest => (digits? rest).map fun n => -(n : Int)
    | '+' :: rest => (digits? rest).map fun n => (n : Int)
    | _ => (digits? cs).map fun n => (n : Int)
  value.bind fun n => if low ≤ n ∧ n ≤ high then some n else none

/-- Reads an unsigned literal of eight bits. -/
def uint8? (s : String) : Option UInt8 := (unsigned? 0x100 s.toList).map UInt8.ofNat

/-- Reads a signed literal of sixteen bits. -/
def int16? (s : String) : Option Int16 :=
  (signed? (-0x8000) 0x7FFF s.toList).map Int16.ofInt

/-- Reads a signed literal of 32 bits. -/
def int32? (s : String) : Option Int32 :=
  (signed? (-0x80000000) 0x7FFFFFFF s.toList).map Int32.ofInt

/-- The value of a hexadecimal digit of either case. -/
def hexValue? (c : Char) : Option Nat :=
  if '0' ≤ c ∧ c ≤ '9' then some (c.toNat - '0'.toNat)
  else if 'a' ≤ c ∧ c ≤ 'f' then some (c.toNat - 'a'.toNat + 10)
  else if 'A' ≤ c ∧ c ≤ 'F' then some (c.toNat - 'A'.toNat + 10)
  else none

/-- Reads hexadecimal digits, at least one, after an optional plus sign. -/
def hex? (cs : List Char) : Option Nat :=
  let body := match cs with
    | '+' :: rest => rest
    | _ => cs
  if body.isEmpty then none
  else body.foldl (fun n? c => n?.bind fun n => (hexValue? c).map (16 * n + ·)) (some 0)

end FeatureTree.Numeral
