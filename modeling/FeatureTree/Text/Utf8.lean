/-
The byte encoding of text.

* `Utf8.encode` — the bytes of a text;
* `Utf8.decode?` — the text of a byte sequence, if it encodes one;
* `Utf8.decodeLossy` — the text of any byte sequence, in which every maximal
  beginning of an encoded character that is not continued properly is replaced
  by one replacement character.
-/

namespace FeatureTree.Text.Utf8

/-- The bytes of a text. -/
def encode (s : String) : List UInt8 := s.toList.flatMap String.utf8EncodeChar

/-- The text that the bytes encode, if they are the encoding of one. -/
def decode? (bytes : List UInt8) : Option String := String.fromUTF8? ⟨bytes.toArray⟩

/-- The character that stands for undecodable bytes. -/
def replacement : Char := '\ufffd'

/-- Whether a byte can continue an encoded character. -/
def continues (b : UInt8) : Bool := 0x80 ≤ b && b ≤ 0xBF

/-- Whether `b` can follow the first byte `a` of an encoded character of three
or four bytes.  The narrowed ranges exclude overlong forms, surrogates and
values beyond the last code point. -/
def followsLead (a b : UInt8) : Bool :=
  if a = 0xE0 then 0xA0 ≤ b && b ≤ 0xBF
  else if a = 0xED then 0x80 ≤ b && b ≤ 0x9F
  else if a = 0xF0 then 0x90 ≤ b && b ≤ 0xBF
  else if a = 0xF4 then 0x80 ≤ b && b ≤ 0x8F
  else continues b

/-- The character with the given lead bits and continuation bytes. -/
def assemble (lead : Nat) (tail : List UInt8) : Char :=
  Char.ofNat (tail.foldl (fun n b => n * 64 + b.toNat % 64) lead)

/-- The loop of `decodeLossy`; `out` is what was decoded, in reverse. -/
def decodeLossyLoop (out : List Char) : List UInt8 → List Char
  | [] => out.reverse
  | a :: rest =>
    if a < 0x80 then decodeLossyLoop (assemble a.toNat [] :: out) rest
    else if 0xC2 ≤ a && a ≤ 0xDF then
      match rest with
      | b :: rest' =>
        if continues b then decodeLossyLoop (assemble (a.toNat % 32) [b] :: out) rest'
        else decodeLossyLoop (replacement :: out) (b :: rest')
      | [] => (replacement :: out).reverse
    else if 0xE0 ≤ a && a ≤ 0xEF then
      match rest with
      | b :: c :: rest' =>
        if !followsLead a b then decodeLossyLoop (replacement :: out) (b :: c :: rest')
        else if continues c then
          decodeLossyLoop (assemble (a.toNat % 16) [b, c] :: out) rest'
        else decodeLossyLoop (replacement :: out) (c :: rest')
      | [b] =>
        if followsLead a b then (replacement :: out).reverse
        else decodeLossyLoop (replacement :: out) [b]
      | [] => (replacement :: out).reverse
    else if 0xF0 ≤ a && a ≤ 0xF4 then
      match rest with
      | b :: c :: d :: rest' =>
        if !followsLead a b then decodeLossyLoop (replacement :: out) (b :: c :: d :: rest')
        else if !continues c then decodeLossyLoop (replacement :: out) (c :: d :: rest')
        else if continues d then
          decodeLossyLoop (assemble (a.toNat % 8) [b, c, d] :: out) rest'
        else decodeLossyLoop (replacement :: out) (d :: rest')
      | [b, c] =>
        if !followsLead a b then decodeLossyLoop (replacement :: out) [b, c]
        else if continues c then (replacement :: out).reverse
        else decodeLossyLoop (replacement :: out) [c]
      | [b] =>
        if followsLead a b then (replacement :: out).reverse
        else decodeLossyLoop (replacement :: out) [b]
      | [] => (replacement :: out).reverse
    else decodeLossyLoop (replacement :: out) rest

/-- The text of any byte sequence; what cannot be decoded is replaced. -/
def decodeLossy (bytes : List UInt8) : String := String.ofList (decodeLossyLoop [] bytes)

end FeatureTree.Text.Utf8
