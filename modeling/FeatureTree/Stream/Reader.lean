/-
Reading byte streams.

A `Reader` takes bytes off the front of a stream and gives a value and the bytes
that are left, or an error.  The readers of this module are those of words,
lengths and strings; each says what it was reading when the stream ends early.
-/
import FeatureTree.Format.Error
import FeatureTree.Stream.BigEndian
import FeatureTree.Text.ModifiedUtf8
import FeatureTree.Text.Utf8

namespace FeatureTree

/-- A value read from the front of a stream. -/
abbrev Reader := StateT (List UInt8) (Except FormatError)

namespace Reader

/-- Refuses the stream. -/
def fail {α : Type} (e : FormatError) : Reader α := fun _ => .error e

/-- A value that does not come from the stream. -/
def ofExcept {α : Type} : Except FormatError α → Reader α
  | .ok a => pure a
  | .error e => fail e

/-- The next `n` bytes. -/
def take (n : Nat) (what : String) : Reader (List UInt8) := fun bytes =>
  let taken := bytes.take n
  if taken.length < n then .error (.truncated what) else .ok (taken, bytes.drop n)

/-- The loop of `indexed`; `got` holds what was read, in reverse. -/
def indexedLoop {α : Type} (r : Nat → Reader α) (index : Nat) : Nat → List α → Reader (List α)
  | 0, got => fun bytes => .ok (got.reverse, bytes)
  | n + 1, got => fun bytes =>
    match r index bytes with
    | .error e => .error e
    | .ok (a, rest) => indexedLoop r (index + 1) n (a :: got) rest

/-- A reader for each index below `n`, one after the other. -/
def indexed {α : Type} (n : Nat) (r : Nat → Reader α) : Reader (List α) := indexedLoop r 0 n []

/-- The same reader several times over. -/
def repeated {α : Type} (n : Nat) (r : Reader α) : Reader (List α) := indexed n fun _ => r

/-- An unsigned number of the given width. -/
def number (width : Nat) (what : String) : Reader Nat := do
  return Stream.ofBigEndian (← take width what)

/-- An unsigned word of eight bits. -/
def uint8 : Reader UInt8 := do return UInt8.ofNat (← number 1 "byte")

/-- An unsigned word of sixteen bits. -/
def uint16 : Reader UInt16 := do return UInt16.ofNat (← number 2 "unsigned short")

/-- A signed word of sixteen bits. -/
def int16 : Reader Int16 := do return (UInt16.ofNat (← number 2 "short")).toInt16

/-- An unsigned word of 32 bits. -/
def uint32 : Reader UInt32 := do return UInt32.ofNat (← number 4 "int")

/-- A signed word of 32 bits. -/
def int32 : Reader Int32 := do return (← uint32).toInt32

/-- A signed word of 32 bits, or nothing at the end of the stream. -/
def int32? : Reader (Option Int32) := fun bytes =>
  match bytes with
  | [] => .ok (none, [])
  | _ => (do return some (← int32) : Reader (Option Int32)) bytes

/-- A floating-point word of 32 bits. -/
def single : Reader Single := do return ⟨BitVec.ofNat _ (← number 4 "float")⟩

/-- A length, which must not be negative. -/
def count (what : String) : Reader Nat := do
  let n := (← int32).toInt
  if n < 0 then fail (.invalidValue what (toString n)) else return n.toNat

/-- The text of modified encoding. -/
def decodeModified (bytes : List UInt8) : Except FormatError String :=
  match Text.ModifiedUtf8.decode? bytes with
  | some s => .ok s
  | none => .error (.invalidValue "modified UTF-8 string" (Text.Utf8.decodeLossy bytes))

/-- A string with the number of its encoded bytes in front. -/
def string : Reader String := do
  let bytes ← take (← uint16).toNat "string"
  ofExcept (decodeModified bytes)

/-- Code units as they stand in messages. -/
def renderUnits (units : List UInt16) : String :=
  "[" ++ Text.joinWith ", " (units.map fun u => toString u.toNat) ++ "]"

/-- A string of the given number of code units. -/
def chars (n : Nat) : Reader String := do
  let units ← repeated n uint16
  match Text.Utf16.decode? units with
  | some s => return s
  | none => fail (.invalidValue "char array" (renderUnits units))

end Reader

end FeatureTree
