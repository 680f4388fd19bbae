/-
Properties as text: one name and value per line.

The text is a sequence of bytes, each of which is the character of that code.
Lines that start with `#` or `!` are comments; a line that ends in an odd number
of backslashes goes on in the next one.  A name ends at the first `=`, `:` or
blank that is not escaped.

* `PropertyText.parse` — the properties of a text;
* `PropertyText.render` — the text of properties, sorted by name, in ASCII;
* `PropertyText.readBlock`, `PropertyText.blockBytes` — the text in a binary
  stream, with its length in front.
-/
import FeatureTree.Numeric.Integer
import FeatureTree.Stream.Reader
import FeatureTree.Stream.Writer
import FeatureTree.Text.Blank
import FeatureTree.Text.Lines

namespace FeatureTree.PropertyText

open Text

/-- Whether a line goes on in the next one. -/
def continues (line : List Char) : Bool :=
  (line.reverse.takeWhile (· == '\\')).length % 2 == 1

/-- Whether a line, without the blanks at its front, holds no entry. -/
def isSkipped (line : List Char) : Bool :=
  match line with
  | [] => true
  | c :: _ => c == '#' || c == '!'

/-- The entries of a text, lines put together; `pending` is the beginning of an
entry that goes on. -/
def logicalLines (pending : List Char) : List (List Char) → List (List Char)
  | [] => if pending.isEmpty then [] else [pending]
  | raw :: rest =>
    let line := raw.dropWhile isBlank
    if pending.isEmpty && isSkipped line then logicalLines pending rest
    else if continues line then logicalLines (pending ++ line.dropLast) rest
    else (pending ++ line) :: logicalLines [] rest

/-- The value part of an entry whose name ended at a blank. -/
def afterBlank (cs : List Char) : List Char :=
  match cs.dropWhile isBlank with
  | '=' :: rest => rest
  | ':' :: rest => rest
  | rest => rest

/-- The name and the value of an entry, still escaped; `key` is the name so far, in
reverse. -/
def splitEntry (key : List Char) : List Char → List Char × List Char
  | [] => (key.reverse, [])
  | ['\\'] => (('\\' :: key).reverse, [])
  | '\\' :: c :: rest => splitEntry (c :: '\\' :: key) rest
  | c :: rest =>
    if c = '=' ∨ c = ':' then (key.reverse, rest.dropWhile isBlank)
    else if isBlank c then (key.reverse, (afterBlank rest).dropWhile isBlank)
    else splitEntry (c :: key) rest

/-- The character of four hexadecimal digits, unless it is a surrogate. -/
def escapedChar? (hex : List Char) : Option Char :=
  if hex.length ≠ 4 then none
  else (Numeral.hex? hex).bind fun n => if h : n.isValidChar then some (Char.ofNatAux n h) else none

/-- The loop of `unescape`: the first argument counts the characters that belong
to the escape just read, `out` is the result in reverse. -/
def unescapeLoop : Nat → List Char → List Char → Except FormatError (List Char)
  | _, [], out => .ok out.reverse
  | skip + 1, _ :: cs, out => unescapeLoop skip cs out
  | 0, c :: cs, out =>
    if c ≠ '\\' then unescapeLoop 0 cs (c :: out)
    else
      match cs with
      | [] => .ok out.reverse
      | 't' :: rest => unescapeLoop 0 rest ('\t' :: out)
      | 'n' :: rest => unescapeLoop 0 rest ('\n' :: out)
      | 'r' :: rest => unescapeLoop 0 rest ('\r' :: out)
      | 'f' :: rest => unescapeLoop 0 rest ('\x0c' :: out)
      | 'u' :: rest =>
        match escapedChar? (rest.take 4) with
        | some e => unescapeLoop 4 rest (e :: out)
        | none =>
          .error (.invalidValue "property escape" (String.ofList ('\\' :: 'u' :: rest.take 4)))
      | other :: rest => unescapeLoop 0 rest (other :: out)

/-- A text with its escapes replaced by what they stand for. -/
def unescape (cs : List Char) : Except FormatError String :=
  (unescapeLoop 0 cs []).map String.ofList

/-- The name and the value of an entry. -/
def parseEntry (line : List Char) : Except FormatError (String × String) := do
  let (key, value) := splitEntry [] line
  return (← unescape key, ← unescape value)

/-- The properties of a text; of two entries with one name the later one counts. -/
def parse (bytes : List UInt8) : Except FormatError Properties := do
  let chars := bytes.map fun b => Char.ofNat b.toNat
  let entries ← (logicalLines [] (cutLines '\n' '\r' chars)).mapM parseEntry
  return Properties.ofList entries

/-- A code unit as an escape of four hexadecimal digits. -/
def escapeUnit (u : UInt16) : List Char :=
  let digits := (Nat.toDigits 16 u.toNat).map Char.toUpper
  '\\' :: 'u' :: (List.replicate (4 - digits.length) '0' ++ digits)

/-- A character of a name or value; a space is escaped where it would be dropped. -/
def escapeChar (escapeSpace : Bool) (c : Char) : List Char :=
  if c = '\\' then ['\\', '\\']
  else if c = '\t' then ['\\', 't']
  else if c = '\n' then ['\\', 'n']
  else if c = '\r' then ['\\', 'r']
  else if c = '\x0c' then ['\\', 'f']
  else if c = '=' ∨ c = ':' ∨ c = '#' ∨ c = '!' then ['\\', c]
  else if c = ' ' then (if escapeSpace then ['\\', ' '] else [' '])
  else if ' ' ≤ c ∧ c ≤ '~' then [c]
  else (Utf16.encodeChar c).flatMap escapeUnit

/-- An escaped name: every space could end it. -/
def escapeKey (key : String) : List Char := key.toList.flatMap (escapeChar true)

/-- An escaped value: a space is dropped only at its front. -/
def escapeValue (value : String) : List Char :=
  match value.toList with
  | [] => []
  | c :: rest => escapeChar true c ++ rest.flatMap (escapeChar false)

/-- The line of one entry. -/
def renderEntry (e : String × String) : List Char :=
  escapeKey e.1 ++ '=' :: (escapeValue e.2 ++ ['\n'])

/-- The text of properties, sorted by name. -/
def render (p : Properties) : String := String.ofList (p.entries.flatMap renderEntry)

/-- Reads a block of properties with its length in front; a block of length zero
stands for no properties. -/
def readBlock : Reader (Option Properties) := do
  let length := (← Reader.int16).toInt
  if length < 0 then Reader.fail (.invalidValue "property block length" (toString length))
  else if length = 0 then return none
  else return some (← Reader.ofExcept (parse (← Reader.take length.toNat "property block")))

/-- The bytes of a block of properties. -/
def blockBytes (p : Properties) : Stream.Encoded :=
  if p.isEmpty then .ok (Stream.bigEndian 2 0)
  else
    let text := Utf8.encode (render p)
    if text.length < 0x8000 then .ok (Stream.bigEndian 2 text.length ++ text)
    else .error (.propertyBlockTooLong text.length)

end FeatureTree.PropertyText
