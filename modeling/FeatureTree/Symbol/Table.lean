/-
Symbol tables and the header line that writes them.

A header line holds the symbols in quotes, with a comma, the index and a colon
between one and the next; the index of the first symbol may stand in front of
the line.  Indices are digits of any script and are not checked.

* `SymbolTable.parse` — the symbols of a header line;
* `SymbolTable.render` — the header line of a list of symbols.
-/
import FeatureTree.Text.Blank
import FeatureTree.Text.DecimalDigit
import FeatureTree.Text.Quoted

namespace FeatureTree

/-- What can be wrong with a symbol table or its header line. -/
inductive SymbolTableError where
  | unquoted (index : Nat) (entry : String)
  | empty
  | unwritable (index : Nat) (symbol : String)
  deriving DecidableEq, Repr

/-- The wording of an error. -/
def SymbolTableError.message : SymbolTableError → String
  | unquoted index entry => "symbol table entry " ++ toString index ++ " is not quoted: " ++ entry
  | empty => "symbol table is empty"
  | unwritable index symbol =>
    "symbol " ++ toString index ++ " cannot be written to a header: " ++ Text.quote symbol

namespace SymbolTable

open Text

/-- The text after an index and a colon at its front, if it starts so. -/
def afterIndex? (cs : List Char) : Option (List Char) :=
  if (cs.takeWhile isDecimalDigit).isEmpty then none
  else
    match cs.dropWhile isDecimalDigit with
    | ':' :: rest => some rest
    | _ => none

/-- The text after a separator at its front, if it starts with one. -/
def afterSeparator? : List Char → Option (List Char)
  | ',' :: rest => afterIndex? rest
  | _ => none

/-- The loop of `entries`: `entry` is the current entry and `done` the finished
ones, both in reverse.  The first argument bounds the number of steps. -/
def entriesLoop : Nat → List Char → List Char → List (List Char) → List (List Char)
  | 0, _, entry, done => (entry.reverse :: done).reverse
  | _ + 1, [], entry, done => (entry.reverse :: done).reverse
  | fuel + 1, c :: cs, entry, done =>
    match afterSeparator? (c :: cs) with
    | some rest => entriesLoop fuel rest [] (entry.reverse :: done)
    | none => entriesLoop fuel cs (c :: entry) done

/-- The texts between the separators of a line. -/
def entries (cs : List Char) : List (List Char) := entriesLoop (cs.length + 1) cs [] []

/-- The text within the quotes of an entry. -/
def unquote? : List Char → Option (List Char)
  | '"' :: rest => if rest.getLast? = some '"' then some rest.dropLast else none
  | _ => none

/-- The symbols of entries that are numbered from `index` on. -/
def readEntries (index : Nat) : List (List Char) → Except SymbolTableError (List String)
  | [] => .ok []
  | entry :: rest =>
    match unquote? entry with
    | none => .error (.unquoted index (String.ofList entry))
    | some symbol => do return String.ofList symbol :: (← readEntries (index + 1) rest)

/-- The symbols of a header line, blanks around which do not matter. -/
def parse (line : String) : Except SymbolTableError (List String) :=
  let cs := trimBy isBlank line.toList
  if cs.isEmpty then .error .empty
  else readEntries 0 (entries ((afterIndex? cs).getD cs))

/-- Whether a text holds a separator. -/
def holdsSeparator : List Char → Bool
  | [] => false
  | c :: cs => (afterSeparator? (c :: cs)).isSome || holdsSeparator cs

/-- Whether a symbol can stand in a header line: it holds no line break and no
separator. -/
def isWritable (symbol : String) : Bool :=
  let cs := symbol.toList
  !cs.contains '\n' && !cs.contains '\r' && !holdsSeparator cs

/-- The header line of symbols that are numbered from `index` on. -/
def renderFrom (index : Nat) : List String → Except SymbolTableError (List Char)
  | [] => .ok []
  | symbol :: rest =>
    if !isWritable symbol then .error (.unwritable index symbol)
    else do
      let mark := if index = 0 then [] else ',' :: ((toString index).toList ++ [':'])
      return mark ++ '"' :: (symbol.toList ++ '"' :: (← renderFrom (index + 1) rest))

/-- The header line of a list of symbols. -/
def render (symbols : List String) : Except SymbolTableError String :=
  if symbols.isEmpty then .error .empty
  else (renderFrom 0 symbols).map String.ofList

end SymbolTable

end FeatureTree
