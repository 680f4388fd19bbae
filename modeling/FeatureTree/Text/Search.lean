/-
Finding and replacing a short text within another.

* `startsWith?` — the rest after a given beginning;
* `holds` — whether a text occurs;
* `replaceAll` — every occurrence replaced, from the left and without overlap;
* `splitOnce?` — the parts before and after the first character of a set.
-/

namespace FeatureTree.Text

/-- The rest of a text after the given beginning. -/
def startsWith? : List Char → List Char → Option (List Char)
  | [], cs => some cs
  | p :: ps, c :: cs => if p = c then startsWith? ps cs else none
  | _ :: _, [] => none

/-- Whether a text begins with another one. -/
def startsWith (beginning cs : List Char) : Bool := (startsWith? beginning cs).isSome

/-- Whether `sought` occurs in a text. -/
def holds (sought : List Char) : List Char → Bool
  | [] => sought.isEmpty
  | c :: cs => startsWith sought (c :: cs) || holds sought cs

/-- The loop of `replaceAll`: the first argument counts the characters that
belong to the occurrence just replaced, `out` is the result in reverse. -/
def replaceLoop (sought replacement : List Char) : Nat → List Char → List Char → List Char
  | _, [], out => out.reverse
  | skip + 1, _ :: cs, out => replaceLoop sought replacement skip cs out
  | 0, c :: cs, out =>
    if startsWith sought (c :: cs) then
      replaceLoop sought replacement (sought.length - 1) cs (replacement.reverse ++ out)
    else replaceLoop sought replacement 0 cs (c :: out)

/-- A text with every occurrence of `sought`, which is not empty, replaced. -/
def replaceAll (sought replacement cs : List Char) : List Char :=
  replaceLoop sought replacement 0 cs []

/-- A string with every occurrence of `sought` replaced. -/
def replaceIn (s sought replacement : String) : String :=
  String.ofList (replaceAll sought.toList replacement.toList s.toList)

/-- The parts of a text before and after the first character that satisfies `p`. -/
def splitOnce? (p : Char → Bool) (cs : List Char) : Option (List Char × List Char) :=
  match cs.dropWhile (!p ·) with
  | [] => none
  | _ :: after => some (cs.takeWhile (!p ·), after)

/-- A text without the given character at its end, if it has it there. -/
def dropLast? (c : Char) (cs : List Char) : Option (List Char) :=
  if cs.getLast? = some c then some cs.dropLast else none

end FeatureTree.Text
