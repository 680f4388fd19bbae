/-
Sample trees, and comparisons of numbers within a tolerance.

* `Sample.tree`, `Sample.regressionTree` — two small trees over `Sample.schema`;
* `Sample.checkClose`, `Sample.checkGaussian` — comparisons that fault when a
  number is further off than the tolerance.
-/
import FeatureTree.Tree.Cart

namespace FeatureTree.Sample

/-- Three features, one of each kind. -/
def features : List FeatureMeta :=
  [.byte "phone" #["0", "a", "e", "i"], .short "pos" #["0", "n", "v", "adj"], .continuous "dur"]

/-- The schema of the sample trees. -/
def schema : Schema := .ofArranged features.toArray (by decide) (by decide)

/-- One tenth. -/
def tenth : Single := Floating.ofDecimal false ⟨1, -1⟩

/-- The builder with the given children pushed one after the other. -/
def wire (b : Builder) (links : List (NodeId × Option NodeId)) : Except GraphError Builder :=
  links.foldlM (fun b l => do return (← b.pushChild l.1 l.2).1) b

/-- The builder with the given leaves added. -/
def addLeaves (b : Builder) (leaves : List Payload) : Builder :=
  leaves.foldl (fun b p => (b.addLeaf p).1) b

/-- A classification tree: a two-way decision, below it a many-way decision with a
threshold test, an empty slot and a leaf without data. -/
def tree : Except GraphError Cart := do
  let b := (Builder.empty schema).addDecision (.byteEquals 0 1) |>.1
  let b := b.addDecision (.shortOf 1 4) |>.1
  let b := b.addDecision (.below 2 tenth) |>.1
  let b := addLeaves b
    [.indices [1, 2, 3], .indices [4], .indices [5], .indices [6, 7], .indices []]
  Cart.ofBuilder? (← wire (b.setRoot 0)
    [(0, some 3), (0, some 1), (1, some 4), (1, some 2), (1, none), (1, some 7),
      (2, some 5), (2, some 6)])

/-- A regression tree with one threshold test. -/
def regressionTree : Except GraphError Cart := do
  let b := (Builder.empty schema).addDecision (.below 2 tenth) |>.1
  let b := addLeaves b
    [.gaussian ⟨Floating.ofDecimal false ⟨5, -1⟩, Floating.ofInt 1⟩,
      .gaussian ⟨Floating.ofDecimal false ⟨25, -2⟩, Floating.ofInt 2⟩]
  Cart.ofBuilder? (← wire (b.setRoot 0) [(0, some 1), (0, some 2)])

/-- Whether two numbers differ by no more than the tolerance. -/
def isClose (tolerance actual expected : Single) : Bool := (actual.sub expected).abs.le tolerance

/-- Compares two lists of numbers of the same length. -/
def checkClose (actual expected : List Single) (tolerance : Single) : Except Fault Unit :=
  if actual.length = expected.length
      ∧ (actual.zip expected).all fun p => isClose tolerance p.1 p.2 then .ok ()
  else .error .notClose

/-- The usual tolerance, one hundred-thousandth. -/
def usualTolerance : Single := Floating.ofDecimal false ⟨1, -5⟩

/-- Compares a payload with a distribution. -/
def checkGaussian (p : Option Payload) (stddev mean : Single) : Except Fault Unit :=
  match p with
  | some (.gaussian g) => checkClose [g.stddev, g.mean] [stddev, mean] usualTolerance
  | _ => .error .notClose

end FeatureTree.Sample
