/-
Indexing: routing feature vectors into the leaves of a tree.

An `Indexer` starts from a tree whose leaves hold feature vectors.  Every vector
that is added goes to the end of the leaf it is routed to, or is dropped when
its way ends in an empty slot.  Freezing counts the tree anew.
-/
import FeatureTree.Tree.Cart
import FeatureTree.Tree.Traversal

namespace FeatureTree

/-- A tree whose leaves are being filled, with the numbers of vectors that found a
leaf and that found none. -/
structure Indexer where
  arena : Arena
  placed : Nat := 0
  dropped : Nat := 0

namespace Indexer

/-- Whether a node is a leaf of feature vectors. -/
def holdsVectors (n : Node) : Bool :=
  match n.content with
  | .leaf (.featureVectors _) => true
  | _ => false

/-- Starts indexing into a tree; the first leaf that holds anything else than
feature vectors is reported. -/
def ofCart? (t : Cart) : Except GraphError Indexer :=
  let leaves := t.arena.select t.arena.root .leavesOnly
  match leaves.nodes.find? fun p => !holdsVectors p.2 with
  | some (id, _) => .error (.wrongNodeKind id .featureVectorLeaf)
  | none => .ok { arena := t.arena }

variable (x : Indexer)

/-- The loop of `route`. -/
def routeLoop (v : FeatureVector) : Nat → NodeId → Except Fault (Option NodeId)
  | 0, _ => .error .endless
  | fuel + 1, id => do
    match (← x.arena.node id).content with
    | .decision d =>
      match ← d.next? v with
      | none => return none
      | some child => routeLoop v fuel child
    | .leaf _ => return some id
    | .graph _ => return none

/-- The leaf that a vector is routed to, `none` when its way ends in an empty
slot. -/
def route (v : FeatureVector) : Except Fault (Option NodeId) :=
  match x.arena.root with
  | none => .ok none
  | some root => x.routeLoop v (x.arena.size + 1) root

/-- A node with a vector at the end of its list. -/
def appendTo (v : FeatureVector) (n : Node) : Node :=
  match n.content with
  | .leaf (.featureVectors vectors) =>
    { n with content := .leaf (.featureVectors (vectors ++ [v])) }
  | _ => n

/-- Adds a vector to the leaf it is routed to and gives the leaf. -/
def add (v : FeatureVector) : Except Fault (Indexer × Option NodeId) := do
  match ← x.route v with
  | none => return ({ x with dropped := x.dropped + 1 }, none)
  | some leaf =>
    let nodes := x.arena.nodes.modify leaf (appendTo v)
    let placed := if x.arena.nodeIs holdsVectors leaf then x.placed + 1 else x.placed
    return ({ x with arena := { x.arena with nodes }, placed }, some leaf)

/-- Adds several vectors and gives the number of those that found a leaf. -/
def fill : Indexer → List FeatureVector → Except Fault (Indexer × Nat)
  | x, [] => .ok (x, 0)
  | x, v :: rest => do
    let (x, leaf) ← x.add v
    let (x, found) ← fill x rest
    return (x, found + if leaf.isSome then 1 else 0)

/-- The tree with its filled leaves. -/
def freeze : Except GraphError Cart := Cart.ofBuilder? (Builder.ofArena x.arena)

end Indexer

end FeatureTree
