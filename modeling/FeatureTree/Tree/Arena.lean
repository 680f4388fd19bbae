/-
Arenas: the nodes of a graph by number.

A node is a decision, a leaf, or a graph node, which backs a specific decision
off to a default leaf.  Besides its content a node keeps the link to the parent
it was first attached to, whether it is the root, and how many data points lie
below it.

* `Node.children` — the child slots in traversal order;
* `Arena.node?` — the node with a number;
* `GraphError` — what can be wrong with the structure of a graph.
-/
import FeatureTree.Leaf.Payload
import FeatureTree.Tree.Decision
import FeatureTree.Tree.Properties

namespace FeatureTree

/-- A specific decision with a default leaf to back off to. -/
structure GraphNode where
  leaf : Option NodeId := none
  decision : Option NodeId := none
  deriving DecidableEq, Repr, Inhabited

/-- What a node is. -/
inductive NodeContent where
  | decision (d : Decision)
  | leaf (p : Payload)
  | graph (g : GraphNode)
  deriving DecidableEq, Repr

namespace NodeContent

/-- The child slots in traversal order; the leaf of a graph node comes before its
decision. -/
def children : NodeContent → List (Option NodeId)
  | decision d => d.children.toList
  | leaf _ => []
  | graph g => [g.leaf, g.decision]

/-- The content with every child id renamed. -/
def renumber (rename : NodeId → NodeId) : NodeContent → NodeContent
  | decision d => decision { d with children := d.children.map (Option.map rename) }
  | leaf p => leaf p
  | graph g => graph ⟨g.leaf.map rename, g.decision.map rename⟩

end NodeContent

/-- A node of an arena. -/
structure Node where
  content : NodeContent
  /-- The parent to which the node was first attached. -/
  mother : Option NodeId := none
  /-- The slot of that parent. -/
  index : Nat := 0
  isRoot : Bool := false
  /-- Number of data points below the node, as of the last freezing. -/
  count : Nat := 0
  deriving DecidableEq, Repr

namespace Node

variable (n : Node)

/-- The child slots in traversal order. -/
def children : List (Option NodeId) := n.content.children

/-- The children in traversal order, empty slots left out. -/
def childIds : List NodeId := n.children.filterMap id

/-- Whether a node is a leaf. -/
def isLeaf : Bool := match n.content with | .leaf _ => true | _ => false

/-- Whether a node is a decision. -/
def isDecision : Bool := match n.content with | .decision _ => true | _ => false

/-- Whether a node is a graph node. -/
def isGraphNode : Bool := match n.content with | .graph _ => true | _ => false

/-- The payload of a leaf. -/
def payload? : Option Payload := match n.content with | .leaf p => some p | _ => none

/-- The decision of a decision node. -/
def decision? : Option Decision := match n.content with | .decision d => some d | _ => none

end Node

/-- Nodes by number, the root if one was chosen, the schema that the decisions
refer to, and properties. -/
structure Arena where
  schema : Schema
  nodes : Array Node := #[]
  root : Option NodeId := none
  properties : Properties := .empty
  deriving DecidableEq

namespace Arena

variable (a : Arena)

/-- Number of nodes. -/
def size : Nat := a.nodes.size

/-- The node with a number. -/
def node? (id : NodeId) : Option Node := a.nodes[id]?

/-- The node with a number, which the caller knows to exist. -/
def node (id : NodeId) : Except Fault Node :=
  match a.node? id with
  | some n => .ok n
  | none => .error (.noNode id)

/-- The children of a node, none for a number without a node. -/
def childIds (id : NodeId) : List NodeId :=
  match a.node? id with
  | some n => n.childIds
  | none => []

/-- Number of filled child slots of all nodes. -/
def edgeCount : Nat := a.nodes.toList.foldr (fun n sum => n.childIds.length + sum) 0

end Arena

/-- What a node had to be. -/
inductive NodeRole where
  | decision
  | graph
  | leaf
  | featureVectorLeaf
  deriving DecidableEq, Repr

/-- The role in words. -/
def NodeRole.describe : NodeRole → String
  | decision => "decision node"
  | graph => "graph node"
  | leaf => "leaf"
  | featureVectorLeaf => "feature-vector leaf"

/-- What can be wrong with the structure of a graph, or with a change to it. -/
inductive GraphError where
  | nodeOutOfBounds (node : NodeId) (nodes : Nat)
  | slotOutOfRange (node : NodeId) (slot : Nat)
  | noFreeSlot (node : NodeId)
  | wrongNodeKind (node : NodeId) (expected : NodeRole)
  | cycleDetected (node : NodeId)
  | sharedNode (node : NodeId)
  | unreachableNode (node : NodeId)
  | unknownFeature (node : NodeId) (feature : Nat)
  | featureKindMismatch (node : NodeId) (feature : String) (expected : FeatureKind)
  | childCountMismatch (node : NodeId) (feature : String) (expected actual : Nat)
  | graphNodeInTree (node : NodeId)
  deriving DecidableEq, Repr

/-- The wording of an error. -/
def GraphError.message : GraphError → String
  | nodeOutOfBounds node nodes =>
    "node " ++ toString node ++ " out of bounds (" ++ toString nodes ++ " nodes)"
  | slotOutOfRange node slot => "node " ++ toString node ++ " has no child slot " ++ toString slot
  | noFreeSlot node => "node " ++ toString node ++ " has no free child slot"
  | wrongNodeKind node expected => "node " ++ toString node ++ " is not a " ++ expected.describe
  | cycleDetected node => "cycle detected at node " ++ toString node
  | sharedNode node => "node " ++ toString node ++ " has more than one parent"
  | unreachableNode node => "node " ++ toString node ++ " is unreachable from the root"
  | unknownFeature node feature =>
    "feature index " ++ toString feature ++ " of node " ++ toString node ++ " is not in the schema"
  | featureKindMismatch node feature expected =>
    "node " ++ toString node ++ " tests feature '" ++ feature ++ "' which is not "
      ++ expected.describe
  | childCountMismatch node feature expected actual =>
    "node " ++ toString node ++ ": feature '" ++ feature ++ "' has " ++ toString expected
      ++ " values, node has " ++ toString actual ++ " children"
  | graphNodeInTree node =>
    "graph nodes are not allowed in a tree (node " ++ toString node ++ ")"

end FeatureTree
