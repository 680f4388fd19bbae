/-
Builders: arenas under construction.

Nodes are added first and attached afterwards.  A child is attached to a numbered
slot (`setChild`), to the next slot that was not yet filled in order
(`pushChild`), or to one of the two places of a graph node.  The first
attachment of a node that is not the root also fixes its link to the parent.

* `Builder.addDecision`, `Builder.addLeaf`, `Builder.addGraphNode` — new nodes;
* `Builder.setRoot` — the choice of the root;
* `Builder.setChild`, `Builder.pushChild`, `Builder.setGraphLeaf`,
  `Builder.setGraphDecision` — attachment;
* `Builder.splice` — another arena in the place of a node.
-/
import FeatureTree.Tree.Arena

namespace FeatureTree

/-- An arena under construction, with the number of slots of every node that
were filled in order. -/
structure Builder extends Arena where
  filled : Array Nat := #[]

namespace Builder

variable (b : Builder)

/-- The builder without nodes. -/
def empty (schema : Schema) : Builder := { schema }

/-- The arena reopened for changes; filling in order starts anew. -/
def ofArena (a : Arena) : Builder := { a with filled := Array.replicate a.size 0 }

/-- Adds an unattached node and gives its number. -/
def add (content : NodeContent) : Builder × NodeId :=
  ({ b with nodes := b.nodes.push { content }, filled := b.filled.push 0 }, b.nodes.size)

/-- Adds an unattached decision. -/
def addDecision (d : Decision) : Builder × NodeId := b.add (.decision d)

/-- Adds an unattached leaf. -/
def addLeaf (p : Payload) : Builder × NodeId := b.add (.leaf p)

/-- Records the parent and slot of a node that has no parent yet and is not the
root. -/
def link (parent : NodeId) (slot : Nat) (child : NodeId) : Builder :=
  { b with nodes := b.nodes.modify child fun n =>
      if n.mother.isNone && !n.isRoot then { n with mother := some parent, index := slot } else n }

/-- Records the parent and slot of a child, if there is one. -/
def link? (parent : NodeId) (slot : Nat) : Option NodeId → Builder
  | some child => b.link parent slot child
  | none => b

/-- Adds a graph node over nodes that may exist already. -/
def addGraphNode (g : GraphNode) : Builder × NodeId :=
  let (b', id) := b.add (.graph g)
  ((b'.link? id 0 g.leaf).link? id 1 g.decision, id)

/-- Makes a node the root. The former root is an ordinary node again, the new one
has no parent. -/
def setRoot (id : NodeId) : Builder :=
  let cleared := match b.root with
    | some old => b.nodes.modify old fun n => { n with isRoot := false }
    | none => b.nodes
  { b with
    nodes := cleared.modify id fun n => { n with isRoot := true, mother := none }
    root := some id }

/-- Checks that a node exists. -/
def check (id : NodeId) : Except GraphError Unit :=
  if id < b.size then .ok () else .error (.nodeOutOfBounds id b.size)

/-- Checks that a child exists, if there is one. -/
def check? : Option NodeId → Except GraphError Unit
  | some child => b.check child
  | none => .ok ()

/-- The decision with a number. -/
def decisionAt (id : NodeId) : Except GraphError Decision :=
  match (b.node? id).bind Node.decision? with
  | some d => .ok d
  | none => .error (.wrongNodeKind id .decision)

/-- The builder with the content of one node replaced. -/
def setContent (id : NodeId) (content : NodeContent) : Builder :=
  { b with nodes := b.nodes.modify id fun n => { n with content } }

/-- Puts a child, or nothing, into a slot of a decision. -/
def setChild (parent : NodeId) (slot : Nat) (child : Option NodeId) :
    Except GraphError Builder := do
  b.check parent
  b.check? child
  let d ← b.decisionAt parent
  if slot < d.children.size then
    let d := { d with children := d.children.setIfInBounds slot child }
    return (b.setContent parent (.decision d)).link? parent slot child
  else .error (.slotOutOfRange parent slot)

/-- Number of slots of a node that were filled in order. -/
def filledSlots (parent : NodeId) : Nat := b.filled[parent]?.getD 0

/-- Puts a child, or nothing, into the next slot of a decision and gives the
slot. -/
def pushChild (parent : NodeId) (child : Option NodeId) : Except GraphError (Builder × Nat) := do
  b.check parent
  let slot := b.filledSlots parent
  let d ← b.decisionAt parent
  if d.children.size ≤ slot then .error (.noFreeSlot parent)
  else
    let b' ← b.setChild parent slot child
    return ({ b' with filled := b'.filled.modify parent (· + 1) }, slot)

/-- Puts a child, or nothing, into a place of a graph node. -/
def setGraphChild (parent : NodeId) (slot : Nat) (place : GraphNode → GraphNode)
    (child : Option NodeId) : Except GraphError Builder := do
  b.check parent
  b.check? child
  match (b.node? parent).map Node.content with
  | some (.graph g) => return (b.setContent parent (.graph (place g))).link? parent slot child
  | _ => .error (.wrongNodeKind parent .graph)

/-- Chooses the default leaf of a graph node. -/
def setGraphLeaf (parent : NodeId) (child : Option NodeId) : Except GraphError Builder :=
  b.setGraphChild parent 0 (fun g => { g with leaf := child }) child

/-- Chooses the specific decision of a graph node. -/
def setGraphDecision (parent : NodeId) (child : Option NodeId) : Except GraphError Builder :=
  b.setGraphChild parent 1 (fun g => { g with decision := child }) child

/-- The builder with other properties. -/
def setProperties (properties : Properties) : Builder := { b with properties }

/-- The builder with one property set. -/
def insertProperty (key value : String) : Builder :=
  { b with properties := b.properties.insert key value }

/-- The number that a node of a spliced arena gets: its root takes the number
`target`, and the others follow the `base` existing nodes in their order. -/
def spliceId (target base root id : NodeId) : NodeId :=
  if id = root then target else if id < root then base + id else base + id - 1

/-- Puts the whole of another arena, whose root is given, in the place of a node.
The root takes over the number and the parent link of that node. -/
def splice (target : NodeId) (other : Arena) (root : NodeId) : Builder :=
  let rename := spliceId target b.size root
  let moved (n : Node) : Node :=
    { n with content := n.content.renumber rename, mother := n.mother.map rename }
  let others := ((other.nodes.extract 0 root) ++ (other.nodes.extract (root + 1))).map moved
  let replaced := match other.node? root with
    | some top => b.nodes.modify target fun old =>
        { old with content := top.content.renumber rename, count := top.count }
    | none => b.nodes
  { b with
    nodes := replaced ++ others
    filled := b.filled ++ Array.replicate others.size 0 }

end Builder

end FeatureTree
