/-
Freezing: the check that an arena is a well-formed graph, and the count of the
data points below every node.

From the root a depth-first search visits the nodes.  A node that is met while
its own children are being visited closes a cycle; a node that is met again
later has a second parent, which only graph nodes may have.  When the children
of a node are done, its count is known.

* `Arena.freeze` — the arena with its counts, or the first error;
* `Graph` — a frozen arena.
-/
import FeatureTree.Tree.Builder

namespace FeatureTree

/-- How far the search has got with a node. -/
inductive Mark where
  | fresh
  | entered
  | done
  deriving DecidableEq, Repr, Inhabited

/-- The state of the search: a mark and a count for every node. -/
structure Survey where
  marks : Array Mark
  counts : Array Nat

namespace Survey

/-- The survey of an arena before the search. -/
def start (size : Nat) : Survey := ⟨Array.replicate size .fresh, Array.replicate size 0⟩

/-- The mark of a node. -/
def mark (s : Survey) (id : NodeId) : Mark := s.marks[id]?.getD .fresh

/-- The count of a node. -/
def count (s : Survey) (id : NodeId) : Nat := s.counts[id]?.getD 0

/-- The survey after a node was entered. -/
def enter (s : Survey) (id : NodeId) : Survey :=
  { s with marks := s.marks.setIfInBounds id .entered }

/-- The survey after the children of a node were visited. -/
def leave (s : Survey) (id : NodeId) (count : Nat) : Survey :=
  ⟨s.marks.setIfInBounds id .done, s.counts.setIfInBounds id count⟩

end Survey

namespace Arena

variable (a : Arena)

/-- Checks a decision against the schema: the feature exists and has the kind
that the test needs, and there is a slot for every outcome. -/
def checkDecision (id : NodeId) (d : Decision) : Except GraphError Unit :=
  match a.schema.get? d.feature with
  | none => .error (.unknownFeature id d.feature)
  | some m =>
    let slots := if d.test.isBinary then 2 else m.values.size
    match d.test.neededKind? with
    | some kind =>
      if m.kind ≠ kind then .error (.featureKindMismatch id m.name kind)
      else if d.children.size ≠ slots then
        .error (.childCountMismatch id m.name slots d.children.size)
      else .ok ()
    | none =>
      if d.children.size ≠ slots then
        .error (.childCountMismatch id m.name slots d.children.size)
      else .ok ()

/-- Whether the node with a number exists and satisfies a condition. -/
def nodeIs (condition : Node → Bool) (id : NodeId) : Bool :=
  match a.node? id with
  | some n => condition n
  | none => false

/-- Checks a graph node: its default is a leaf, and its specific part a decision
or another graph node. -/
def checkGraphNode (g : GraphNode) : Except GraphError Unit := do
  if let some leaf := g.leaf then
    if !a.nodeIs Node.isLeaf leaf then .error (.wrongNodeKind leaf .leaf)
  if let some decision := g.decision then
    if !a.nodeIs (fun n => n.isDecision || n.isGraphNode) decision then
      .error (.wrongNodeKind decision .decision)

/-- Checks the content of a node. -/
def checkContent (id : NodeId) : NodeContent → Except GraphError Unit
  | .leaf _ => .ok ()
  | .graph g => a.checkGraphNode g
  | .decision d => a.checkDecision id d

/-- Checks that all children exist; of several that do not, the one in the last
slot is reported. -/
def checkChildren (n : Node) : Except GraphError Unit :=
  match n.childIds.reverse.find? (a.size ≤ ·) with
  | some child => .error (.nodeOutOfBounds child a.size)
  | none => .ok ()

/-- The count of a node, given the counts of its children. -/
def countOf (s : Survey) (n : Node) : Nat :=
  match n.content with
  | .leaf p => p.dataCount
  | _ => n.childIds.foldr (fun c sum => s.count c + sum) 0

/-- Visits a node and everything below it. The first argument bounds the number
of nodes on the way down; with one more than there are nodes it never runs out,
since the nodes on the way are different. -/
def visit : Nat → Survey → NodeId → Except GraphError Survey
  | 0, s, _ => .ok s
  | fuel + 1, s, id =>
    match a.node? id with
    | none => .error (.nodeOutOfBounds id a.size)
    | some n =>
      match s.mark id with
      | .entered => .error (.cycleDetected id)
      | .done => if n.isGraphNode then .ok s else .error (.sharedNode id)
      | .fresh => do
        a.checkContent id n.content
        a.checkChildren n
        let s' ← n.childIds.foldlM (visit fuel) (s.enter id)
        return s'.leave id (countOf s' n)

/-- The arena with the counts of a survey. -/
def withCounts (s : Survey) : Arena :=
  { a with nodes := a.nodes.mapIdx fun i n => { n with count := s.count i } }

/-- The arena with its counts, if it is well formed: an arena without nodes and
root, or one in which every node is reached from the root, no node lies below
itself, and only graph nodes have more than one parent. -/
def freeze : Except GraphError Arena :=
  match a.root with
  | none => if a.size = 0 then .ok a else .error (.unreachableNode 0)
  | some root =>
    if a.size ≤ root then .error (.nodeOutOfBounds root a.size)
    else do
      let s ← a.visit (a.size + 1) (Survey.start a.size) root
      match s.marks.findIdx? (· == Mark.fresh) with
      | some id => .error (.unreachableNode id)
      | none => return a.withCounts s

end Arena

/-- A frozen graph: an arena that came out of freezing. -/
structure Graph where
  arena : Arena
  frozen : ∃ a : Arena, a.freeze = .ok arena

namespace Graph

/-- Freezes an arena. -/
def ofArena? (a : Arena) : Except GraphError Graph :=
  match h : a.freeze with
  | .ok frozen => .ok ⟨frozen, a, h⟩
  | .error e => .error e

/-- The graph without nodes. -/
def empty (schema : Schema) : Graph := ⟨{ schema }, { schema }, rfl⟩

end Graph

/-- Freezes the arena of a builder. -/
def Builder.finish (b : Builder) : Except GraphError Graph := Graph.ofArena? b.toArena

end FeatureTree
