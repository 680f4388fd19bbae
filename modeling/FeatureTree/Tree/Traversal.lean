/-
Traversal: the nodes below a start node in depth-first order.

A node comes before its children, and the children come in slot order.  Every
node is met once, so shared parts are not repeated and cycles end.

* `Arena.preorder` — the nodes from a start node on;
* `Arena.select` — those of them that a `NodeFilter` accepts;
* `Arena.nodeCount`, `Arena.collect` — what is derived from it.

Design: a child number without a node is a fault of the arena.  A `Traversal`
records it together with the nodes that were met before, since a reader of the
first few nodes never gets to it.
-/
import FeatureTree.Tree.Arena

namespace FeatureTree

/-- Which kinds of nodes a traversal gives. -/
structure NodeFilter where
  leaves : Bool
  decisions : Bool
  graphNodes : Bool
  deriving DecidableEq, Repr

namespace NodeFilter

/-- All nodes. -/
def all : NodeFilter := ⟨true, true, true⟩

/-- Leaves alone. -/
def leavesOnly : NodeFilter := ⟨true, false, false⟩

/-- Decisions alone. -/
def decisionsOnly : NodeFilter := ⟨false, true, false⟩

/-- Graph nodes alone. -/
def graphNodesOnly : NodeFilter := ⟨false, false, true⟩

/-- Whether a filter accepts a node. -/
def accepts (f : NodeFilter) (n : Node) : Bool :=
  (f.leaves && n.isLeaf) || (f.decisions && n.isDecision) || (f.graphNodes && n.isGraphNode)

end NodeFilter

/-- The nodes that were met, in order, and the number without a node at which the
traversal had to stop, if there was one. -/
structure Traversal where
  nodes : List (NodeId × Node)
  missing : Option NodeId
  deriving DecidableEq, Repr

namespace Traversal

/-- The numbers of the nodes, unless the traversal had to stop. -/
def ids (t : Traversal) : Except Fault (List NodeId) :=
  match t.missing with
  | some id => .error (.noNode id)
  | none => .ok (t.nodes.map (·.1))

end Traversal

namespace Arena

variable (a : Arena)

/-- The loop of `preorder`: `stack` holds the nodes to visit, `seen` the marks of
those visited and `met` the latter in reverse. The first argument bounds the
number of steps. -/
def preorderLoop : Nat → List NodeId → Array Bool → List (NodeId × Node) → Traversal
  | 0, _, _, met => ⟨met.reverse, none⟩
  | _ + 1, [], _, met => ⟨met.reverse, none⟩
  | fuel + 1, id :: stack, seen, met =>
    match a.node? id with
    | none => ⟨met.reverse, some id⟩
    | some n =>
      if seen[id]?.getD false then preorderLoop fuel stack seen met
      else
        let seen' := seen.setIfInBounds id true
        let next := n.childIds.filter fun c => !(seen'[c]?.getD false)
        preorderLoop fuel (next ++ stack) seen' ((id, n) :: met)

/-- The nodes from a start node on. Every step takes a node off the stack, on
which each filled slot is put at most once. -/
def preorder (start : Option NodeId) : Traversal :=
  a.preorderLoop (a.edgeCount + 2) start.toList (Array.replicate a.size false) []

/-- The nodes from a start node on that a filter accepts. -/
def select (start : Option NodeId) (f : NodeFilter) : Traversal :=
  let t := a.preorder start
  { t with nodes := t.nodes.filter fun p => f.accepts p.2 }

/-- Number of nodes that the root reaches. -/
def nodeCount : Except Fault Nat := do
  return (← (a.preorder a.root).ids).length

/-- The payloads of the leaves below a node in order, `none` if there is no leaf
or the first one holds a distribution. -/
def collect (id : NodeId) : Except Fault (Option Collection) :=
  let t := a.select (some id) .leavesOnly
  match t.nodes.filterMap fun p => p.2.payload? with
  | [] => do
    let _ ← t.ids
    return none
  | first :: rest =>
    match Collection.like? first with
    | none => .ok none
    | some start => do
      let all ← (first :: rest).foldlM Collection.append start
      let _ ← t.ids
      return some all

end Arena

end FeatureTree
