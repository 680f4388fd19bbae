/-
Classification and regression trees: frozen graphs without graph nodes.

* `Cart.ofGraph?`, `Cart.ofBuilder?` — a graph that has the shape of a tree;
* `Cart.nodeFor` — the descent that stops where the data gets sparse;
* `Cart.graft` — another tree in the place of a leaf.
-/
import FeatureTree.Tree.Descent
import FeatureTree.Tree.Freeze

namespace FeatureTree

namespace Arena

variable (a : Arena)

/-- The first node that is named as a child a second time, among these children
and after those that `named` marks. -/
def repeatedChild? (named : Array Bool) : List NodeId → Option NodeId
  | [] => none
  | c :: rest =>
    if named[c]?.getD false then some c else repeatedChild? (named.setIfInBounds c true) rest

/-- What keeps an arena from having the shape of a tree: the lowest graph node,
or a node with two parents. -/
def treeFault? : Option GraphError :=
  match a.nodes.findIdx? Node.isGraphNode with
  | some id => some (.graphNodeInTree id)
  | none =>
    (repeatedChild? (Array.replicate a.size false) (a.nodes.toList.flatMap Node.childIds)).map
      .sharedNode

end Arena

/-- A frozen graph that is a tree. -/
structure Cart where
  graph : Graph
  tree : graph.arena.treeFault? = none

namespace Cart

/-- The tree that a graph is, or why it is none. -/
def ofGraph? (g : Graph) : Except GraphError Cart :=
  match h : g.arena.treeFault? with
  | some e => .error e
  | none => .ok ⟨g, h⟩

/-- Freezes the arena of a builder as a tree. -/
def ofBuilder? (b : Builder) : Except GraphError Cart := do ofGraph? (← b.finish)

/-- The tree without nodes. -/
def empty (schema : Schema) : Cart :=
  ⟨Graph.empty schema, by simp [Graph.empty, Arena.treeFault?, Arena.repeatedChild?]⟩

variable (t : Cart)

/-- The nodes of the tree. -/
def arena : Arena := t.graph.arena

/-- Whether there are no nodes. -/
def isEmpty : Bool := t.arena.root.isNone

/-- The loop of `nodeFor`. -/
def nodeForLoop (v : FeatureVector) (minCount : Nat) : Nat → NodeId → Except Fault NodeId
  | 0, _ => .error .endless
  | fuel + 1, id => do
    let n ← t.arena.node id
    match n.content with
    | .decision d =>
      if 0 < minCount ∧ n.count ≤ minCount then return id
      else
        match ← d.next? v with
        | none => return id
        | some child =>
          if 0 < minCount ∧ (← t.arena.node child).count ≤ minCount then return id
          else nodeForLoop v minCount fuel child
    | _ => return id

/-- The node at which the descent for a vector stops: the last one before an
empty slot, before a node with no more than `minCount` data points, or the leaf.
With `minCount` zero the counts do not matter. -/
def nodeFor (v : FeatureVector) (minCount : Nat) : Except Fault (Option NodeId) :=
  match t.arena.root with
  | none => .ok none
  | some root => do return some (← t.nodeForLoop v minCount (t.arena.size + 1) root)

end Cart

/-- Why a tree could not be put in the place of a leaf. -/
inductive GraftError where
  | notALeaf (node : NodeId)
  | atRoot (node : NodeId)
  | emptySubtree
  | schemaMismatch
  | structural (e : GraphError)
  deriving DecidableEq, Repr

/-- The wording of an error. -/
def GraftError.message : GraftError → String
  | notALeaf node => "node " ++ toString node ++ " is not a leaf"
  | atRoot node => "node " ++ toString node ++ " is the root and cannot be replaced"
  | emptySubtree => "cannot graft an empty tree"
  | schemaMismatch => "grafted tree uses a different feature schema"
  | structural e => e.message

namespace Cart

/-- Whether trees over two schemas may be joined: the schemas agree, or they are
one schema that both trees were built over, which `shared` claims.  A schema with a
weight that is not a number does not agree with itself, so that only the claim
lets two trees over it be joined; the claim alone does not join different schemas. -/
def joinable (shared : Bool) (s t : Schema) : Bool := (shared && s == t) || s.agrees t

/-- Checks that a tree can be put in the place of a node, and gives the root of
the tree. -/
def checkGraft (t other : Cart) (shared : Bool) (leaf : NodeId) : Except GraftError NodeId :=
  match t.arena.node? leaf with
  | none => .error (.structural (.nodeOutOfBounds leaf t.arena.size))
  | some n =>
    if !n.isLeaf then .error (.notALeaf leaf)
    else if n.mother.isNone || n.isRoot then .error (.atRoot leaf)
    else
      match other.arena.root with
      | none => .error .emptySubtree
      | some root =>
        if joinable shared t.arena.schema other.arena.schema then .ok root
        else .error .schemaMismatch

/-- The tree with another one in the place of a leaf.  The root of the other tree
takes the number and the parent of the leaf.  `shared` says that both trees were
built over one schema, not over two that are written alike. -/
def graft (t other : Cart) (shared : Bool) (leaf : NodeId) : Except GraftError Cart := do
  let root ← t.checkGraft other shared leaf
  match ofBuilder? ((Builder.ofArena t.arena).splice leaf other.arena root) with
  | .ok grafted => return grafted
  | .error e => .error (.structural e)

end Cart

end FeatureTree
