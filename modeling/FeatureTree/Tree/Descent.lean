/-
Descent: from a node down to the payload for a vector, and the way back up.

At a decision the descent follows the child that the vector selects.  At a graph
node it first follows the specific decision, and if that yields nothing or no
data it backs off to the default leaf.

* `Arena.interpret`, `Arena.interpretFrom` — the payload for a vector;
* `Arena.depth`, `Arena.decisionPath` — the links from a node up to the root,
  counted and described.
-/
import FeatureTree.Tree.Arena
import FeatureTree.Text.Ranges

namespace FeatureTree.Arena

variable (a : Arena)

/-- The descent from a node; the first argument bounds the number of nodes on the
way. -/
def descend (v : FeatureVector) : Nat → NodeId → Except Fault (Option Payload)
  | 0, _ => .error .endless
  | fuel + 1, id => do
    match (← a.node id).content with
    | .leaf p => return some p
    | .decision d =>
      match ← d.next? v with
      | none => return none
      | some child => descend v fuel child
    | .graph g =>
      let specific ← match g.decision with
        | none => pure none
        | some child => descend v fuel child
      match specific.filter (!·.isEmpty) with
      | some p => return some p
      | none =>
        match g.leaf with
        | none => return none
        | some leaf => descend v fuel leaf

/-- The payload that a vector reaches from a node; `none` when the way ends in an
empty slot. -/
def interpretFrom (start : NodeId) (v : FeatureVector) : Except Fault (Option Payload) :=
  a.descend v (a.size + 1) start

/-- The payload that a vector reaches from the root. -/
def interpret (v : FeatureVector) : Except Fault (Option Payload) :=
  match a.root with
  | none => .ok none
  | some root => a.interpretFrom root v

/-- The loop of `depth`. -/
def depthLoop : Nat → NodeId → Except Fault Nat
  | 0, _ => .ok 0
  | fuel + 1, id => do
    match (← a.node id).mother with
    | none => return 0
    | some mother => return 1 + (← depthLoop fuel mother)

/-- Number of links from a node up to a node without parent.  Should the links
run in a circle, the count stops one beyond the number of nodes. -/
def depth (id : NodeId) : Except Fault Nat := a.depthLoop (a.size + 1) id

/-- The loop of `decisionPath`; `steps` holds the outcomes met so far, the topmost
first, and after `room` further ones the next is the last.  Graph nodes have no
outcome, so that links among them that run in a circle are followed for ever; the
first argument bounds the number of links. -/
def pathLoop : Nat → Nat → NodeId → List String → Except Fault (List String)
  | 0, _, _, _ => .error .endless
  | fuel + 1, room, id, steps => do
    let n ← a.node id
    match n.mother with
    | none => return steps
    | some mother =>
      match (← a.node mother).content with
      | .decision d =>
        let steps := d.describeBranch a.schema n.index :: steps
        match room with
        | 0 => return steps
        | room + 1 => pathLoop fuel room mother steps
      | _ => pathLoop fuel room mother steps

/-- The outcomes that lead from the root to a node, with ` - ` between them.
Should the links run in a circle with a decision on it, the path has one outcome
more than there are nodes; on a circle of graph nodes it does not end. -/
def decisionPath (id : NodeId) : Except Fault String := do
  return Text.joinWith " - " (← a.pathLoop ((a.size + 1) * (a.size + 1)) a.size id [])

end FeatureTree.Arena
