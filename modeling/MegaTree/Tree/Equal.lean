import MegaTree.Effect.Objects
import MegaTree.Tree.Basic

/-!
# Comparing two trees

`MegaTree::operator==` descends in both trees at once, along the children of the first one.  The
two operands may be one object.
-/

namespace MegaTree

open Effect

/-- `operator==` of `Node`: the green of the first node is compared where its red should be. -/
def Node.equals (a n : Node) : Bool :=
  a.point 0 == n.point 0 &&
  a.point 1 == n.point 1 &&
  a.point 2 == n.point 2 &&
  a.color 1 == n.color 0 &&
  a.color 1 == n.color 1 &&
  a.color 2 == n.color 2 &&
  a.count == n.count &&
  a.children == n.children

/-- The operands of a comparison. -/
inductive Operand
  /-- `tree1` -/
  | tree1
  /-- `tree2` -/
  | tree2
  deriving DecidableEq, Repr

/-- Programs that work on two trees. -/
abbrev TwoTreesM := Prog (cacheSig.named Operand) Err

variable (cfg : Operand → Config)

/-- The loop of `checkEqualRecursive`, which goes on as long as the children are equal. -/
def checkEqualChildren (body : NodeHandle → NodeHandle → TwoTreesM Bool)
    (node1 node2 : NodeHandle) : List ChildNr → TwoTreesM Bool
  | [] => pure true
  | i :: is => do
    let n ← node1.get.on .tree1
    if n.hasChild i then
      let child1 ← (getChildNode (cfg .tree1) node1 i).on .tree1
      let child2 ← (getChildNode (cfg .tree2) node2 i).on .tree2
      child1.waitUntilLoaded.on .tree1
      child2.waitUntilLoaded.on .tree2
      let childIsEqual ← body child1 child2
      let _ ← (releaseNode child1).on .tree1
      let _ ← (releaseNode child2).on .tree2
      if !childIsEqual then pure false else checkEqualChildren body node1 node2 is
    else checkEqualChildren body node1 node2 is

/-- `checkEqualRecursive(tree1, tree2, node1, node2)` -/
def checkEqualRecursive : ℕ → NodeHandle → NodeHandle → TwoTreesM Bool
  | 0, _, _ => Prog.fail .outOfFuel
  | fuel + 1, node1, node2 => do
    let n1 ← node1.get.on .tree1
    let n2 ← node2.get.on .tree2
    if !n1.equals n2 then pure false
    else
      let n1 ← node1.get.on .tree1
      if n1.isLeaf then pure true
      else checkEqualChildren cfg (checkEqualRecursive fuel) node1 node2 (List.finRange 8)

/-- `operator==`, of the tree `tree1` with the argument `tree2`. -/
def treeEquals : TwoTreesM Bool := do
  let myRoot ← (getRoot (cfg .tree1)).on .tree1
  let otherRoot ← (getRoot (cfg .tree2)).on .tree2
  let equal ← checkEqualRecursive cfg 42 myRoot otherRoot
  let _ ← (releaseNode myRoot).on .tree1
  let _ ← (releaseNode otherRoot).on .tree2
  pure equal

end MegaTree
