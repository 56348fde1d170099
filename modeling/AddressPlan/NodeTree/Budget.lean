import AddressPlan.Error
import AddressPlan.NodeTree.Basic
import AddressPlan.Word

/-!
# Bit budgets

The widths along a path from the root add up.  `NodeTree.committedWidth` is the
largest such sum of a tree that can be numbered, in words of 32 bits that wrap around;
`NodeTree.checkBudget` reports the first node in pre-order whose sum breaks the plan's
allowance.
-/

namespace AddressPlan.NodeTree

mutual
/-- The largest sum of widths from a node down, its own included, as a word. -/
def widthOf : Rose Placed → Except PlanError Nat
  | .node p ts =>
    if p.node.bitWidth ≤ 0 then .error (.malformed (.noWidth p.node.name))
    else do
      let deepest ← widthBelow ts
      return Word.add 32 (Word.wrap 32 p.node.bitWidth) deepest

def widthBelow : List (Rose Placed) → Except PlanError Nat
  | [] => .ok 0
  | t :: ts => do
    let first ← widthOf t
    let others ← widthBelow ts
    return max first others
end

/-- The root's width plus the widest path below it.  Only the root may be without
width. -/
def committedWidth (t : NodeTree) : Except PlanError Nat :=
  match t.branch? with
  | none => .ok 0
  | some (.node p ts) =>
    if p.node.bitWidth < 0 then
      .error (.malformed (.negativeRoot p.node.name p.node.bitWidth))
    else do
      let deepest ← widthBelow ts
      return Word.add 32 (Word.wrap 32 p.node.bitWidth) deepest

/-- What is wrong with a node whose path sums up to `total`. -/
def widthFault? (n : Node) (total allowed : Int) (strictLeaf : Bool) : Option PlanError :=
  if n.bitWidth < 0 then some (.malformed (.negativeWidth n.name n.bitWidth))
  else if allowed < total then some (.capacity (.nodeBits n.name total allowed))
  else if strictLeaf ∧ total ≠ allowed then some (.malformed (.unevenLeaf n.name total allowed))
  else none

mutual
def checkBranch (allowed : Int) (strict : Bool) (above : Int) :
    Rose Placed → Except PlanError Unit
  | .node p ts =>
    let total := above + p.node.bitWidth
    match widthFault? p.node total allowed (strict && ts.isEmpty) with
    | some e => .error e
    | none => checkSiblings allowed strict total ts

def checkSiblings (allowed : Int) (strict : Bool) (above : Int) :
    List (Rose Placed) → Except PlanError Unit
  | [] => .ok ()
  | t :: ts => do
    checkBranch allowed strict above t
    checkSiblings allowed strict above ts
end

/-- Every path stays within `allowed` bits; a strict budget has to be used up by
every leaf. -/
def checkBudget (t : NodeTree) (allowed : Int) (strict : Bool) : Except PlanError Unit :=
  checkSiblings allowed strict 0 t.branch?.toList

end AddressPlan.NodeTree
