import AddressPlan.Network.Accepted
import AddressPlan.NodeTree.Budget

/-!
# Literal blocks

The literal blocks of a tree are read in breadth-first order.  Each has to be
canonical, and no block may be claimed twice.
-/

namespace AddressPlan.NodeTree

structure Claim where
  owner : Placed
  block : Network
  deriving DecidableEq, Repr

/-- Names the node in a complaint about one of its blocks. -/
def blame (n : Node) : PlanError → PlanError
  | .malformed cause => .malformed (.inNode n.name cause)
  | e => e

def claim (claims : List Claim) (owner : Placed) (text : String) :
    Except PlanError (List Claim) :=
  match Network.parseBlock text with
  | .error e => .error (blame owner.node e)
  | .ok block =>
    match claims.find? (·.block == block) with
    | some first => .error (.duplicate block.text first.owner.node.name owner.node.name)
    | none => .ok (claims ++ [⟨owner, block⟩])

def writtenBlocks (t : NodeTree) : List (Placed × String) :=
  t.placed.flatMap fun p ↦ p.node.blockTexts.map fun text ↦ (p, text)

def claims (t : NodeTree) : Except PlanError (List Claim) :=
  t.writtenBlocks.foldlM (fun claims (owner, text) ↦ claim claims owner text) []

/-- The budget first, then the literal blocks. -/
def check (t : NodeTree) (allowed : Int) (strict : Bool) : Except PlanError Unit := do
  t.checkBudget allowed strict
  let _ ← t.claims

end AddressPlan.NodeTree
