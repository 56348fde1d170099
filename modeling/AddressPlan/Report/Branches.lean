import AddressPlan.Network.Reader
import AddressPlan.NodeTree.Basic
import AddressPlan.Report.Row
import AddressPlan.Report.Usage

/-!
# Report along the node tree

One row for every node but the root, in pre-order.  The share in use is known once
a node and all of its children have blocks.
-/

namespace AddressPlan.Report

/-- The prefix length of a node's block, if it has one. -/
def blockLength? (n : Node) : Option Nat :=
  (Network.parse? n.cidr).map Network.length

def nodeUsage? (maxLength : Nat) (n : Node) (children : List Node) : Option Nat :=
  if children.isEmpty then some 0
  else do
    let length ← blockLength? n
    let lengths ← children.mapM blockLength?
    usage? maxLength length lengths

def rowOfNode (maxLength : Nat) (e : Rose.Entry Placed) : Row where
  name := e.value.node.name
  cidr := e.value.node.cidr
  label := e.label
  enclosing := e.enclosing.map (·.node.name)
  usage := nodeUsage? maxLength e.value.node (e.below.map Placed.node)

def ofTree (t : NodeTree) (maxLength : Nat) : List Row :=
  (Rose.outline t.branches).map (rowOfNode maxLength)

end AddressPlan.Report
