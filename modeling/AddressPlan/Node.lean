import AddressPlan.Separated

/-!
# Layout nodes

A layout is stored as flat rows that point to their parents.  Nodes of an IPv6
layout are sized by a bit width; nodes of an IPv4 layout list literal blocks.
-/

namespace AddressPlan

structure Node where
  id : Int := 0
  layoutId : Int := 0
  parentId : Int := 0
  name : String
  cidr : String := ""
  sequence : Int := 0
  bitWidth : Int := 0
  value : Int := 0
  literals : String := ""
  /-- The client asks for this node's subtree to be written anew. -/
  modified : Bool := false
  deriving DecidableEq, Repr

namespace Node

def rootParent : Int := 0

def isRoot (n : Node) : Bool :=
  n.parentId == rootParent

def blockTexts (n : Node) : List String :=
  if n.literals.isEmpty then []
  else (Separated.split ',' n.literals.toList).map String.ofList

end Node

end AddressPlan
