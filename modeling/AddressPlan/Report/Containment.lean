import AddressPlan.NodeTree.Literals
import AddressPlan.Report.Row
import AddressPlan.Report.Usage

/-!
# Report along containment

The literal blocks of a layout nest by their addresses, whatever nodes they belong
to.  `plant` keeps a forest in which every block stands below the smallest block
around it and siblings are ordered by address.
-/

namespace AddressPlan.Report

open NodeTree (Claim)

/-- A block that holds `inner` and more. -/
def Surrounds (outer inner : Network) : Prop :=
  outer ≠ inner ∧ outer.Contains inner

instance (outer inner : Network) : Decidable (Surrounds outer inner) :=
  inferInstanceAs (Decidable (_ ∧ _))

/-- Blocks in order of their first address, larger ones first. -/
def Precedes (a b : Network) : Prop :=
  a.base.address < b.base.address ∨ a.base.address = b.base.address ∧ a.length < b.length

instance (a b : Network) : Decidable (Precedes a b) :=
  inferInstanceAs (Decidable (_ ∨ _))

/-- Puts a block among siblings none of which surrounds it.  It adopts those that it
contains. -/
def settle (c : Claim) (siblings : List (Rose Claim)) : List (Rose Claim) :=
  let adopted := siblings.filter fun t ↦ c.block.Contains t.value.block
  let kept := siblings.filter fun t ↦ ¬ c.block.Contains t.value.block
  let earlier (t : Rose Claim) : Bool := Precedes t.value.block c.block
  kept.takeWhile earlier ++ .node c adopted :: kept.dropWhile earlier

mutual
def plantBelow (c : Claim) : Rose Claim → Rose Claim
  | .node d ts => .node d ((descend? c ts).getD (settle c ts))

def descend? (c : Claim) : List (Rose Claim) → Option (List (Rose Claim))
  | [] => none
  | t :: ts =>
    if Surrounds t.value.block c.block then some (plantBelow c t :: ts)
    else (descend? c ts).map (t :: ·)
end

def plant (forest : List (Rose Claim)) (c : Claim) : List (Rose Claim) :=
  (descend? c forest).getD (settle c forest)

def forest (claims : List Claim) : List (Rose Claim) :=
  claims.foldl plant []

def rowOfClaim (e : Rose.Entry Claim) : Row where
  name := e.value.owner.node.name
  cidr := e.value.block.text
  label := e.label
  enclosing := e.enclosing.map (·.owner.node.name)
  usage :=
    if e.below.isEmpty then some 0
    else usage? e.value.block.family.addressBits e.value.block.length
      (e.below.map (·.block.length))

def ofClaims (claims : List Claim) : List Row :=
  (Rose.outline (forest claims)).map rowOfClaim

end AddressPlan.Report
