import AddressPlan.Network.Accepted

/-!
# Plans

A plan is a top-level block and the deepest prefix length that its layouts may
allocate down to.
-/

namespace AddressPlan

structure Plan where
  id : Int
  cidr : String
  maskLength : Nat
  description : Option String := none
  layoutCount : Option Nat := none
  deriving DecidableEq, Repr

structure PlanRequest where
  cidr : String
  maskLength : Nat
  description : Option String := none
  deriving DecidableEq, Repr

namespace Plan

/-- The block of a plan with these fields, if they keep the rules: canonical text,
room below the block, and no deeper than segments can be numbered. -/
def checkFields (cidr : String) (maskLength : Nat) : Except PlanError Network := do
  let network ← Network.parse cidr
  if network.base.text ≠ cidr then
    throw (.malformed (.planSpelling cidr network.base.text))
  if maskLength ≤ network.length then
    throw (.malformed (.planDepth maskLength cidr))
  if network.family.maskLimit < maskLength then
    throw (.capacity (.planMask maskLength network.family.maskLimit cidr))
  return network

def check (plan : Plan) : Except PlanError Unit :=
  (checkFields plan.cidr plan.maskLength).map fun _ ↦ ()

def network (plan : Plan) : Except PlanError Network :=
  Network.parse plan.cidr

def family (plan : Plan) : Except PlanError Family :=
  plan.network.map Network.family

def baseLength (plan : Plan) : Except PlanError Nat :=
  plan.network.map Network.length

def allowedBits (plan : Plan) : Except PlanError Nat :=
  plan.baseLength.map fun length ↦ plan.maskLength - length

end Plan

def PlanRequest.check (request : PlanRequest) : Except PlanError Unit :=
  (Plan.checkFields request.cidr request.maskLength).map fun _ ↦ ()

end AddressPlan
