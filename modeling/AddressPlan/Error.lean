import AddressPlan.Network.Printer
import AddressPlan.Node

/-!
# Refusals

Every operation that can be refused says so by a `PlanError`, whose five kinds
carry the cause.  `PlanError.message` is the wording shown to clients.
-/

namespace AddressPlan

/-- Why an input is not well formed. -/
inductive Malformation where
  | cidr (text : String)
  | block (text : String)
  | blockSpelling (text expected : String)
  | planSpelling (text expected : String)
  | planDepth (maskLength : Nat) (cidr : String)
  | maskLength
  | rootCount (layout : String) (found : Nat)
  | disconnected (layout : String) (missing total : Nat)
  | negativeRoot (name : String) (width : Int)
  | negativeWidth (name : String) (width : Int)
  | noWidth (name : String)
  | unevenLeaf (name : String) (total allowed : Int)
  | inNode (name : String) (cause : Malformation)
  | reported (text : String)
  deriving DecidableEq, Repr

/-- Why a well-formed input does not fit. -/
inductive Shortage where
  | planMask (maskLength limit : Nat) (cidr : String)
  | notNumberable (network : Network) (maskLength limit : Nat)
  | outsideWindow (offset width window : Nat)
  | wideValue (value width : Nat)
  | overlap (offset width : Nat)
  | nodeBits (name : String) (total allowed : Int)
  | baseTooDeep (base : Network) (maskLength : Nat)
  | layoutBits (total : Nat) (base : Network) (headroom maskLength : Nat)
  | siblings (parent : String) (count width numbers : Nat)
  | reported (text : String)
  deriving DecidableEq, Repr

/-- Why a store could not do what it was asked. -/
inductive StoreFault where
  | missing (resource id : String)
  | planExists (cidr : String) (id : Int)
  | idTaken (id : Int)
  | device
  | database
  /-- There was no id left for this row. -/
  | idsUsedUp (row : Node)
  | reported (text : String)
  deriving DecidableEq, Repr

inductive PlanError where
  | malformed (cause : Malformation)
  | capacity (cause : Shortage)
  | duplicate (block first second : String)
  | notFound (resource : String) (id : Int)
  | storeFailure (fault : StoreFault)
  deriving DecidableEq, Repr

namespace Malformation

def message : Malformation → String
  | cidr text => s!"invalid CIDR: '{text}'"
  | block text => s!"invalid IPv4 block: '{text}'"
  | blockSpelling text expected =>
    s!"IPv4 block '{text}' is not canonical (expected '{expected}')"
  | planSpelling text expected =>
    s!"plan prefix '{text}' is not canonical (expected '{expected}')"
  | planDepth mask plan => s!"plan mask length /{mask} must be deeper than {plan}"
  | maskLength => "invalid IP prefix length"
  | rootCount layout found =>
    s!"layout '{layout}' must have exactly one root node, found {found}"
  | disconnected layout missing total =>
    s!"{missing} of {total} nodes in layout '{layout}' are not connected to the root"
  | negativeRoot name width => s!"root '{name}' has negative bit width {width}"
  | negativeWidth name width => s!"node '{name}' has negative bit width {width}"
  | noWidth name => s!"node '{name}' has no bit width and cannot be filled"
  | unevenLeaf name total allowed => s!"leaf '{name}' uses {total} of {allowed} bits"
  | inNode name cause => s!"node '{name}': {cause.message}"
  | reported text => text

end Malformation

namespace Shortage

def message : Shortage → String
  | planMask mask limit plan => s!"plan mask length /{mask} exceeds the /{limit} limit for {plan}"
  | notNumberable network mask limit =>
    s!"{network.text} cannot be bit-allocated down to /{mask} (limit /{limit}); " ++
      "use literal blocks instead"
  | outsideWindow offset width window =>
    s!"segment at bit {offset} with width {width} exceeds the {window}-bit window"
  | wideValue value width => s!"value {value} does not fit in {width} bits"
  | overlap offset width =>
    s!"segment at bit {offset} with width {width} overlaps bits already allocated"
  | nodeBits name total allowed =>
    s!"node '{name}' needs {total} bits but the plan only allows {allowed}"
  | baseTooDeep base mask => s!"{base.text} is already deeper than /{mask}"
  | layoutBits total base headroom mask =>
    s!"layout needs {total} bits but {base.text} only has {headroom} down to /{mask}"
  | siblings parent count width numbers =>
    s!"'{parent}' has {count} children but {width}-bit segments can only number {numbers}"
  | reported text => text

end Shortage

namespace StoreFault

def message : StoreFault → String
  | missing resource id => s!"{resource} not found: {id}"
  | planExists cidr id => s!"Duplicate plan: {cidr} already exists (id={id})"
  | idTaken id => s!"UNIQUE constraint failed: {id}"
  | device => "disk I/O error"
  | database => "database"
  | idsUsedUp _ => "database"
  | reported text => text

end StoreFault

namespace PlanError

def message : PlanError → String
  | malformed cause => s!"Malformed input: {cause.message}"
  | capacity cause => s!"Capacity exceeded: {cause.message}"
  | duplicate block first second =>
    s!"Duplicate allocation: {block} is claimed by both '{first}' and '{second}'"
  | notFound resource id => s!"{resource} not found: {id}"
  | storeFailure fault => s!"Store failure: {fault.message}"

end PlanError

end AddressPlan
