import AddressPlan.BitWindow
import AddressPlan.NodeTree.Budget

/-!
# Numbering a tree

Every node gets a block below a base block.  Children are numbered from 1 in
sibling order, each in a segment of its own width behind its parent's bits, so the
all-zero segment stays with the parent.  Bits that no path needs form a gap right
behind the base, so that the widest paths end exactly at the deepest prefix length.
Lengths and the widths of segments are words of 8 bits.
-/

namespace AddressPlan

/-- The width of the segment that a node is numbered in. -/
def Node.segmentWidth (n : Node) : Nat :=
  Word.wrap 8 n.bitWidth

namespace NodeTree

/-- The block that a place is given, and its number unless it is the root. -/
structure Allocation where
  place : Nat
  number : Option Nat
  block : Network
  deriving DecidableEq, Repr

/-- The largest number that a segment of this width can hold.  Values have at most
64 bits. -/
def largestNumber (width : Nat) : Nat :=
  Nat.pow 2 (min width 64) - 1

def allocateChild (window : BitWindow) (parent : Node) (siblings position : Nat)
    (child : Placed) : Except PlanError (BitWindow × Allocation) := do
  let offset := window.maskLength
  let width := child.node.segmentWidth
  if largestNumber width < position then
    throw (.capacity (.siblings parent.name siblings width (largestNumber width)))
  let written ← window.write offset width position
  let written := written.withMaskLength (Word.add 8 offset width)
  let block ← written.toNetwork
  return (written, ⟨child.place, some position, block⟩)

mutual
def allocateBranch (window : BitWindow) (parent : Node) (siblings position : Nat) :
    Rose Placed → List (Except PlanError Allocation)
  | .node p ts =>
    match allocateChild window parent siblings position p with
    | .error e => [.error e]
    | .ok (own, allocation) => .ok allocation :: allocateFrom own p.node ts.length 1 ts

def allocateFrom (window : BitWindow) (parent : Node) (siblings position : Nat) :
    List (Rose Placed) → List (Except PlanError Allocation)
  | [] => []
  | t :: ts =>
    allocateBranch window parent siblings position t ++
      allocateFrom window parent siblings (position + 1) ts
end

/-- The window of the root: the bits of `base` and then a gap of zeros. -/
def rootWindow (t : NodeTree) (root : Node) (base : Network) (maskLength : Nat) :
    Except PlanError BitWindow := do
  let total ← t.committedWidth
  if maskLength < base.length then
    throw (.capacity (.baseTooDeep base maskLength))
  let headroom := maskLength - base.length
  if headroom < total then
    throw (.capacity (.layoutBits total base headroom maskLength))
  let gap := headroom - Word.wrap 8 total
  let rootEnd := Word.add 8 (Word.add 8 base.length gap) root.segmentWidth
  let window ← BitWindow.ofNetwork base maskLength
  return window.withMaskLength rootEnd

/-- The allocations of the whole tree in pre-order, up to the first refusal. -/
def allocations (t : NodeTree) (base : Network) (maskLength : Nat) :
    List (Except PlanError Allocation) :=
  match t.branch? with
  | none => []
  | some (.node root ts) =>
    match t.rootWindow root.node base maskLength with
    | .error e => [.error e]
    | .ok window =>
      match window.toNetwork with
      | .error e => [.error e]
      | .ok block => .ok ⟨0, none, block⟩ :: allocateFrom window root.node ts.length 1 ts

def assign (t : NodeTree) (a : Allocation) : NodeTree :=
  t.update a.place fun n ↦
    { n with cidr := a.block.text, value := (a.number.map Int.ofNat).getD n.value }

def assignAll :
    List (Except PlanError Allocation) → NodeTree → Except PlanError Unit × NodeTree
  | [], t => (.ok (), t)
  | .error e :: _, t => (.error e, t)
  | .ok a :: rest, t => assignAll rest (t.assign a)

/-- Numbers the tree below `base`.  If a node is refused, those before it in
pre-order keep what they were given. -/
def fill (t : NodeTree) (base : Network) (maskLength : Nat) :
    Except PlanError Unit × NodeTree :=
  assignAll (t.allocations base maskLength) t

end NodeTree

end AddressPlan
