import AddressPlan.BitWindow.InWords
import AddressPlan.NodeTree.Fill

/-!
# Numbering without wrapping around

The committed width and the fill once more, with no result where a sum leaves its word, a
subtraction goes below zero or a narrowed number loses bits.
-/

namespace AddressPlan.NodeTree

open Word BitWindow

/-! ## The committed width -/

mutual
def widthOfInWords : Rose Placed → ExceptT PlanError Option Nat
  | .node p ts =>
    if p.node.bitWidth ≤ 0 then throw (.malformed (.noWidth p.node.name))
    else do
      let width ← ofInt? 32 p.node.bitWidth
      let deepest ← widthBelowInWords ts
      add? 32 width deepest

def widthBelowInWords : List (Rose Placed) → ExceptT PlanError Option Nat
  | [] => pure 0
  | t :: ts => do
    let first ← widthOfInWords t
    let others ← widthBelowInWords ts
    return max first others
end

def committedWidthInWords (t : NodeTree) : ExceptT PlanError Option Nat :=
  match t.branch? with
  | none => pure 0
  | some (.node p ts) =>
    if p.node.bitWidth < 0 then
      throw (.malformed (.negativeRoot p.node.name p.node.bitWidth))
    else do
      let width ← ofInt? 32 p.node.bitWidth
      let deepest ← widthBelowInWords ts
      add? 32 width deepest

/-! ## Allocations -/

def rootWindowInWords (t : NodeTree) (root : Node) (base : Network) (maskLength : Nat) :
    ExceptT PlanError Option BitWindow := do
  let total ← t.committedWidthInWords
  match sub? maskLength base.length with
  | none => throw (.capacity (.baseTooDeep base maskLength))
  | some headroom =>
    if headroom < total then
      throw (.capacity (.layoutBits total base headroom maskLength))
    else
      let narrowed ← fit? 8 total
      let gap ← sub? headroom narrowed
      let gapEnd ← add? 8 base.length gap
      let width ← ofInt? 8 root.bitWidth
      let rootEnd ← add? 8 gapEnd width
      let window ← ExceptT.mk (ofNetworkInWords? base maskLength)
      return window.withMaskLength rootEnd

def allocateChildInWords (window : BitWindow) (parent : Node) (siblings position : Nat)
    (child : Placed) : ExceptT PlanError Option (BitWindow × Allocation) := do
  let width ← ofInt? 8 child.node.bitWidth
  let largest ← onesInWords? width
  if largest < position then
    throw (.capacity (.siblings parent.name siblings width largest))
  else
    let written ← ExceptT.mk (window.writeInWords? window.maskLength width position)
    let ending ← add? 8 window.maskLength width
    let written := written.withMaskLength ending
    let block ← ExceptT.mk (some written.toNetwork)
    return (written, ⟨child.place, some position, block⟩)

mutual
def allocateBranchInWords? (window : BitWindow) (parent : Node) (siblings position : Nat) :
    Rose Placed → Option (List (Except PlanError Allocation))
  | .node p ts => do
    match ← (allocateChildInWords window parent siblings position p).run with
    | .error e => some [.error e]
    | .ok (own, allocation) =>
      let below ← allocateFromInWords? own p.node ts.length 1 ts
      some (.ok allocation :: below)

def allocateFromInWords? (window : BitWindow) (parent : Node) (siblings position : Nat) :
    List (Rose Placed) → Option (List (Except PlanError Allocation))
  | [] => some []
  | t :: ts => do
    let first ← allocateBranchInWords? window parent siblings position t
    let others ← allocateFromInWords? window parent siblings (position + 1) ts
    some (first ++ others)
end

def allocationsInWords? (t : NodeTree) (base : Network) (maskLength : Nat) :
    Option (List (Except PlanError Allocation)) :=
  match t.branch? with
  | none => some []
  | some (.node root ts) => do
    match ← (t.rootWindowInWords root.node base maskLength).run with
    | .error e => some [.error e]
    | .ok window =>
      match window.toNetwork with
      | .error e => some [.error e]
      | .ok block =>
        let below ← allocateFromInWords? window root.node ts.length 1 ts
        some (.ok ⟨0, none, block⟩ :: below)

/-- Numbers the tree, if no operation on words fails. -/
def fillInWords? (t : NodeTree) (base : Network) (maskLength : Nat) :
    Option (Except PlanError Unit × NodeTree) := do
  let allocations ← t.allocationsInWords? base maskLength
  some (assignAll allocations t)

end AddressPlan.NodeTree
