import AddressPlan.Layout.Basic
import AddressPlan.NodeTree.Fill
import AddressPlan.NodeTree.Literals
import AddressPlan.Plan
import AddressPlan.Step

/-!
# Checking and filling a layout

A layout is acceptable for a plan if its nodes form one tree within the plan's bit
budget and its literal blocks are in order.
-/

namespace AddressPlan.Layout

def check (plan : Plan) : Step Layout Unit := do
  Step.ofExcept plan.check
  let l ← Step.get
  if l.nodes.isEmpty then return
  let roots := (l.nodes.filter Node.isRoot).length
  if roots ≠ 1 then
    Step.refuse (.malformed (.rootCount l.header.name roots))
  else
    let allowed ← Step.ofExcept plan.allowedBits
    Step.modify keepTree
    let total := l.nodes.length
    if l.tree.size ≠ total then
      Step.refuse (.malformed (.disconnected l.header.name (Word.sub 64 total l.tree.size) total))
    else
      Step.ofExcept (l.tree.check allowed false)

def onTree {α : Type} (m : Step NodeTree α) : Step Layout α := fun l ↦
  let (r, t) := m l.tree
  (r, { l with kept := some t })

/-- Numbers the nodes if the layout asks for it.  The literal blocks of an IPv4 plan
are not numbered. -/
def fill (plan : Plan) : Step Layout Unit := do
  let l ← Step.get
  if !l.header.autoFill || l.nodes.isEmpty then return
  let network ← Step.ofExcept plan.network
  match network.family with
  | .v4 => return
  | .v6 => onTree fun t ↦ t.fill network plan.maskLength

end AddressPlan.Layout
