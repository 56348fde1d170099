import AddressPlan.Layout.Check
import AddressPlan.NodeTree.Persist

/-!
# The life of a layout

Saving and updating check a layout before anything is written.  An update writes
the header and only those subtrees that are flagged, new or lost, and then shows
what the store holds.
-/

namespace AddressPlan.Layout

variable {σ : Type} [Store σ]

def onTreeAndStore {α : Type} (m : Step (NodeTree × σ) α) : Step (Layout × σ) α :=
  fun (l, s) ↦
    let (r, t, s) := m (l.tree, s)
    (r, ({ l with kept := some t }, s))

def fetchPlan (id : Int) : Step σ Plan := do
  match ← Store.plan? id with
  | some plan => return plan
  | none => Step.refuse (.notFound "Plan" id)

def save : Step (Layout × σ) Unit := do
  let (l, _) ← Step.get
  let plan ← Step.second (fetchPlan l.header.planId)
  Step.first (check plan)
  Step.first (fill plan)
  let (l, _) ← Step.get
  let id ← Step.second (Store.createLayout l.header)
  Step.first (Step.modify fun l ↦ { l with header := { l.header with id } })
  let _ ← onTreeAndStore (NodeTree.persistAll id)
  Step.first (Step.modify fun l ↦ { l with nodes := l.tree.flatten })

/-- Deletes the stored roots that the layout has replaced, with everything below
them, and tells which rows are left. -/
def deleteStaleRoots (root : Option Int) (rows : List Node) : Step (Layout × σ) (List Int) :=
  (rows.filter fun n ↦ n.isRoot && some n.id != root).foldlM
    (fun live n ↦ do
      let removed ← Step.second (Store.deleteSubtree n.id)
      return live.filter (!removed.contains ·))
    (rows.map Node.id)

def update : Step (Layout × σ) Unit := do
  let (l, _) ← Step.get
  let plan ← Step.second (fetchPlan l.header.planId)
  Step.first (Step.modify dropTree)
  Step.first (check plan)
  Step.first (fill plan)
  let (l, _) ← Step.get
  Step.second (Store.updateHeader l.header)
  let rows ← Step.second (Store.nodes l.header.id)
  Step.first (Step.modify keepTree)
  let live ← deleteStaleRoots (l.tree.root?.map Node.id) rows
  let _ ← onTreeAndStore (NodeTree.reconcile l.header.id live)
  let nodes ← Step.second (Store.nodes l.header.id)
  Step.first (Step.modify fun l ↦ { l with nodes, kept := none })

def load (id : Int) : Step σ Layout := do
  match ← Store.header? id with
  | none => Step.refuse (.notFound "Layout" id)
  | some header =>
    let nodes ← Store.nodes id
    return { header, nodes }

def delete (l : Layout) : Step σ Unit :=
  Store.deleteLayout l.header.id

end AddressPlan.Layout
