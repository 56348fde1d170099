import AddressPlan.NodeTree.Build

/-!
# Layouts

A layout is a named partition scheme of a plan: a header and a set of nodes.  The
tree of the nodes is built when it is first asked for and then kept.
-/

namespace AddressPlan

structure LayoutHeader where
  id : Int := 0
  planId : Int
  name : String
  autoFill : Bool
  firstFinished : Bool
  deriving DecidableEq, Repr

/-- What a client sends to create a layout or to replace its content. -/
structure LayoutRequest where
  name : String
  autoFill : Bool := false
  firstFinished : Bool := false
  nodes : List Node := []
  deriving DecidableEq, Repr

structure Layout where
  header : LayoutHeader
  nodes : List Node
  /-- The tree of the nodes as they were when it was built. -/
  kept : Option NodeTree := none
  deriving DecidableEq, Repr

namespace Layout

def ofRequest (planId : Int) (r : LayoutRequest) : Layout where
  header := {
    planId
    name := r.name
    autoFill := r.autoFill
    firstFinished := r.firstFinished }
  nodes := r.nodes

def apply (l : Layout) (r : LayoutRequest) : Layout where
  header := { l.header with
    name := r.name
    autoFill := r.autoFill
    firstFinished := r.firstFinished }
  nodes := r.nodes

def tree (l : Layout) : NodeTree :=
  l.kept.getD (NodeTree.build l.nodes)

def keepTree (l : Layout) : Layout :=
  { l with kept := some l.tree }

def dropTree (l : Layout) : Layout :=
  { l with kept := none }

@[simp] theorem tree_keepTree (l : Layout) : l.keepTree.tree = l.tree := rfl

@[simp] theorem tree_dropTree (l : Layout) : l.dropTree.tree = NodeTree.build l.nodes := rfl

end Layout

end AddressPlan
