import AddressPlan.NodeTree.Basic
import AddressPlan.Order

/-!
# Trees from flat rows

The first row without a parent becomes the root, and the rest of the tree is found
breadth-first along parent ids, siblings ordered by their sequence number.  Rows
that cannot be reached, and rows whose id is in the tree already, are left out.
-/

namespace AddressPlan.NodeTree

def kin (rows : List Node) (id : Int) : List Node :=
  Order.sortBy (fun a b ↦ decide (a.sequence ≤ b.sequence))
    (rows.filter fun n ↦ !n.isRoot && n.parentId == id)

def hasId (slots : List Slot) (id : Int) : Bool :=
  slots.any fun s ↦ s.node.id == id

/-- Adds one row under the parent at a place, unless its id is there already. -/
def adopt (parent : Nat) (slots : List Slot) (n : Node) : List Slot :=
  if hasId slots n.id then slots else slots ++ [⟨n, some parent⟩]

def expand (rows : List Node) (slots : List Slot) (i : Nat) : List Slot :=
  match slots[i]? with
  | none => slots
  | some s => (kin rows s.node.id).foldl (adopt i) slots

/-- The tree that hangs off the first root.  It has no more slots than there are
rows, so expanding that many places finishes it. -/
def build (rows : List Node) : NodeTree :=
  match rows.find? Node.isRoot with
  | none => {}
  | some root => ⟨(List.range rows.length).foldl (expand rows) [⟨root, none⟩]⟩

end AddressPlan.NodeTree
