import AddressPlan.Node
import AddressPlan.Rose

/-!
# Node trees

The nodes of a layout in breadth-first order, each with the place of its parent.
`NodeTree.branches` shows the same tree with its children in order.
-/

namespace AddressPlan

/-- A node of a tree and the place of its parent; the root has none. -/
structure Slot where
  node : Node
  parent : Option Nat
  deriving DecidableEq, Repr

structure NodeTree where
  slots : List Slot := []
  deriving DecidableEq, Repr

structure Placed where
  place : Nat
  node : Node
  deriving DecidableEq, Repr

namespace NodeTree

def isEmpty (t : NodeTree) : Bool :=
  t.slots.isEmpty

def size (t : NodeTree) : Nat :=
  t.slots.length

def root? (t : NodeTree) : Option Node :=
  t.slots.head?.map Slot.node

/-- The nodes in breadth-first order. -/
def flatten (t : NodeTree) : List Node :=
  t.slots.map Slot.node

def placed (t : NodeTree) : List Placed :=
  t.slots.zipIdx.map fun (s, i) ↦ ⟨i, s.node⟩

/-- The children of a place in order.  A child always stands behind its parent. -/
def children (t : NodeTree) (i : Nat) : List Placed :=
  t.slots.zipIdx.filterMap fun (s, j) ↦
    if i < j ∧ s.parent = some i then some ⟨j, s.node⟩ else none

theorem lt_of_mem_children {t : NodeTree} {i : Nat} {p : Placed} (h : p ∈ t.children i) :
    i < p.place ∧ p.place < t.size := by
  simp only [children, List.mem_filterMap] at h
  obtain ⟨⟨s, j⟩, hs, h⟩ := h
  split at h
  · next hj =>
    cases h
    exact ⟨hj.1, by simpa [size] using List.snd_lt_of_mem_zipIdx hs⟩
  · cases h

def branch (t : NodeTree) (p : Placed) : Rose Placed :=
  .node p ((t.children p.place).attach.map fun ⟨c, _⟩ ↦ t.branch c)
termination_by t.size - p.place
decreasing_by
  have := lt_of_mem_children ‹_ ∈ t.children p.place›
  omega

theorem branch_eq (t : NodeTree) (p : Placed) :
    t.branch p = .node p ((t.children p.place).map t.branch) := by
  rw [branch]
  simp

def branch? (t : NodeTree) : Option (Rose Placed) :=
  t.root?.map fun root ↦ t.branch ⟨0, root⟩

def branches (t : NodeTree) : List (Rose Placed) :=
  match t.branch? with
  | some b => b.branches
  | none => []

def update (t : NodeTree) (i : Nat) (f : Node → Node) : NodeTree :=
  ⟨t.slots.modify i fun s ↦ { s with node := f s.node }⟩

@[simp] theorem size_update (t : NodeTree) (i : Nat) (f : Node → Node) :
    (t.update i f).size = t.size := by
  simp [update, size]

end NodeTree

end AddressPlan
