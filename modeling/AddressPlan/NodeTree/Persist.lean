import AddressPlan.NodeTree.Build
import AddressPlan.Store.Basic

/-!
# Writing trees to a store

A subtree is written breadth-first, so that every row can name the id its parent
was stored under.  `NodeTree.reconcile` rewrites only what is flagged, new or lost,
and does all of its deletions before the first insertion.
-/

namespace AddressPlan.NodeTree

variable {σ : Type} [Store σ]

structure Tally where
  replaced : Nat := 0
  inserted : Nat := 0
  deriving DecidableEq, Repr

def parentIdAt (t : NodeTree) (i : Nat) : Int :=
  match t.slots[i]?.bind Slot.parent with
  | none => Node.rootParent
  | some p => (t.slots[p]?.map (·.node.id)).getD Node.rootParent

/-- A place and all places below it, in breadth-first order. -/
def placesBelow (t : NodeTree) (top : Nat) : List Nat :=
  t.slots.zipIdx.foldl
    (fun places (s, i) ↦
      if i = top ∨ s.parent.any (· ∈ places) then places ++ [i] else places) []

/-- Inserts the node at a place.  The node itself is made to agree with its row. -/
def insertAt (layoutId : Int) (keepId : Bool) (i : Nat) : Step (NodeTree × σ) Unit := do
  let (t, _) ← Step.get
  match t.slots[i]? with
  | none => pure ()
  | some s =>
    let row := { s.node with
      layoutId
      parentId := t.parentIdAt i
      modified := false
      id := if keepId then s.node.id else 0 }
    Step.first (Step.modify fun t ↦ t.update i fun _ ↦ row)
    let id ← Step.second (Store.insertNode row)
    Step.first (Step.modify fun t ↦ t.update i fun n ↦ { n with id })

/-- Inserts the subtree at a place.  Only its top may keep its id. -/
def replaceAt (layoutId : Int) (keepId : Bool) (top : Nat) : Step (NodeTree × σ) Tally := do
  let (t, _) ← Step.get
  let places := t.placesBelow top
  places.forM fun i ↦ insertAt layoutId (keepId && i == top) i
  return ⟨1, places.length⟩

def persistAll (layoutId : Int) : Step (NodeTree × σ) Tally := do
  let (t, _) ← Step.get
  if t.isEmpty then return {}
  replaceAt layoutId false 0

def isDirty (stored : List Int) (n : Node) : Bool :=
  n.modified || !stored.contains n.id

mutual
def dirtyIn (stored : List Int) : Rose Placed → List Placed
  | .node p ts => if isDirty stored p.node then [p] else dirtyAmong stored ts

def dirtyAmong (stored : List Int) : List (Rose Placed) → List Placed
  | [] => []
  | t :: ts => dirtyIn stored t ++ dirtyAmong stored ts
end

/-- The dirty nodes that stand below no other one, in pre-order. -/
def dirtyTops (t : NodeTree) (stored : List Int) : List Placed :=
  dirtyAmong stored t.branch?.toList

/-- Deletes the stored subtrees at these nodes and tells which of the ids are left. -/
def deleteStored (stored : List Int) (tops : List Placed) : Step (NodeTree × σ) (List Int) :=
  tops.foldlM
    (fun live p ↦ do
      if stored.contains p.node.id then
        let removed ← Step.second (Store.deleteSubtree p.node.id)
        return live.filter (!removed.contains ·)
      else return live)
    stored

/-- Makes the rows of a layout follow its tree.  A dirty node loses the subtree that
is stored under its id and is written with everything below it; so is a clean node
whose row went away that way. -/
def reconcile (layoutId : Int) (stored : List Int) : Step (NodeTree × σ) Tally := do
  let (t, _) ← Step.get
  let live ← deleteStored stored (t.dirtyTops stored)
  (t.dirtyTops live).foldlM
    (fun tally p ↦ do
      let more ← replaceAt layoutId (stored.contains p.node.id) p.place
      return ⟨tally.replaced + more.replaced, tally.inserted + more.inserted⟩)
    {}

end AddressPlan.NodeTree
