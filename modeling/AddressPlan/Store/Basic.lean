import AddressPlan.Layout.Basic
import AddressPlan.Plan
import AddressPlan.Step

/-!
# Stores

What a layout asks of the place where plans, headers and node rows are kept.
-/

namespace AddressPlan

class Store (σ : Type) where
  plan? (id : Int) : Step σ (Option Plan)
  createLayout (header : LayoutHeader) : Step σ Int
  updateHeader (header : LayoutHeader) : Step σ Unit
  deleteLayout (id : Int) : Step σ Unit
  header? (id : Int) : Step σ (Option LayoutHeader)
  /-- The rows of a layout by sequence and then by id. -/
  nodes (layoutId : Int) : Step σ (List Node)
  /-- Stores a row under its own id if that is positive, and under a new id if not. -/
  insertNode (node : Node) : Step σ Int
  /-- Removes a row with all rows below it and tells the ids that were there. -/
  deleteSubtree (id : Int) : Step σ (List Int)

end AddressPlan
