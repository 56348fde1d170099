/-!
# Trees with ordered children

`Rose.outline` lists a forest in pre-order and tells for each entry its sibling
positions from the top, the values that enclose it and the values right below it.
-/

namespace AddressPlan

inductive Rose (α : Type) where
  | node (value : α) (branches : List (Rose α))
  deriving Repr

namespace Rose

variable {α : Type}

def value : Rose α → α
  | node a _ => a

def branches : Rose α → List (Rose α)
  | node _ ts => ts

@[simp] theorem value_node (a : α) (ts : List (Rose α)) : (node a ts).value = a := rfl

@[simp] theorem branches_node (a : α) (ts : List (Rose α)) : (node a ts).branches = ts := rfl

/-- One line of an outline. -/
structure Entry (α : Type) where
  /-- Positions among siblings, counted from 1, from the top down to this entry. -/
  label : List Nat
  /-- The values above, outermost first. -/
  enclosing : List α
  value : α
  below : List α
  deriving DecidableEq, Repr

mutual
/-- The entries of a tree that stands at `label` under the values `enclosing`. -/
def outlineAt (label : List Nat) (enclosing : List α) : Rose α → List (Entry α)
  | node a ts =>
    ⟨label, enclosing, a, ts.map value⟩ :: outlineFrom label (enclosing ++ [a]) 1 ts

def outlineFrom (label : List Nat) (enclosing : List α) (position : Nat) :
    List (Rose α) → List (Entry α)
  | [] => []
  | t :: ts =>
    outlineAt (label ++ [position]) enclosing t ++ outlineFrom label enclosing (position + 1) ts
end

def outline (ts : List (Rose α)) : List (Entry α) :=
  outlineFrom [] [] 1 ts

namespace Entry

def depth (e : Entry α) : Nat :=
  e.enclosing.length

end Entry

end Rose

end AddressPlan
