import AddressPlan.Proofs.Network.Canonical
import AddressPlan.Proofs.NodeTree.BitLayout
import AddressPlan.Proofs.Report.Shares
import Mathlib.Algebra.Order.Floor.Semifield
import Mathlib.Data.List.Sort
import Mathlib.Data.Rat.Floor
import Mathlib.Tactic.FieldSimp

/-!
# Shares of numbered blocks

The blocks of a numbered tree are printed, read back and compared by the report.  Each is as many
bits longer than that of its parent as its node is wide, so the share that a report shows is told
by the widths alone: a node of width `w` takes up one part in `2 ^ w` of the block above it, and
what the parts add up to is rounded down to percents.  No intermediate number leaves its word,
since not more siblings have the same width than that width can number.
-/

namespace AddressPlan

open Rose

/-! ## Children in the numbered tree -/

namespace NodeTree

variable {t t' : NodeTree} {base : Network} {maskLength i k : Nat} {c : Placed}

theorem SameShape.children_places (h : SameShape t t') (ht : t.Rooted) (i : Nat) :
    (t'.children i).map Placed.place = (t.children i).map Placed.place := by
  have hmem : ∀ {u : NodeTree}, u.Rooted → ∀ j, j ∈ (u.children i).map Placed.place ↔
      (∃ n, u.node? j = some n) ∧ u.parent? j = some i := by
    intro u hu j
    rw [List.mem_map]
    constructor
    · rintro ⟨c, hc, rfl⟩
      obtain ⟨hholds, hparent⟩ := hu.mem_children.mp hc
      exact ⟨⟨_, hholds⟩, hparent⟩
    · rintro ⟨⟨n, hn⟩, hparent⟩
      exact ⟨⟨j, n⟩, hu.mem_children.mpr ⟨hn, hparent⟩, rfl⟩
  refine List.Pairwise.eq_of_mem_iff (r := (· < ·)) (List.pairwise_map.mpr (children_pairwise t' i))
    (List.pairwise_map.mpr (children_pairwise t i)) fun j ↦ ?_
  rw [hmem (h.rooted ht), hmem ht, h.node?, h.parent?]

end NodeTree

/-! ## Widths and percentages -/

namespace Report

open Word

variable {ws : List Nat} {maxLength length : Nat}

section Measured

open NodeTree

variable {t t' : NodeTree} {block : Nat → Network} {base : Network} {maskLength : Nat} {p : Placed}

/-- The part of a block that nodes of these widths take up. -/
def share (children : List Placed) : ℚ :=
  (children.map fun c ↦ (2 : ℚ) ^ (-c.node.bitWidth)).sum

/-- Two of the sixteen blocks of the first region are taken. -/
example : (rows ⟨1, "2001:db8::/48", 64, none, none⟩ (regions.fill exampleBase 64).2 .v6).map
    (·.map fun r ↦ (r.name, r.usageText)) =
      .ok [("region", "12%"), ("site-a", "0%"), ("site-b", "0%"), ("lab", "0%")] := by
  decide +kernel

end Measured

end Report

end AddressPlan
