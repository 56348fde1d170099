import AddressPlan.Plan
import AddressPlan.Report.Branches
import AddressPlan.Report.Containment

/-!
# Usage reports

An IPv6 report follows the node tree, an IPv4 report the containment of literal
blocks.
-/

namespace AddressPlan.Report

def rows (plan : Plan) (t : NodeTree) : Family → Except PlanError (List Row)
  | .v6 => .ok (ofTree t plan.maskLength)
  | .v4 => t.claims.map ofClaims

theorem rows_v4_eq_ok_iff {plan : Plan} {t : NodeTree} {rows : List Row} :
    Report.rows plan t .v4 = .ok rows ↔
      ∃ claims, t.claims = .ok claims ∧ ofClaims claims = rows := by
  rw [Report.rows]
  cases t.claims with
  | error e => exact iff_of_false nofun nofun
  | ok claims => simp [Except.map]

end AddressPlan.Report
