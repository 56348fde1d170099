/-!
# Usage

The share of a block that blocks right below it take up, computed from prefix lengths
alone.
-/

namespace AddressPlan.Report

/-- How many blocks of prefix length `maxLength` make up one of prefix length
`length`, as far as a shift of 128 bits can tell. -/
def blockCount? (maxLength length : Nat) : Option Nat :=
  if length ≤ maxLength ∧ maxLength - length < 128 then some (Nat.pow 2 (maxLength - length))
  else none

/-- The share of the children in percent, rounded down.  There is no answer for a block
deeper than `maxLength`, nor for sizes and sums beyond 128 bits. -/
def usage? (maxLength length : Nat) (children : List Nat) : Option Nat := do
  let capacity ← blockCount? maxLength length
  let counts ← children.mapM (blockCount? maxLength)
  let claimed := counts.foldr (· + ·) 0
  if claimed * 100 < Nat.pow 2 128 then some (claimed * 100 / capacity) else none

end AddressPlan.Report
