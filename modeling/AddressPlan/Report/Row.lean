/-!
# Report rows

A row describes one block of a layout: who owns it, what encloses it, where it
stands among its siblings and which share of it is in use.
-/

namespace AddressPlan.Report

structure Row where
  name : String
  cidr : String
  /-- Positions among siblings, counted from 1, outermost first. -/
  label : List Nat
  /-- The names of what encloses this block, outermost first. -/
  enclosing : List String
  /-- The share in use in percent, if it is known. -/
  usage : Option Nat
  deriving DecidableEq, Repr

namespace Row

def level (r : Row) : String :=
  String.intercalate "." (r.label.map toString)

def tags (r : Row) : String :=
  String.intercalate "," r.enclosing

def usageText (r : Row) : String :=
  match r.usage with
  | some percent => s!"{percent}%"
  | none => ""

def depth (r : Row) : Nat :=
  r.enclosing.length

end Row

end AddressPlan.Report
