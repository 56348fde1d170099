import AddressPlan.Error
import AddressPlan.Network.Reader

/-!
# Accepted block texts

A plan and a literal block must be written canonically: without host bits and
exactly as the block is printed.
-/

namespace AddressPlan.Network

def parse (text : String) : Except PlanError Network :=
  match parse? text with
  | some n => .ok n
  | none => .error (.malformed (.cidr text))

/-- Reads a literal IPv4 block and insists on its canonical spelling. -/
def parseBlock (text : String) : Except PlanError Network :=
  match ofText? .v4 text.toList with
  | none => .error (.malformed (.block text))
  | some n =>
    if n.base.text = text then .ok n
    else .error (.malformed (.blockSpelling text n.base.text))

end AddressPlan.Network
