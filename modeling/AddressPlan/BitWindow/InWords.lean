import AddressPlan.BitWindow
import AddressPlan.Word

/-!
# Windows in words

A window keeps its bits and its mask in words of 64 bits, and offsets and widths are words of 8
bits.  The operations are written out here in words, with every subtraction, shift and narrowing
that may fail.
-/

namespace AddressPlan.BitWindow

open Network Word

/-- How many bits of a window are behind a field. -/
def behindInWords? (window offset width : Nat) : Option Nat := do
  sub? (← sub? window offset) width

/-- As many ones as a field has bits.  A whole word of ones is not the result of a shift. -/
def onesInWords? (width : Nat) : Option Nat :=
  if 64 ≤ width then some (Nat.pow 2 64 - 1) else do sub? (← shiftLeft? 64 1 width) 1

def maskInWords? (window offset width : Nat) : Option Nat :=
  if width = 0 then some 0
  else do shiftLeft? 64 (← onesInWords? width) (← behindInWords? window offset width)

/-- The leading bits of an address as a word of 64 bits. -/
def bitsInWords? (n : Network) : Option Nat :=
  match n.family with
  | .v4 => fit? 32 n.base.address
  | .v6 => do fit? 64 (← shiftRight? 128 n.base.address 64)

def ofNetworkInWords? (n : Network) (maskLength : Nat) : Option (Except PlanError BitWindow) :=
  let family := n.family
  if family.maskLimit < maskLength ∨ family.maskLimit < n.length then
    some (.error (.capacity (.notNumberable n maskLength family.maskLimit)))
  else do
    let bits ← bitsInWords? n
    let claimed ← maskInWords? family.windowBits 0 n.length
    some (.ok { family, bits, claimed, maskLength })

/-- Whether a number needs more bits than a field has.  A field as wide as a word holds them
all. -/
def tooWideInWords? (width value : Nat) : Option Bool :=
  if width < 64 then do return (← shiftRight? 64 value width) ≠ 0 else some false

def writeInWords? (w : BitWindow) (offset width value : Nat) :
    Option (Except PlanError BitWindow) := do
  let window := w.family.windowBits
  if window < (← add? 16 offset width) then
    some (.error (.capacity (.outsideWindow offset width window)))
  else if ← tooWideInWords? width value then
    some (.error (.capacity (.wideValue value width)))
  else if width = 0 then some (.ok w)
  else
    let mask ← maskInWords? window offset width
    if w.claimed &&& mask ≠ 0 then some (.error (.capacity (.overlap offset width)))
    else
      let moved ← shiftLeft? 64 value (← behindInWords? window offset width)
      some (.ok { w with bits := w.bits ||| moved, claimed := w.claimed ||| mask })

end AddressPlan.BitWindow
