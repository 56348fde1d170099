import AddressPlan.Error

/-!
# Bit windows

A window holds the leading bits of an address, which of them are taken, and a
prefix length.  Segments are numbers written into runs of free bits, so child
blocks are derived from a parent without touching its own bits.
-/

namespace AddressPlan

structure BitWindow where
  family : Family
  bits : Nat
  /-- The bits taken by the source block or by a written segment, as a mask. -/
  claimed : Nat
  maskLength : Nat
  deriving DecidableEq, Repr

namespace BitWindow

/-- The `width` bits from `offset` on, counted from the top of a window. -/
def fieldMask (window offset width : Nat) : Nat :=
  (Nat.pow 2 width - 1) <<< (window - offset - width)

/-- The window over the leading bits of a block. -/
def ofNetwork (n : Network) (maskLength : Nat) : Except PlanError BitWindow :=
  let family := n.family
  if family.maskLimit < maskLength ∨ family.maskLimit < n.length then
    .error (.capacity (.notNumberable n maskLength family.maskLimit))
  else
    .ok {
      family
      bits := n.base.address >>> (family.addressBits - family.windowBits)
      claimed := fieldMask family.windowBits 0 n.length
      maskLength }

def withMaskLength (w : BitWindow) (maskLength : Nat) : BitWindow :=
  { w with maskLength }

/-- Writes `value` into the `width` bits from `offset` on.  The bits have to lie in
the window and be free, and the value has to fit. -/
def write (w : BitWindow) (offset width value : Nat) : Except PlanError BitWindow :=
  let window := w.family.windowBits
  if window < offset + width then
    .error (.capacity (.outsideWindow offset width window))
  else if Nat.pow 2 width ≤ value then
    .error (.capacity (.wideValue value width))
  else if w.claimed &&& fieldMask window offset width ≠ 0 then
    .error (.capacity (.overlap offset width))
  else
    .ok { w with
      bits := w.bits ||| value <<< (window - offset - width)
      claimed := w.claimed ||| fieldMask window offset width }

/-- The block that starts at the window's bits. -/
def toNetwork (w : BitWindow) : Except PlanError Network :=
  let low := w.family.addressBits - w.family.windowBits
  match Network.ofParts? w.family (w.bits <<< low) w.maskLength with
  | some n => .ok n
  | none => .error (.malformed .maskLength)

@[simp] theorem withMaskLength_family (w : BitWindow) (m : Nat) :
    (w.withMaskLength m).family = w.family := rfl

@[simp] theorem withMaskLength_bits (w : BitWindow) (m : Nat) :
    (w.withMaskLength m).bits = w.bits := rfl

@[simp] theorem withMaskLength_claimed (w : BitWindow) (m : Nat) :
    (w.withMaskLength m).claimed = w.claimed := rfl

@[simp] theorem withMaskLength_maskLength (w : BitWindow) (m : Nat) :
    (w.withMaskLength m).maskLength = m := rfl

theorem fieldMask_zero (window offset : Nat) : fieldMask window offset 0 = 0 := by
  simp [fieldMask]

end BitWindow

end AddressPlan
