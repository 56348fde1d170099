import AddressPlan.Proofs.Network.Room
import Mathlib.Data.Nat.Bitwise

/-!
# Bits counted from the top

The bits of a window are counted from the top, as prefix lengths are.  A field mask has just the
bits of its field, and a number shifted into a field shows its own bits there and none outside.
-/

namespace AddressPlan.BitWindow

open Network

variable {a b window offset width value i j : Nat} {n : Network}

/-- The bit at a place counted from the top of a number of `width` bits. -/
def topBit (width a i : Nat) : Bool :=
  a.testBit (width - 1 - i)

theorem topBit_or (window a b i : Nat) :
    topBit window (a ||| b) i = (topBit window a i || topBit window b i) :=
  Nat.testBit_or _ _ _

/-- Numbers of a window that agree in all bits are equal. -/
theorem eq_of_topBit_eq (ha : a < 2 ^ window) (hb : b < 2 ^ window)
    (h : ∀ i < window, topBit window a i = topBit window b i) : a = b := by
  apply Nat.eq_of_testBit_eq
  intro k
  by_cases hk : k < window
  · have hbit := h (window - 1 - k) (by omega)
    unfold topBit at hbit
    rwa [show window - 1 - (window - 1 - k) = k by omega] at hbit
  · have hpow : 2 ^ window ≤ 2 ^ k := Nat.pow_le_pow_right Nat.two_pos (Nat.le_of_not_lt hk)
    rw [Nat.testBit_lt_two_pow (Nat.lt_of_lt_of_le ha hpow),
      Nat.testBit_lt_two_pow (Nat.lt_of_lt_of_le hb hpow)]

/-- Numbers of a window have no bit in common exactly if no place shows a bit of both. -/
theorem and_eq_zero_iff (hb : b < 2 ^ window) :
    a &&& b = 0 ↔ ∀ i < window, ¬ (topBit window a i = true ∧ topBit window b i = true) := by
  have htop : ∀ i, topBit window (a &&& b) i = (topBit window a i && topBit window b i) :=
    fun i ↦ Nat.testBit_and _ _ _
  constructor
  · intro h i hi hbits
    have hzero := htop i
    rw [h, hbits.1, hbits.2, topBit, Nat.zero_testBit] at hzero
    cases hzero
  · intro h
    have hlt : a &&& b < 2 ^ window := Nat.and_lt_two_pow a hb
    refine eq_of_topBit_eq hlt (Nat.two_pow_pos window) fun i hi ↦ ?_
    rw [htop, topBit, topBit, topBit, Nat.zero_testBit, Bool.eq_false_iff]
    intro hboth
    exact h i hi (Bool.and_eq_true_iff.mp hboth)

theorem topBit_fieldMask (hroom : offset + width ≤ window) (hi : i < window) :
    topBit window (fieldMask window offset width) i = true ↔
      offset ≤ i ∧ i < offset + width := by
  have hmask : fieldMask window offset width = (2 ^ width - 1) <<< (window - offset - width) := rfl
  rw [topBit, hmask, Nat.testBit_shiftLeft, Nat.testBit_two_pow_sub_one, Bool.and_eq_true_iff,
    decide_eq_true_eq, decide_eq_true_eq]
  omega

/-- A field apart from the leading bits of a window stands behind them. -/
theorem le_offset_of_and_eq_zero {length : Nat} (hlength : length ≤ window)
    (hroom : offset + width ≤ window) (hwidth : 0 < width)
    (hfree : fieldMask window 0 length &&& fieldMask window offset width = 0) :
    length ≤ offset := by
  by_contra hlt
  have hmask : fieldMask window offset width < 2 ^ window :=
    Nat.lt_of_lt_of_le (fieldMask_lt hroom)
      (Nat.pow_le_pow_right Nat.two_pos (Nat.sub_le window offset))
  have hi : offset < window := by omega
  refine (and_eq_zero_iff hmask).mp hfree offset hi ⟨?_, ?_⟩
  · exact (topBit_fieldMask (by omega) hi).mpr (by omega)
  · exact (topBit_fieldMask hroom hi).mpr (by omega)

/-- In its field a number shows its bits. -/
theorem topBit_shiftLeft (hroom : offset + width ≤ window) (hj : j < width) :
    topBit window (value <<< (window - offset - width)) (offset + j) = topBit width value j := by
  have hplace : window - 1 - (offset + j) = window - offset - width + (width - 1 - j) := by omega
  rw [topBit, hplace, Nat.testBit_shiftLeft, decide_eq_true (Nat.le_add_right _ _),
    Nat.add_sub_cancel_left]
  exact Bool.true_and _

/-- Outside its field a number shows no bits. -/
theorem topBit_shiftLeft_outside (hroom : offset + width ≤ window) (hvalue : value < 2 ^ width)
    (hi : i < window) (houtside : ¬ (offset ≤ i ∧ i < offset + width)) :
    topBit window (value <<< (window - offset - width)) i = false := by
  by_cases hbefore : i < offset
  · apply Nat.testBit_lt_two_pow
    refine Nat.lt_of_lt_of_le (shiftLeft_lt hroom hvalue) ?_
    exact Nat.pow_le_pow_right Nat.two_pos (by omega)
  · rw [topBit, Nat.testBit_shiftLeft, decide_eq_false (by omega), Bool.false_and]

/-! ## The bits of a block -/

theorem testBit_base (n : Network) (k : Nat) :
    n.base.address.testBit k =
      (decide (n.family.addressBits - n.length ≤ k) && n.address.testBit k) := by
  have hbase : n.base.address = 2 ^ (n.family.addressBits - n.length) *
      (n.address / 2 ^ (n.family.addressBits - n.length)) := Nat.mul_comm _ _
  rw [hbase, Nat.testBit_two_pow_mul]
  by_cases hk : n.family.addressBits - n.length ≤ k
  · rw [decide_eq_true hk, Bool.true_and, Bool.true_and, ← Nat.shiftRight_eq_div_pow,
      Nat.testBit_shiftRight, Nat.add_sub_cancel' hk]
  · rw [decide_eq_false hk, Bool.false_and, Bool.false_and]

/-- A window shows the bits of the prefix of its block, and no bits behind the prefix. -/
theorem topBit_base (n : Network) (hi : i < n.family.windowBits) :
    topBit n.family.windowBits
        (n.base.address >>> (n.family.addressBits - n.family.windowBits)) i =
      (decide (i < n.length) && topBit n.family.addressBits n.address i) := by
  have hwindow := n.family.windowBits_le_addressBits
  have hlength := n.length_le
  have hplace : n.family.addressBits - n.family.windowBits + (n.family.windowBits - 1 - i) =
      n.family.addressBits - 1 - i := by omega
  rw [topBit, Nat.testBit_shiftRight, hplace, testBit_base, topBit]
  by_cases hleading : i < n.length
  · rw [decide_eq_true hleading, decide_eq_true (by omega)]
  · rw [decide_eq_false hleading, decide_eq_false (by omega), Bool.false_and]

end AddressPlan.BitWindow
