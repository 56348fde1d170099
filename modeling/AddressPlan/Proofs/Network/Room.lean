import AddressPlan.Proofs.Network.Window

/-!
# Room behind a window

Nothing behind the prefix of a window is taken as long as segments are written one right
behind the other.  So a number that fits its segment can be written whenever the segment
still lies in the window, and the window can always be shown as a block.
-/

namespace AddressPlan

namespace Network

/-- The number in the `width` bits of the address that end at bit `ending`, counted from the
top. -/
def field (n : Network) (ending width : Nat) : Nat :=
  n.address / 2 ^ (n.family.addressBits - ending) % 2 ^ width

variable {base parent child block : Network} {number width : Nat}

/-- The bits of a segment behind those of its parent hold its number. -/
theorem Segment.address_div_mod (h : Segment parent number width child)
    (hp : parent.Aligned) : child.address / child.size % 2 ^ width = number := by
  rw [h.address_div hp, Nat.mul_add_mod_self_right, Nat.mod_eq_of_lt h.lt]

/-- A block that covers the address of another one has the same bits up to its own length. -/
theorem field_eq_of_covers (hfamily : block.family = child.family)
    (hcovers : child.Covers block.address) (width : Nat) :
    block.field child.length width = child.address / child.size % 2 ^ width := by
  rw [field, hfamily]
  exact congrArg (· % 2 ^ width) hcovers

/-- Where a block starts there is no segment of it with a number other than zero. -/
theorem Segment.not_covers_parent (h : Segment parent number width child)
    (hp : parent.Aligned) (hnumber : 0 < number) : ¬ child.Covers parent.address := by
  intro hcovers
  obtain ⟨q, hq⟩ := hp
  have hstart : parent.address / child.size = parent.address / parent.size * 2 ^ width := by
    rw [hq, Nat.mul_div_cancel_left _ parent.size_pos, h.size_parent, Nat.mul_assoc,
      Nat.mul_div_cancel_left _ child.size_pos, Nat.mul_comm]
  have hchild := h.address_div ⟨q, hq⟩
  rw [← hcovers, hstart] at hchild
  omega

end Network

namespace BitWindow

open Network

variable {w : BitWindow} {width value : Nat}

/-- The window is a number of its width, and no bit behind its prefix is taken. -/
structure Roomy (w : BitWindow) : Prop where
  maskLength_le : w.maskLength ≤ w.family.windowBits
  bits_lt : w.bits < 2 ^ w.family.windowBits
  aligned : 2 ^ (w.family.windowBits - w.maskLength) ∣ w.bits
  free : 2 ^ (w.family.windowBits - w.maskLength) ∣ w.claimed

theorem shiftLeft_lt {window offset : Nat} (hroom : offset + width ≤ window)
    (hvalue : value < 2 ^ width) :
    value <<< (window - offset - width) < 2 ^ (window - offset) := by
  rw [Nat.shiftLeft_eq, show window - offset = width + (window - offset - width) by omega,
    Nat.pow_add, Nat.add_sub_cancel_left]
  exact Nat.mul_lt_mul_of_pos_right hvalue (Nat.two_pow_pos _)

theorem fieldMask_lt {window offset : Nat} (hroom : offset + width ≤ window) :
    fieldMask window offset width < 2 ^ (window - offset) :=
  shiftLeft_lt hroom (Nat.sub_lt (Nat.two_pow_pos width) Nat.one_pos)

theorem dvd_fieldMask (window offset width : Nat) :
    2 ^ (window - offset - width) ∣ fieldMask window offset width := by
  rw [fieldMask, Nat.shiftLeft_eq]
  exact Nat.dvd_mul_left _ _

theorem base_shiftRight_lt (n : Network) :
    n.base.address >>> (n.family.addressBits - n.family.windowBits) <
      2 ^ n.family.windowBits := by
  have hwindow := n.family.windowBits_le_addressBits
  have haddress : n.base.address < 2 ^ n.family.addressBits := n.base.address_lt
  rw [Nat.shiftRight_eq_div_pow, Nat.div_lt_iff_lt_mul (Nat.two_pow_pos _), ← Nat.pow_add,
    Nat.add_sub_cancel' hwindow]
  exact haddress

/-- One number has bits only from `k` on, and the other one only below. -/
theorem and_eq_zero_of_dvd {a b k : Nat} (ha : 2 ^ k ∣ a) (hb : b < 2 ^ k) : a &&& b = 0 := by
  obtain ⟨q, rfl⟩ := ha
  apply Nat.eq_of_testBit_eq
  intro i
  rw [Nat.zero_testBit, Nat.testBit_and, Nat.testBit_two_pow_mul]
  by_cases hi : k ≤ i
  · rw [Nat.testBit_lt_two_pow (Nat.lt_of_lt_of_le hb (Nat.pow_le_pow_right Nat.two_pos hi)),
      Bool.and_false]
  · rw [decide_eq_false hi, Bool.false_and, Bool.false_and]

theorem dvd_or {a b k : Nat} (ha : 2 ^ k ∣ a) (hb : 2 ^ k ∣ b) : 2 ^ k ∣ a ||| b := by
  obtain ⟨p, rfl⟩ := ha
  obtain ⟨q, rfl⟩ := hb
  exact ⟨p ||| q, by rw [Nat.mul_comm, Nat.mul_comm _ q, ← Nat.shiftLeft_eq, ← Nat.shiftLeft_eq,
    ← Nat.shiftLeft_or_distrib, Nat.shiftLeft_eq, Nat.mul_comm]⟩

theorem exists_toNetwork (hbits : w.bits < 2 ^ w.family.windowBits)
    (hlength : w.maskLength ≤ w.family.addressBits) : ∃ n, w.toNetwork = .ok n := by
  have haddress : w.bits <<< (w.family.addressBits - w.family.windowBits) <
      Nat.pow 2 w.family.addressBits := by
    have hwindow := w.family.windowBits_le_addressBits
    rw [Nat.shiftLeft_eq]
    calc
      w.bits * 2 ^ (w.family.addressBits - w.family.windowBits) <
          2 ^ w.family.windowBits * 2 ^ (w.family.addressBits - w.family.windowBits) :=
        Nat.mul_lt_mul_of_pos_right hbits (Nat.two_pow_pos _)
      _ = 2 ^ w.family.addressBits := by
        rw [← Nat.pow_add]
        congr 1
        omega
  have hparts := ofParts?_eq_some_iff.mpr
    (⟨rfl, rfl, rfl⟩ : (⟨w.family, _, w.maskLength, haddress, hlength⟩ : Network).family =
      w.family ∧ _ ∧ _)
  unfold toNetwork
  dsimp only
  rw [hparts]
  exact ⟨_, rfl⟩

namespace Roomy

theorem exists_network (h : w.Roomy) : ∃ n, w.toNetwork = .ok n :=
  exists_toNetwork h.bits_lt (Nat.le_trans h.maskLength_le w.family.windowBits_le_addressBits)

/-- A number that fits can be written right behind the prefix, and leaves the rest free. -/
theorem exists_write (h : w.Roomy) (hroom : w.maskLength + width ≤ w.family.windowBits)
    (hvalue : value < 2 ^ width) :
    ∃ w', w.write w.maskLength width value = .ok w' ∧ w'.family = w.family ∧
      (w'.withMaskLength (w.maskLength + width)).Roomy := by
  have hfree : w.claimed &&& fieldMask w.family.windowBits w.maskLength width = 0 :=
    and_eq_zero_of_dvd h.free (fieldMask_lt hroom)
  have hshift : 2 ^ (w.family.windowBits - w.maskLength - width) ∣
      value <<< (w.family.windowBits - w.maskLength - width) := by
    rw [Nat.shiftLeft_eq]
    exact Nat.dvd_mul_left _ _
  have hnumber : value <<< (w.family.windowBits - w.maskLength - width) <
      2 ^ w.family.windowBits :=
    Nat.lt_of_lt_of_le (shiftLeft_lt hroom hvalue)
      (Nat.pow_le_pow_right Nat.two_pos (Nat.sub_le _ _))
  have hcoarse : 2 ^ (w.family.windowBits - w.maskLength - width) ∣
      2 ^ (w.family.windowBits - w.maskLength) := Nat.pow_dvd_pow 2 (Nat.sub_le _ _)
  refine ⟨w.withField w.maskLength width value, write_eq_ok_iff.mpr ⟨⟨hroom, hvalue, hfree⟩, rfl⟩,
    rfl, hroom, Nat.or_lt_two_pow h.bits_lt hnumber, ?_, ?_⟩
  · change 2 ^ (w.family.windowBits - (w.maskLength + width)) ∣ _
    rw [← Nat.sub_sub]
    exact dvd_or (Nat.dvd_trans hcoarse h.aligned) hshift
  · change 2 ^ (w.family.windowBits - (w.maskLength + width)) ∣ _
    rw [← Nat.sub_sub]
    exact dvd_or (Nat.dvd_trans hcoarse h.free) (dvd_fieldMask _ _ _)

end Roomy

end BitWindow

end AddressPlan
