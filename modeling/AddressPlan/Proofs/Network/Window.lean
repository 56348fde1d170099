import AddressPlan.BitWindow
import AddressPlan.Proofs.Network.Segment

/-!
# Windows and their blocks

A window shows a block if it holds the block's leading bits and nothing behind them.  Writing
a number right behind these bits then shows the segment of that number.
-/

namespace AddressPlan.BitWindow

open Network

variable {w w' : BitWindow} {n c : Network} {offset width value maskLength : Nat}

/-- The window of a block, in which the bits of the block are taken. -/
def overNetwork (n : Network) (maskLength : Nat) : BitWindow where
  family := n.family
  bits := n.base.address >>> (n.family.addressBits - n.family.windowBits)
  claimed := fieldMask n.family.windowBits 0 n.length
  maskLength := maskLength

theorem ofNetwork_eq_ok_iff :
    ofNetwork n maskLength = .ok w ↔
      (maskLength ≤ n.family.maskLimit ∧ n.length ≤ n.family.maskLimit) ∧
      w = overNetwork n maskLength := by
  unfold ofNetwork
  dsimp only
  split
  · simp only [reduceCtorEq, false_iff]
    omega
  · rw [Except.ok.injEq, and_iff_right (by omega)]
    exact eq_comm

/-- The block starts at the window's bits, and no bit is set behind its prefix. -/
structure Shows (w : BitWindow) (n : Network) : Prop where
  toNetwork : w.toNetwork = .ok n
  maskLength_le : w.maskLength ≤ w.family.windowBits
  aligned : 2 ^ (w.family.windowBits - w.maskLength) ∣ w.bits

theorem toNetwork_eq_ok (h : w.toNetwork = .ok n) :
    n.family = w.family ∧ n.length = w.maskLength ∧
      n.address = w.bits * 2 ^ (w.family.addressBits - w.family.windowBits) := by
  unfold toNetwork at h
  dsimp only at h
  split at h
  · rename_i n' hparts
    cases h
    obtain ⟨hfamily, haddress, hlength⟩ := ofParts?_eq_some_iff.mp hparts
    exact ⟨hfamily, hlength, haddress.trans (Nat.shiftLeft_eq _ _)⟩
  · cases h

/-- The window with a number in a field that was free. -/
def withField (w : BitWindow) (offset width value : Nat) : BitWindow :=
  { w with
    bits := w.bits ||| value <<< (w.family.windowBits - offset - width)
    claimed := w.claimed ||| fieldMask w.family.windowBits offset width }

theorem write_eq_ok_iff :
    w.write offset width value = .ok w' ↔
      (offset + width ≤ w.family.windowBits ∧ value < 2 ^ width ∧
        w.claimed &&& fieldMask w.family.windowBits offset width = 0) ∧
      w' = w.withField offset width value := by
  constructor
  · intro h
    unfold write at h
    dsimp only at h
    split at h
    · cases h
    · split at h
      · cases h
      · split at h
        · cases h
        · rename_i hwindow hvalue hfree
          cases h
          exact ⟨⟨Nat.le_of_not_lt hwindow, Nat.lt_of_not_le hvalue,
            Decidable.not_not.mp hfree⟩, rfl⟩
  · rintro ⟨⟨hwindow, hvalue, hfree⟩, rfl⟩
    have hfits : ¬ Nat.pow 2 width ≤ value := Nat.not_le.mpr hvalue
    unfold write
    dsimp only
    rw [if_neg (Nat.not_lt.mpr hwindow), if_neg hfits, if_neg (not_not_intro hfree)]
    rfl

theorem write_eq_ok (h : w.write offset width value = .ok w') :
    offset + width ≤ w.family.windowBits ∧ value < 2 ^ width ∧
      w'.family = w.family ∧ w'.maskLength = w.maskLength ∧
      w'.bits = w.bits ||| value <<< (w.family.windowBits - offset - width) := by
  obtain ⟨⟨hwindow, hvalue, -⟩, rfl⟩ := write_eq_ok_iff.mp h
  exact ⟨hwindow, hvalue, rfl, rfl, rfl⟩

theorem Shows.size (h : w.Shows n) :
    n.size = 2 ^ (w.family.windowBits - w.maskLength) *
      2 ^ (w.family.addressBits - w.family.windowBits) := by
  obtain ⟨hfamily, hlength, -⟩ := toNetwork_eq_ok h.toNetwork
  have hwindow := w.family.windowBits_le_addressBits
  have hle := h.maskLength_le
  change 2 ^ (n.family.addressBits - n.length) = _
  rw [← Nat.pow_add, hfamily, hlength]
  congr 1
  omega

theorem Shows.network_aligned (h : w.Shows n) : n.Aligned := by
  obtain ⟨-, -, haddress⟩ := toNetwork_eq_ok h.toNetwork
  unfold Aligned
  rw [h.size, haddress]
  exact Nat.mul_dvd_mul h.aligned (Nat.dvd_refl _)

theorem Shows.bits_write (h : w.Shows n)
    (hwrite : w.write w.maskLength width value = .ok w') :
    w'.bits = w.bits + value * 2 ^ (w.family.windowBits - w.maskLength - width) := by
  obtain ⟨hwindow, hvalue, -, -, hbits⟩ := write_eq_ok hwrite
  obtain ⟨q, hq⟩ := h.aligned
  have hpow : 2 ^ (w.family.windowBits - w.maskLength) =
      2 ^ width * 2 ^ (w.family.windowBits - w.maskLength - width) := by
    rw [← Nat.pow_add]
    congr 1
    omega
  have hlt : value * 2 ^ (w.family.windowBits - w.maskLength - width) <
      2 ^ (w.family.windowBits - w.maskLength) := by
    rw [hpow]
    exact Nat.mul_lt_mul_of_pos_right hvalue (Nat.two_pow_pos _)
  rw [hbits, Nat.shiftLeft_eq, hq, Nat.two_pow_add_eq_or_of_lt hlt]

theorem Shows.write (h : w.Shows n) (hwrite : w.write w.maskLength width value = .ok w')
    (hc : (w'.withMaskLength (w.maskLength + width)).toNetwork = .ok c) :
    (w'.withMaskLength (w.maskLength + width)).Shows c ∧ Segment n value width c := by
  obtain ⟨hwindow, hvalue, hfamily, -, -⟩ := write_eq_ok hwrite
  have hbits := h.bits_write hwrite
  have hbehind : w.family.windowBits - w.maskLength - width =
      w.family.windowBits - (w.maskLength + width) := Nat.sub_sub _ _ _
  have hshows : (w'.withMaskLength (w.maskLength + width)).Shows c := by
    refine ⟨hc, ?_, ?_⟩
    · change w.maskLength + width ≤ w'.family.windowBits
      rwa [hfamily]
    · change 2 ^ (w'.family.windowBits - (w.maskLength + width)) ∣ w'.bits
      rw [hbits, hfamily, hbehind]
      refine Nat.dvd_add (Nat.dvd_trans ?_ h.aligned) (Nat.dvd_mul_left _ _)
      exact Nat.pow_dvd_pow 2 (by omega)
  obtain ⟨hnf, hnl, hna⟩ := toNetwork_eq_ok h.toNetwork
  obtain ⟨hcf, hcl, hca⟩ := toNetwork_eq_ok hc
  refine ⟨hshows, hcf.trans (hfamily.trans hnf.symm), hcl.trans (by rw [hnl]; rfl), ?_, hvalue⟩
  have hsize := hshows.size
  simp only [withMaskLength_family, withMaskLength_bits, hfamily] at hca hsize
  rw [hca, hna, hsize, hbits, hbehind, Nat.add_mul, Nat.mul_assoc]
  rfl

end AddressPlan.BitWindow
