import AddressPlan.BitWindow.InWords
import AddressPlan.Proofs.Network.Room
import AddressPlan.Proofs.Words

/-!
# Windows in words

No operation on windows fails in words, and each of them does what it does in numbers.
-/

namespace AddressPlan.BitWindow

open Network Word

variable {window offset width value maskLength : Nat} {n : Network}

theorem behindInWords?_eq (hroom : offset + width ≤ window) :
    behindInWords? window offset width = some (window - offset - width) := by
  rw [behindInWords?, sub?_eq_some (show offset ≤ window by omega)]
  exact sub?_eq_some (by omega)

theorem onesInWords?_eq (hwidth : width ≤ 64) : onesInWords? width = some (2 ^ width - 1) := by
  unfold onesInWords?
  by_cases hfull : 64 ≤ width
  · obtain rfl : width = 64 := Nat.le_antisymm hwidth hfull
    exact if_pos hfull
  · rw [if_neg hfull, shiftLeft?_one (Nat.lt_of_not_le hfull)]
    exact sub?_eq_some (Nat.two_pow_pos width)

/-- A number that fits a field can be moved to it without losing bits. -/
theorem shiftLeft?_field (hroom : offset + width ≤ window) (hwindow : window ≤ 64)
    (hwidth : width ≠ 0) (hvalue : value < 2 ^ width) :
    shiftLeft? 64 value (window - offset - width) =
      some (value <<< (window - offset - width)) := by
  have hlt := Nat.lt_of_lt_of_le (shiftLeft_lt hroom hvalue)
    (Nat.pow_le_pow_right Nat.two_pos (show window - offset ≤ 64 by omega))
  exact shiftLeft?_eq_some (by omega) hlt

theorem maskInWords?_eq (hroom : offset + width ≤ window) (hwindow : window ≤ 64) :
    maskInWords? window offset width = some (fieldMask window offset width) := by
  unfold maskInWords?
  by_cases hwidth : width = 0
  · rw [if_pos hwidth, hwidth, fieldMask_zero]
  · rw [if_neg hwidth, onesInWords?_eq (by omega), behindInWords?_eq hroom]
    exact shiftLeft?_field hroom hwindow hwidth (Nat.sub_lt (Nat.two_pow_pos width) Nat.one_pos)

theorem bitsInWords?_eq (n : Network) :
    bitsInWords? n =
      some (n.base.address >>> (n.family.addressBits - n.family.windowBits)) := by
  have haddress : n.base.address < 2 ^ n.family.addressBits := n.base.address_lt
  have hbits := base_shiftRight_lt n
  unfold bitsInWords?
  cases hfamily : n.family with
  | v4 =>
    rw [hfamily] at haddress
    exact fit?_eq_some haddress
  | v6 =>
    rw [hfamily] at hbits
    exact fit?_eq_some hbits

theorem ofNetworkInWords?_eq (n : Network) (maskLength : Nat) :
    ofNetworkInWords? n maskLength = some (ofNetwork n maskLength) := by
  have hlimit := n.family.maskLimit_le_windowBits
  unfold ofNetworkInWords? ofNetwork
  dsimp only
  by_cases hdeep : n.family.maskLimit < maskLength ∨ n.family.maskLimit < n.length
  · rw [if_pos hdeep, if_pos hdeep]
  · rw [if_neg hdeep, if_neg hdeep, bitsInWords?_eq,
      maskInWords?_eq (by omega) (n.family.windowBits_le)]
    rfl

theorem tooWideInWords?_eq (hvalue : value < 2 ^ 64) :
    tooWideInWords? width value = some (decide (2 ^ width ≤ value)) := by
  unfold tooWideInWords?
  by_cases hwidth : width < 64
  · rw [if_pos hwidth, shiftRight?_eq_some hwidth]
    have hquotient : value >>> width ≠ 0 ↔ 2 ^ width ≤ value := by
      rw [Nat.shiftRight_eq_div_pow, Ne, Nat.div_eq_zero_iff_lt (Nat.two_pow_pos width),
        Nat.not_lt]
    exact congrArg some (decide_eq_decide.mpr hquotient)
  · have hpow : 2 ^ 64 ≤ 2 ^ width := Nat.pow_le_pow_right Nat.two_pos (Nat.le_of_not_lt hwidth)
    rw [if_neg hwidth, decide_eq_false (by omega)]

theorem write_zero (w : BitWindow) (hroom : offset ≤ w.family.windowBits) :
    w.write offset 0 0 = .ok w := by
  unfold write
  dsimp only
  rw [fieldMask_zero, Nat.and_zero, Nat.or_zero, Nat.zero_shiftLeft, Nat.or_zero,
    Nat.add_zero, if_neg (Nat.not_lt.mpr hroom)]
  rfl

/-- Writing in words has a result for every window, offset, width and value, and it is the one
in numbers. -/
theorem writeInWords?_eq (w : BitWindow) (hoffset : offset < 2 ^ 8) (hwidth : width < 2 ^ 8)
    (hvalue : value < 2 ^ 64) :
    w.writeInWords? offset width value = some (w.write offset width value) := by
  have hwindow := w.family.windowBits_le
  unfold writeInWords?
  rw [add?_eq_some (show offset + width < 2 ^ 16 by omega), tooWideInWords?_eq hvalue]
  simp only [bind, Option.bind]
  by_cases houtside : w.family.windowBits < offset + width
  · rw [if_pos houtside, write, if_pos houtside]
  by_cases hwide : Nat.pow 2 width ≤ value
  · rw [if_neg houtside, decide_eq_true (show 2 ^ width ≤ value from hwide), if_pos rfl, write,
      if_neg houtside, if_pos hwide]
  have hfits : value < 2 ^ width := Nat.lt_of_not_le hwide
  rw [if_neg houtside, decide_eq_false (Nat.not_le.mpr hfits), if_neg Bool.false_ne_true]
  by_cases hzero : width = 0
  · obtain rfl : value = 0 := by
      rw [hzero] at hfits
      omega
    rw [if_pos hzero, hzero, write_zero w (by omega)]
  · have hroom := Nat.le_of_not_lt houtside
    rw [if_neg hzero, maskInWords?_eq hroom hwindow, behindInWords?_eq hroom]
    dsimp only
    rw [shiftLeft?_field hroom hwindow hzero hfits, write, if_neg houtside,
      if_neg hwide]
    split
    · rfl
    · rfl

end AddressPlan.BitWindow
