import AddressPlan.Network.Basic
import Mathlib.Algebra.Group.Nat.Defs

/-!
# Segments of a block

A segment is a block a few bits longer than its parent, and its number is what these bits
say.  Two segments of one parent are disjoint unless the longer one starts with the bits of
the shorter one.
-/

namespace AddressPlan.Network

def Covers (n : Network) (x : Nat) : Prop :=
  x / n.size = n.address / n.size

/-- No address lies in both blocks. -/
def Disjoint (a b : Network) : Prop :=
  a.family = b.family → ∀ x, a.Covers x → ¬ b.Covers x

/-- The block has no host bits. -/
def Aligned (n : Network) : Prop :=
  n.size ∣ n.address

/-- The segment of `parent` with this number and width. -/
structure Segment (parent : Network) (number width : Nat) (child : Network) : Prop where
  family : child.family = parent.family
  length : child.length = parent.length + width
  address : child.address = parent.address + number * child.size
  lt : number < 2 ^ width

variable {parent a b c : Network} {number width i j v w : Nat}

theorem Disjoint.symm (h : a.Disjoint b) : b.Disjoint a :=
  fun hfamily x hb ha ↦ h hfamily.symm x ha hb

theorem covers_address (n : Network) : n.Covers n.address := rfl

namespace Segment

theorem size_parent (h : Segment parent number width c) : parent.size = c.size * 2 ^ width := by
  have hle := c.length_le
  rw [h.family, h.length] at hle
  have hsplit : parent.family.addressBits - parent.length =
      c.family.addressBits - c.length + width := by
    rw [h.family, h.length]
    omega
  change 2 ^ _ = 2 ^ _ * 2 ^ _
  rw [hsplit, Nat.pow_add]

/-- The leading bits of a segment are those of its parent and then its number. -/
theorem address_div (h : Segment parent number width c) (hp : parent.Aligned) :
    c.address / c.size = parent.address / parent.size * 2 ^ width + number := by
  obtain ⟨q, hq⟩ := hp
  have hc := c.size_pos
  rw [h.address, hq, Nat.mul_div_cancel_left q parent.size_pos, h.size_parent,
    Nat.add_mul_div_right _ _ hc, Nat.mul_assoc, Nat.mul_div_cancel_left _ hc, Nat.mul_comm]

theorem aligned (h : Segment parent number width c) (hp : parent.Aligned) : c.Aligned := by
  obtain ⟨q, hq⟩ := hp
  refine ⟨2 ^ width * q + number, ?_⟩
  rw [h.address, hq, h.size_parent, Nat.mul_add, Nat.mul_assoc, Nat.mul_comm number]

theorem covers_parent (h : Segment parent number width c) (hp : parent.Aligned) {x : Nat}
    (hx : c.Covers x) : parent.Covers x := by
  unfold Covers at hx ⊢
  rw [h.size_parent, ← Nat.div_div_eq_div_mul, hx, h.address_div hp, ← h.size_parent,
    Nat.mul_comm, Nat.mul_add_div (Nat.two_pow_pos width), Nat.div_eq_of_lt h.lt, Nat.add_zero]

theorem size_eq (ha : Segment parent i v a) (hb : Segment parent j w b) (hle : v ≤ w) :
    a.size = b.size * 2 ^ (w - v) := by
  have hparent : a.size * 2 ^ v = b.size * 2 ^ (w - v) * 2 ^ v := by
    rw [← ha.size_parent, hb.size_parent, Nat.mul_assoc, ← Nat.pow_add, Nat.sub_add_cancel hle]
  exact Nat.eq_of_mul_eq_mul_right (Nat.two_pow_pos v) hparent

theorem covers_iff (hp : parent.Aligned) (ha : Segment parent i v a) (hb : Segment parent j w b)
    (hle : v ≤ w) {x : Nat} (hx : b.Covers x) : a.Covers x ↔ j / 2 ^ (w - v) = i := by
  have hbits : x / a.size = parent.address / parent.size * 2 ^ v + j / 2 ^ (w - v) := by
    calc
      x / a.size = x / b.size / 2 ^ (w - v) := by
        rw [ha.size_eq hb hle, Nat.div_div_eq_div_mul]
      _ = (2 ^ (w - v) * (parent.address / parent.size * 2 ^ v) + j) / 2 ^ (w - v) := by
        rw [show x / b.size = _ from hx, hb.address_div hp, Nat.mul_left_comm, ← Nat.pow_add,
          Nat.sub_add_cancel hle]
      _ = parent.address / parent.size * 2 ^ v + j / 2 ^ (w - v) :=
        Nat.mul_add_div (Nat.two_pow_pos _) _ _
  unfold Covers
  rw [hbits, ha.address_div hp]
  omega

end Segment

/-- Two segments of one parent share addresses exactly if the one with the larger number is
longer and its number starts with the bits of the other one's. -/
theorem disjoint_segments_iff (hp : parent.Aligned) (ha : Segment parent i v a)
    (hb : Segment parent j w b) (hlt : i < j) :
    a.Disjoint b ↔ ¬ (v < w ∧ j / 2 ^ (w - v) = i) := by
  have hfamily : a.family = b.family := ha.family.trans hb.family.symm
  constructor
  · rintro hdisjoint ⟨hvw, hnumber⟩
    have hx := b.covers_address
    apply hdisjoint hfamily _ ?_ hx
    exact (ha.covers_iff hp hb (Nat.le_of_lt hvw) hx).mpr hnumber
  · intro hnot _ x hxa hxb
    rcases Nat.lt_or_ge v w with hvw | hwv
    · exact hnot ⟨hvw, (ha.covers_iff hp hb (Nat.le_of_lt hvw) hxb).mp hxa⟩
    · have hnumber := (hb.covers_iff hp ha hwv hxa).mp hxb
      have hle := Nat.div_le_self i (2 ^ (v - w))
      omega

end AddressPlan.Network
