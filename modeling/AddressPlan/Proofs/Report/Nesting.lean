import AddressPlan.Proofs.NodeTree.Claims
import AddressPlan.Report.Containment

/-!
# How plain blocks nest

Two blocks around a common block are nested, so the blocks around a block form a chain.  The
order by address and length puts a block in front of what it holds, and of two blocks that do
not hold each other it puts everything in the first in front of everything in the second.
-/

namespace AddressPlan

namespace Network

variable {a b c : Network}

theorem size_eq_mul (hfamily : a.family = b.family) (hle : a.length ≤ b.length) :
    a.size = b.size * 2 ^ (b.length - a.length) := by
  have hb := b.length_le
  change 2 ^ _ = 2 ^ _ * 2 ^ _
  rw [← Nat.pow_add, hfamily]
  congr 1
  omega

theorem div_size_eq (hfamily : a.family = b.family) (hle : a.length ≤ b.length) (x : Nat) :
    x / a.size = x / b.size / 2 ^ (b.length - a.length) := by
  rw [size_eq_mul hfamily hle, Nat.div_div_eq_div_mul]

theorem Contains.refl (a : Network) : a.Contains a := ⟨rfl, Nat.le_refl _, rfl⟩

theorem Contains.trans (hab : a.Contains b) (hbc : b.Contains c) : a.Contains c := by
  refine ⟨hab.1.trans hbc.1, Nat.le_trans hab.2.1 hbc.2.1, ?_⟩
  rw [div_size_eq hab.1 hab.2.1, hbc.2.2, ← div_size_eq hab.1 hab.2.1, hab.2.2]

theorem Contains.of_length_le (hac : a.Contains c) (hbc : b.Contains c)
    (hle : a.length ≤ b.length) : a.Contains b := by
  have hfamily := hac.1.trans hbc.1.symm
  refine ⟨hfamily, hle, ?_⟩
  rw [div_size_eq hfamily hle, ← hbc.2.2, ← div_size_eq hfamily hle, hac.2.2]

/-- Blocks around a common block are nested. -/
theorem Contains.total (hac : a.Contains c) (hbc : b.Contains c) :
    a.Contains b ∨ b.Contains a :=
  (Nat.le_total a.length b.length).imp (hac.of_length_le hbc) (hbc.of_length_le hac)

theorem Plain.address_eq (h : a.Plain) : a.address = a.address / a.size * a.size :=
  (congrArg Network.address h.2).symm

theorem Plain.base_address (h : a.Plain) : a.base.address = a.address := by
  rw [h.2]

theorem Plain.ext (ha : a.Plain) (hb : b.Plain) (haddress : a.address = b.address)
    (hlength : a.length = b.length) : a = b := by
  have hfamily := ha.1.trans hb.1.symm
  rcases a with ⟨f, x, l, hx, hl⟩
  rcases b with ⟨g, y, m, hy, hm⟩
  cases hfamily
  cases haddress
  cases hlength
  rfl

theorem Plain.address_le (ha : a.Plain) (h : a.Contains b) : a.address ≤ b.address := by
  rw [ha.address_eq, ← h.2.2]
  exact Nat.div_mul_le_self _ _

theorem Plain.eq_of_contains (ha : a.Plain) (hb : b.Plain) (hab : a.Contains b)
    (hba : b.Contains a) : a = b :=
  ha.ext hb (Nat.le_antisymm (ha.address_le hab) (hb.address_le hba))
    (Nat.le_antisymm hab.2.1 hba.2.1)

end Network

namespace Report

open Network

variable {a b c x y : Network}

theorem precedes_iff (ha : a.Plain) (hb : b.Plain) :
    Precedes a b ↔ a.address < b.address ∨ a.address = b.address ∧ a.length < b.length := by
  rw [Precedes, ha.base_address, hb.base_address]

theorem Precedes.trans (hab : Precedes a b) (hbc : Precedes b c) : Precedes a c := by
  unfold Precedes at *
  omega

theorem Precedes.asymm (hab : Precedes a b) : ¬ Precedes b a := by
  unfold Precedes at *
  omega

theorem Precedes.irrefl (a : Network) : ¬ Precedes a a := fun h ↦ h.asymm h

theorem Precedes.ne (h : Precedes a b) : a ≠ b := fun heq ↦ Precedes.irrefl b (heq ▸ h)

theorem precedes_or_precedes (ha : a.Plain) (hb : b.Plain) (hne : a ≠ b) :
    Precedes a b ∨ Precedes b a := by
  rw [precedes_iff ha hb, precedes_iff hb ha]
  by_contra hnot
  exact hne (ha.ext hb (by omega) (by omega))

/-! ## Surrounding -/

theorem Surrounds.irrefl (a : Network) : ¬ Surrounds a a := fun h ↦ h.1 rfl

theorem surrounds_iff (ha : a.Plain) (hb : b.Plain) :
    Surrounds a b ↔ a.Contains b ∧ ¬ b.Contains a := by
  constructor
  · rintro ⟨hne, hab⟩
    exact ⟨hab, fun hba ↦ hne (ha.eq_of_contains hb hab hba)⟩
  · rintro ⟨hab, hba⟩
    exact ⟨fun heq ↦ hba (heq ▸ Contains.refl a), hab⟩

theorem Surrounds.length_lt (ha : a.Plain) (hb : b.Plain) (h : Surrounds a b) :
    a.length < b.length := by
  have hnot := ((surrounds_iff ha hb).mp h).2
  by_contra hle
  exact hnot (Contains.of_length_le (Contains.refl b) h.2 (by omega))

theorem Surrounds.precedes (ha : a.Plain) (hb : b.Plain) (h : Surrounds a b) :
    Precedes a b := by
  have hle := ha.address_le h.2
  have hlt := h.length_lt ha hb
  rw [precedes_iff ha hb]
  omega

/-! ## Blocks apart -/

/-- The first block does not hold the second one and comes in front of it. -/
def Apart (a b : Network) : Prop :=
  Precedes a b ∧ ¬ a.Contains b

theorem Apart.not_contains (ha : a.Plain) (hb : b.Plain) (h : Apart a b) :
    ¬ b.Contains a := by
  intro hba
  by_cases heq : b = a
  · exact h.2 (heq ▸ Contains.refl b)
  · exact h.1.asymm (Surrounds.precedes hb ha ⟨heq, hba⟩)

/-- No block lies in two blocks apart. -/
theorem Apart.not_common (ha : a.Plain) (hb : b.Plain) (h : Apart a b) (hac : a.Contains c) :
    ¬ b.Contains c :=
  fun hbc ↦ (hac.total hbc).elim h.2 (h.not_contains ha hb)

theorem Apart.of_contains_right (ha : a.Plain) (hb : b.Plain) (hy : y.Plain) (h : Apart a b)
    (hby : b.Contains y) : Apart a y := by
  refine ⟨?_, fun hay ↦ h.not_common ha hb hay hby⟩
  by_cases heq : b = y
  · exact heq ▸ h.1
  · exact h.1.trans (Surrounds.precedes hb hy ⟨heq, hby⟩)

/-- What lies in the first of two blocks apart ends in front of the second one. -/
theorem Apart.of_contains_left (ha : a.Plain) (hb : b.Plain) (hx : x.Plain) (h : Apart a b)
    (hax : a.Contains x) : Apart x b := by
  refine ⟨?_, fun hxb ↦ h.2 (hax.trans hxb)⟩
  have hne : x ≠ b := fun heq ↦ h.2 (heq ▸ hax)
  refine (precedes_or_precedes hx hb hne).resolve_right fun hbx ↦ ?_
  -- Then `b` begins between `a` and `x`, so it lies in `a` or around it.
  have hfamily := ha.1.trans hb.1.symm
  have hbetween : b.address / a.size = a.address / a.size := by
    have hab : a.address ≤ b.address := by
      have hfirst := (precedes_iff ha hb).mp h.1
      omega
    have hbx : b.address ≤ x.address := by
      have hsecond := (precedes_iff hb hx).mp hbx
      omega
    exact Nat.le_antisymm (hax.2.2 ▸ Nat.div_le_div_right hbx) (Nat.div_le_div_right hab)
  rcases Nat.le_total a.length b.length with hle | hle
  · exact h.2 ⟨hfamily, hle, hbetween⟩
  · refine h.not_contains ha hb ⟨hfamily.symm, hle, ?_⟩
    rw [div_size_eq hfamily.symm hle, ← hbetween, ← div_size_eq hfamily.symm hle]

end Report

end AddressPlan
