import AddressPlan.Proofs.NodeTree.FillRefusals

/-!
# Trees that can be numbered

A tree can be numbered exactly if its nodes have widths, the widest path fits between the base
and the deepest length, and no position is too large for its segment.
-/

namespace AddressPlan.NodeTree

open Network

/-- The tree has room for numbers below `base` down to `maskLength`, if its widest path sums up
to `total`. -/
structure Numberable (t : NodeTree) (base : Network) (maskLength : Nat) (total : Int) : Prop where
  root_width : ∀ n, t.node? 0 = some n → 0 ≤ n.bitWidth
  widths : ∀ i n, 0 < i → t.node? i = some n → 0 < n.bitWidth
  base_le : base.length ≤ maskLength
  le_limit : maskLength ≤ base.family.maskLimit
  total_le : total ≤ maskLength - base.length
  position_le : ∀ p k c, (t.children p)[k]? = some c → k + 1 ≤ 2 ^ c.node.bitWidth.toNat - 1

variable {t t' : NodeTree} {base : Network} {window : BitWindow} {maskLength : Nat}
  {total s : Int} {p : Placed}

theorem Numberable.widths_nonneg (h : t.Numberable base maskLength total) (i : Nat) (n : Node)
    (hn : t.node? i = some n) : 0 ≤ n.bitWidth := by
  rcases Nat.eq_zero_or_pos i with rfl | hi
  · exact h.root_width n hn
  · exact Int.le_of_lt (h.widths i n hi hn)

/-! ## The root -/

/-- A tree with a place and room below the base can be numbered. -/
theorem Rooted.fill_of_numberable (ht : t.Rooted) {root : Node} (hroot : t.node? 0 = some root)
    (htotal : IsGreatest t.leafSums total) (h : t.Numberable base maskLength total) :
    (t.fill base maskLength).1 = .ok () := by
  have hwithin : t.WithinBudget (maskLength - base.length) := fun i n s hn hs ↦
    ⟨h.widths_nonneg i n hn, (ht.pathSum_le h.widths_nonneg htotal hs).trans h.total_le⟩
  cases houtcome : (t.fill base maskLength).1 with
  | ok _ => rfl
  | error e =>
    rcases fill_error ht hroot hwithin h.le_limit houtcome with hunsized | ⟨-, hcrowded⟩
    · exact absurd h.widths hunsized.not_sized
    · exact absurd h.position_le hcrowded.not_countable

/-- A tree with a place that was numbered has room below the base. -/
theorem Rooted.numberable_of_fill (ht : t.Rooted) (hsums : t.SumsFit) {root : Node}
    (hroot : t.node? 0 = some root) (hfill : t.fill base maskLength = (.ok (), t')) :
    ∃ total, IsGreatest t.leafSums total ∧ t.Numberable base maskLength total := by
  obtain ⟨as, -, hnumbered⟩ := fill_eq_ok ht hfill
  obtain ⟨hnonneg, hsized, hmask, total, htotal, hroom⟩ := ht.room_of_fill hsums hroot hfill
  obtain ⟨i, -, hs⟩ := htotal.1
  have htotal' := hs.nonneg (ht.widths_nonneg hroot hnonneg hsized)
  refine ⟨total, htotal, ?_, fun i n hi hn ↦ ?_, by omega, hmask, by omega, fun p k c hc ↦ ?_⟩
  · intro n hn
    cases hn.symm.trans hroot
    exact hnonneg
  · exact hsized i n (ht.under_zero (lt_size_iff.mpr ⟨n, hn⟩)) (Nat.ne_of_gt hi) hn
  · have hparent := (ht.mem_children.mp (List.mem_of_getElem? hc)).2
    obtain ⟨b, hb, rfl⟩ :=
      (hnumbered.mem_place p).mp (lt_size_iff.mpr (ht.exists_parent_node hparent))
    obtain ⟨_, -, -, hsegment⟩ := hnumbered.segment_of_fill ht hsums hfill hb hc
    have hlt := hsegment.lt
    omega

end AddressPlan.NodeTree
