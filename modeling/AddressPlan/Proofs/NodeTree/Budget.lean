import AddressPlan.NodeTree.Budget
import AddressPlan.Proofs.NodeTree.Preorder
import AddressPlan.Proofs.StepRuns

/-!
# Budgets along paths

The check walks the tree from its root and carries the sum of the widths above.  It passes
exactly if no node has a negative width and the widths from the root down to any node sum up
to no more than what is allowed.
-/

namespace AddressPlan.NodeTree

/-- The widths of the nodes from a place without a parent down to a place sum up to `total`. -/
inductive PathSum (t : NodeTree) : Nat → Int → Prop where
  | top {i : Nat} {n : Node} (hn : t.node? i = some n) (hparent : t.parent? i = none) :
    PathSum t i n.bitWidth
  | child {i p : Nat} {n : Node} {total : Int} (hp : PathSum t p total)
    (hn : t.node? i = some n) (hparent : t.parent? i = some p) :
    PathSum t i (total + n.bitWidth)

/-- No node has a negative width, and no path sums up to more than is allowed. -/
def WithinBudget (t : NodeTree) (allowed : Int) : Prop :=
  ∀ i n total, t.node? i = some n → t.PathSum i total → 0 ≤ n.bitWidth ∧ total ≤ allowed

variable {t t' : NodeTree} {allowed above : Int} {p : Placed}

theorem widthFault?_eq_none_iff {n : Node} {total : Int} :
    widthFault? n total allowed false = none ↔ 0 ≤ n.bitWidth ∧ total ≤ allowed := by
  unfold widthFault?
  split
  · simp only [reduceCtorEq, false_iff]
    omega
  · split
    · simp only [reduceCtorEq, false_iff]
      omega
    · simp only [Bool.false_eq_true, false_and, if_false, true_iff]
      omega

theorem checkSiblings_eq_ok_iff (ts : List (Rose Placed)) :
    checkSiblings allowed false above ts = .ok () ↔
      ∀ b ∈ ts, checkBranch allowed false above b = .ok () := by
  induction ts with
  | nil => exact iff_of_true rfl fun b hb ↦ absurd hb List.not_mem_nil
  | cons b ts ih =>
    rw [checkSiblings, bind_eq_ok_iff, List.forall_mem_cons, ← ih]
    constructor
    · rintro ⟨_, hb, hts⟩
      exact ⟨hb, hts⟩
    · rintro ⟨hb, hts⟩
      exact ⟨(), hb, hts⟩

/-- What the check asks of a place and of those right below it. -/
theorem checkBranch_eq_ok_iff :
    checkBranch allowed false above (t.branch p) = .ok () ↔
      (0 ≤ p.node.bitWidth ∧ above + p.node.bitWidth ≤ allowed) ∧
        ∀ c ∈ t.children p.place,
          checkBranch allowed false (above + p.node.bitWidth) (t.branch c) = .ok () := by
  rw [branch_eq, checkBranch, ← widthFault?_eq_none_iff]
  rw [Bool.false_and]
  cases widthFault? p.node (above + p.node.bitWidth) allowed false with
  | some e => simp
  | none => simp [checkSiblings_eq_ok_iff]

theorem Rooted.checkBranch_of_pathSum (h : t.Rooted) {root : Node} (hroot : t.node? 0 = some root)
    (hcheck : checkBranch allowed false 0 (t.branch ⟨0, root⟩) = .ok ()) {i : Nat} {n : Node}
    {total : Int} (hsum : t.PathSum i total) (hn : t.node? i = some n) :
    ∃ above, total = above + n.bitWidth ∧
      checkBranch allowed false above (t.branch ⟨i, n⟩) = .ok () := by
  induction hsum generalizing n with
  | @top i m hm hparent =>
    cases hm.symm.trans hn
    rcases Nat.eq_zero_or_pos i with rfl | hpos
    · cases hn.symm.trans hroot
      exact ⟨0, (Int.zero_add _).symm, hcheck⟩
    · obtain ⟨p, -, hp⟩ := h.parent i hpos (lt_size_iff.mpr ⟨_, hn⟩)
      cases hparent.symm.trans hp
  | @child i p m total hp hm hparent ih =>
    cases hm.symm.trans hn
    obtain ⟨q, hq⟩ := h.exists_parent_node hparent
    obtain ⟨above, rfl, hbranch⟩ := ih hq
    exact ⟨_, rfl, (checkBranch_eq_ok_iff.mp hbranch).2 ⟨i, m⟩ (h.mem_children.mpr ⟨hm, hparent⟩)⟩

theorem Rooted.checkBranch_of_withinBudget (h : t.Rooted) (hwithin : t.WithinBudget allowed)
    (hp : t.Holds p) (hsum : t.PathSum p.place (above + p.node.bitWidth)) :
    checkBranch allowed false above (t.branch p) = .ok () := by
  induction p using branch_induction t generalizing above with
  | h p ih =>
    refine checkBranch_eq_ok_iff.mpr ⟨hwithin _ _ _ hp hsum, fun c hc ↦ ?_⟩
    obtain ⟨hholds, hparent⟩ := h.mem_children.mp hc
    exact ih c hc hholds (hsum.child hholds hparent)

/-- The check of the budget passes exactly if the tree stays within it. -/
theorem Rooted.checkBudget_eq_ok_iff (h : t.Rooted) :
    t.checkBudget allowed false = .ok () ↔ t.WithinBudget allowed := by
  rw [checkBudget, checkSiblings_eq_ok_iff, branch?_toList, root?_eq_node?]
  cases hroot : t.node? 0 with
  | none =>
    refine iff_of_true (fun b hb ↦ absurd hb List.not_mem_nil) fun i n total hn _ ↦ ?_
    have hpos := Nat.zero_lt_of_lt (lt_size_iff.mpr ⟨n, hn⟩)
    obtain ⟨root, hsome⟩ := lt_size_iff.mp hpos
    cases hroot.symm.trans hsome
  | some root =>
    simp only [Option.toList_some, List.map_cons, List.map_nil, List.forall_mem_singleton]
    constructor
    · intro hcheck i n total hn hsum
      obtain ⟨above, rfl, hbranch⟩ := h.checkBranch_of_pathSum hroot hcheck hsum hn
      exact (checkBranch_eq_ok_iff.mp hbranch).1
    · intro hwithin
      have hsum : t.PathSum 0 (0 + root.bitWidth) := (Int.zero_add _).symm ▸ .top hroot h.top
      exact h.checkBranch_of_withinBudget (p := ⟨0, root⟩) hwithin hroot hsum

end AddressPlan.NodeTree
