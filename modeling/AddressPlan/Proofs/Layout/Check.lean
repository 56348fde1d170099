import AddressPlan.Layout.Check
import AddressPlan.Proofs.NodeTree.Relabel
import AddressPlan.Proofs.StepRuns

/-!
# Checked and numbered layouts

A layout that passes its check has no nodes, or one root and all of its nodes in the tree.
Numbering then leaves the nodes alone and gives `Layout.numberedTree`, the tree that is
written.
-/

namespace AddressPlan.Layout

open NodeTree

/-- The tree of a layout, numbered if the layout asks for it and the plan is one of IPv6
addresses. -/
def numberedTree (plan : Plan) (l : Layout) : NodeTree :=
  if l.header.autoFill then
    match plan.network with
    | .error _ => l.tree
    | .ok network =>
      match network.family with
      | .v4 => l.tree
      | .v6 => (l.tree.fill network plan.maskLength).2
  else l.tree

theorem relabelled_numberedTree (plan : Plan) (l : Layout) :
    Relabelled l.tree (l.numberedTree plan) := by
  unfold numberedTree
  split
  · split
    · exact .refl _
    · split
      · exact .refl _
      · exact relabelled_fill _ _ _
  · exact .refl _

/-- The nodes form one tree, and the tree shows all of them. -/
structure OneTree (l : Layout) : Prop where
  roots : (l.nodes.filter Node.isRoot).length = 1
  size : l.tree.size = l.nodes.length

variable {plan : Plan} {l l' : Layout}

theorem run_check_eq_ok (hrun : (check plan).run l = (.ok (), l')) :
    l'.header = l.header ∧ l'.nodes = l.nodes ∧ l'.tree = l.tree ∧
      (l.nodes = [] ∨ l.OneTree) := by
  simp only [check, Step.run_bind_eq_ok_iff, Step.run_ofExcept, Step.run_get, Prod.mk.injEq,
    Except.ok.injEq] at hrun
  obtain ⟨_, _, ⟨-, rfl⟩, _, _, ⟨rfl, rfl⟩, hrun⟩ := hrun
  split at hrun
  · rename_i hempty
    cases hrun
    exact ⟨rfl, rfl, rfl, Or.inl (List.isEmpty_iff.mp hempty)⟩
  · split at hrun
    · cases hrun
    · rename_i hroots
      simp only [Step.run_bind_eq_ok_iff, Step.run_ofExcept, Step.run_modify, Prod.mk.injEq] at hrun
      obtain ⟨_, _, ⟨-, rfl⟩, _, _, ⟨-, rfl⟩, hrun⟩ := hrun
      split at hrun
      · cases hrun
      · rename_i hsize
        rw [Step.run_ofExcept, Prod.mk.injEq] at hrun
        obtain ⟨-, rfl⟩ := hrun
        exact ⟨rfl, rfl, rfl, Or.inr ⟨by simpa using hroots, by simpa using hsize⟩⟩

/-- The check passes exactly if the plan keeps the rules and there are no nodes, or one tree of
them that passes. -/
theorem run_check_fst_eq_ok_iff :
    ((check plan).run l).1 = .ok () ↔ plan.check = .ok () ∧ (l.nodes = [] ∨ l.OneTree ∧
      ∃ allowed, plan.allowedBits = .ok allowed ∧ l.tree.check allowed false = .ok ()) := by
  have hroots : l.OneTree ↔
      (l.nodes.filter Node.isRoot).length = 1 ∧ l.tree.size = l.nodes.length :=
    ⟨fun h ↦ ⟨h.roots, h.size⟩, fun h ↦ ⟨h.1, h.2⟩⟩
  simp only [check, Step.run_bind, Step.run_ofExcept, Step.run_get, hroots]
  cases plan.check with
  | error e => simp
  | ok _ =>
    dsimp only
    by_cases hnodes : l.nodes = []
    · simp [hnodes]
    · rw [if_neg (by simpa using hnodes)]
      by_cases hone : (l.nodes.filter Node.isRoot).length = 1
      · simp only [hone, ne_eq, not_true_eq_false, if_false, Step.run_bind, Step.run_ofExcept]
        cases plan.allowedBits with
        | error e => simp [hnodes]
        | ok allowed =>
          by_cases hsize : l.tree.size = l.nodes.length
          · simp [hsize, hnodes]
          · simp [hsize, hnodes]
      · simp [hone, hnodes]

theorem fill_empty (base : Network) (maskLength : Nat) :
    (NodeTree.fill {} base maskLength).2 = {} := rfl

theorem numberedTree_of_empty (htree : l.tree = {}) : l.numberedTree plan = l.tree := by
  unfold numberedTree
  rw [htree]
  split
  · split
    · rfl
    · split
      · rfl
      · exact fill_empty _ _
  · rfl

theorem run_onTree_eq_ok {m : Step NodeTree Unit} (hrun : (onTree m).run l = (.ok (), l')) :
    l'.header = l.header ∧ l'.nodes = l.nodes ∧ l'.tree = (m l.tree).2 := by
  simp only [onTree, Step.run, Prod.mk.injEq] at hrun
  obtain ⟨-, rfl⟩ := hrun
  exact ⟨rfl, rfl, rfl⟩

theorem run_fill_eq_ok (hempty : l.nodes = [] → l.tree = {})
    (hrun : (Layout.fill plan).run l = (.ok (), l')) :
    l'.header = l.header ∧ l'.nodes = l.nodes ∧ l'.tree = l.numberedTree plan := by
  simp only [Layout.fill, Step.run_bind_eq_ok_iff, Step.run_get, Prod.mk.injEq,
    Except.ok.injEq] at hrun
  obtain ⟨_, _, ⟨rfl, rfl⟩, hrun⟩ := hrun
  split at hrun
  · rename_i hskip
    cases hrun
    refine ⟨rfl, rfl, ?_⟩
    rcases Bool.or_eq_true _ _ ▸ hskip with hmanual | hnodes
    · unfold numberedTree
      rw [if_neg (by simpa using hmanual)]
    · exact (numberedTree_of_empty (hempty (List.isEmpty_iff.mp hnodes))).symm
  · rename_i hfill
    have hauto : l.header.autoFill = true := by
      by_contra hmanual
      exact hfill (by simp [hmanual])
    simp only [Step.run_bind_eq_ok_iff, Step.run_ofExcept, Prod.mk.injEq] at hrun
    obtain ⟨network, _, ⟨hnetwork, rfl⟩, hrun⟩ := hrun
    unfold numberedTree
    rw [if_pos hauto, hnetwork]
    dsimp only
    cases hfamily : network.family with
    | v4 =>
      rw [hfamily] at hrun
      cases hrun
      exact ⟨rfl, rfl, rfl⟩
    | v6 =>
      rw [hfamily] at hrun
      exact run_onTree_eq_ok hrun

/-- A layout that was checked and then numbered shows its numbered tree. -/
theorem run_check_fill_eq_ok {l₁ l₂ : Layout} (hempty : l.nodes = [] → l.tree = {})
    (hcheck : (check plan).run l = (.ok (), l₁))
    (hfill : (Layout.fill plan).run l₁ = (.ok (), l₂)) :
    l₂.header = l.header ∧ l₂.tree = l.numberedTree plan ∧ (l.nodes = [] ∨ l.OneTree) := by
  obtain ⟨hheader, hnodes, htree, hok⟩ := run_check_eq_ok hcheck
  obtain ⟨hheader', -, htree'⟩ := run_fill_eq_ok (by rwa [hnodes, htree]) hfill
  refine ⟨hheader'.trans hheader, ?_, hok⟩
  rw [htree', numberedTree, numberedTree, hheader, htree]

/-- A layout of a plan of IPv6 addresses that asks for numbers gets them. -/
theorem fill_of_check_fill {l₁ l₂ : Layout} {base : Network} (hempty : l.nodes = [] → l.tree = {})
    (hcheck : (check plan).run l = (.ok (), l₁))
    (hfill : (Layout.fill plan).run l₁ = (.ok (), l₂)) (hauto : l.header.autoFill = true)
    (hnetwork : plan.network = .ok base) (hfamily : base.family = .v6) :
    l.tree.fill base plan.maskLength = (.ok (), l.numberedTree plan) := by
  have htree : l.numberedTree plan = (l.tree.fill base plan.maskLength).2 := by
    unfold numberedTree
    rw [if_pos hauto, hnetwork]
    dsimp only
    rw [hfamily]
  refine Prod.ext ?_ htree.symm
  obtain ⟨hheader, hnodes, hsame, -⟩ := run_check_eq_ok hcheck
  simp only [Layout.fill, Step.run_bind_eq_ok_iff, Step.run_get, Prod.mk.injEq,
    Except.ok.injEq] at hfill
  obtain ⟨_, _, ⟨rfl, rfl⟩, hfill⟩ := hfill
  rw [hheader, hauto, Bool.not_true, Bool.false_or, hnodes] at hfill
  split at hfill
  · rename_i hnil
    rw [hempty (List.isEmpty_iff.mp hnil)]
    rfl
  · simp only [Step.run_bind_eq_ok_iff, Step.run_ofExcept, hnetwork, Prod.mk.injEq,
      Except.ok.injEq] at hfill
    obtain ⟨_, _, ⟨rfl, rfl⟩, hfill⟩ := hfill
    rw [hfamily] at hfill
    have hok := congrArg Prod.fst hfill
    rw [← hsame]
    exact hok

end AddressPlan.Layout
