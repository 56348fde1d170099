import AddressPlan.Proofs.NodeTree.Places
import Mathlib.Data.List.Nodup

/-!
# Branches in pre-order

The branch at a place shows every place under it, and shows it once.
-/

namespace AddressPlan

mutual
def Rose.preorder {α : Type} : Rose α → List α
  | .node a ts => a :: Rose.preorderAll ts

def Rose.preorderAll {α : Type} : List (Rose α) → List α
  | [] => []
  | t :: ts => t.preorder ++ Rose.preorderAll ts
end

theorem Rose.preorderAll_eq_flatMap {α : Type} (ts : List (Rose α)) :
    preorderAll ts = ts.flatMap preorder := by
  induction ts with
  | nil => rfl
  | cons t ts ih => rw [preorderAll, ih, List.flatMap_cons]

namespace NodeTree

variable {t : NodeTree}

/-- What holds of a place if it holds of its children holds of every place. -/
theorem branch_induction {P : Placed → Prop} (t : NodeTree)
    (h : ∀ p, (∀ c ∈ t.children p.place, P c) → P p) (p : Placed) : P p :=
  branch.induct t P h p

theorem preorder_branch (t : NodeTree) (p : Placed) :
    (t.branch p).preorder = p :: (t.children p.place).flatMap fun c ↦ (t.branch c).preorder := by
  rw [branch_eq, Rose.preorder, Rose.preorderAll_eq_flatMap, List.flatMap_map]

theorem Holds.eq_of_place_eq {p q : Placed} (hp : t.Holds p) (hq : t.Holds q)
    (h : p.place = q.place) : p = q := by
  unfold Holds at hp hq
  rw [h, hq, Option.some.injEq] at hp
  rcases p with ⟨i, n⟩
  rcases q with ⟨j, m⟩
  cases h
  cases hp
  rfl

theorem Rooted.mem_preorder (h : t.Rooted) {p x : Placed} (hp : t.Holds p) :
    x ∈ (t.branch p).preorder ↔ t.Holds x ∧ t.Under x.place p.place := by
  induction p using branch_induction t with
  | h p ih =>
    rw [preorder_branch, List.mem_cons, List.mem_flatMap]
    constructor
    · rintro (rfl | ⟨c, hc, hx⟩)
      · exact ⟨hp, Under.refl _⟩
      · obtain ⟨hholds, hparent⟩ := h.mem_children.mp hc
        obtain ⟨hx, hunder⟩ := (ih c hc hholds).mp hx
        exact ⟨hx, hunder.trans (Under.of_parent hparent)⟩
    · rintro ⟨hx, hunder⟩
      rcases hunder.cases_child with heq | ⟨i, hi, hparent⟩
      · exact Or.inl (hx.eq_of_place_eq hp heq)
      · obtain ⟨n, hn⟩ := lt_size_iff.mp (lt_size_of_parent? hparent)
        have hc : ⟨i, n⟩ ∈ t.children p.place := h.mem_children.mpr ⟨hn, hparent⟩
        exact Or.inr ⟨_, hc, (ih _ hc hn).mpr ⟨hx, hi⟩⟩

theorem Rooted.preorder_nodup (h : t.Rooted) {p : Placed} (hp : t.Holds p) :
    ((t.branch p).preorder.map Placed.place).Nodup := by
  induction p using branch_induction t with
  | h p ih =>
    rw [preorder_branch, List.map_cons, List.nodup_cons, List.map_flatMap, List.nodup_flatMap]
    refine ⟨?_, ?_, ?_⟩
    · intro hmem
      simp only [List.mem_flatMap, List.mem_map] at hmem
      obtain ⟨c, hc, x, hx, hplace⟩ := hmem
      obtain ⟨hholds, hparent⟩ := h.mem_children.mp hc
      have hle := h.le_of_under ((h.mem_preorder hholds).mp hx).2
      have hlt := h.lt_of_parent? hparent
      omega
    · intro c hc
      exact ih c hc (h.mem_children.mp hc).1
    · refine (children_pairwise t p.place).imp_of_mem fun {c d} hc hd hlt ↦ ?_
      intro i hic hid
      obtain ⟨hc, hcp⟩ := h.mem_children.mp hc
      obtain ⟨hd, hdp⟩ := h.mem_children.mp hd
      obtain ⟨x, hx, rfl⟩ := List.mem_map.mp hic
      obtain ⟨y, hy, hplace⟩ := List.mem_map.mp hid
      have heq := h.siblings_apart hcp hdp ((h.mem_preorder hc).mp hx).2
        (hplace ▸ ((h.mem_preorder hd).mp hy).2)
      omega

theorem branch?_toList (t : NodeTree) :
    t.branch?.toList = t.root?.toList.map fun root ↦ t.branch ⟨0, root⟩ := by
  unfold branch?
  cases t.root? with
  | none => rfl
  | some root => rfl

theorem branch?_of_root {root : Node} (h : t.node? 0 = some root) :
    t.branch? = some (.node ⟨0, root⟩ ((t.children 0).map t.branch)) := by
  rw [branch?, root?_eq_node?, h, Option.map_some, branch_eq]

theorem preorder_root {root : Node} (h : t.root? = some root) :
    (t.branch ⟨0, root⟩).preorder = ⟨0, root⟩ :: Rose.preorderAll t.branches := by
  have hbranches : t.branches = (t.branch ⟨0, root⟩).branches := by
    rw [branches, branch?, h, Option.map_some]
  rw [hbranches, branch_eq, Rose.preorder, Rose.branches_node]

/-- Below the root stands every other node. -/
theorem Rooted.mem_preorderAll_branches (h : t.Rooted) {x : Placed} :
    x ∈ Rose.preorderAll t.branches ↔ t.Holds x ∧ x.place ≠ 0 := by
  cases hroot : t.root? with
  | none =>
    rw [branches, branch?, hroot]
    rw [root?_eq_node?] at hroot
    refine iff_of_false List.not_mem_nil fun ⟨hx, hplace⟩ ↦ ?_
    obtain ⟨root, hroot'⟩ := lt_size_iff.mp (Nat.zero_lt_of_lt (lt_size_iff.mpr ⟨_, hx⟩))
    cases hroot.symm.trans hroot'
  | some root =>
    have hholds : t.Holds ⟨0, root⟩ := (root?_eq_node? t).symm.trans hroot
    have hnodup := h.preorder_nodup hholds
    have hmem := h.mem_preorder (x := x) hholds
    rw [preorder_root hroot] at hnodup hmem
    rw [List.map_cons, List.nodup_cons] at hnodup
    rw [List.mem_cons] at hmem
    constructor
    · intro hx
      exact ⟨(hmem.mp (Or.inr hx)).1, fun hplace ↦
        hnodup.1 (List.mem_map.mpr ⟨x, hx, hplace⟩)⟩
    · rintro ⟨hx, hplace⟩
      rcases hmem.mpr ⟨hx, h.under_zero (lt_size_iff.mpr ⟨_, hx⟩)⟩ with rfl | hbelow
      · exact absurd rfl hplace
      · exact hbelow

theorem Rooted.preorderAll_branches_nodup (h : t.Rooted) :
    ((Rose.preorderAll t.branches).map Placed.place).Nodup := by
  cases hroot : t.root? with
  | none =>
    rw [branches, branch?, hroot]
    exact List.nodup_nil
  | some root =>
    have hnodup := h.preorder_nodup (p := ⟨0, root⟩) ((root?_eq_node? t).symm.trans hroot)
    rw [preorder_root hroot, List.map_cons, List.nodup_cons] at hnodup
    exact hnodup.2

end NodeTree

end AddressPlan
