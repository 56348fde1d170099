import AddressPlan.Proofs.NodeTree.Budget
import AddressPlan.Proofs.Words
import Mathlib.Data.Set.Finite.Lemmas
import Mathlib.Order.Bounds.Basic

/-!
# The widest path

The widths from the root down to a leaf sum up to a number.  The largest of these sums is what
a tree commits to, provided that the root's width is not negative, every other one is positive and
all sums fit into a word of 32 bits; without a width somewhere nothing is committed.
-/

namespace AddressPlan.NodeTree

/-- The sums of the widths from the root down to a leaf. -/
def leafSums (t : NodeTree) : Set Int :=
  {s | ∃ i, t.children i = [] ∧ t.PathSum i s}

/-- No widths on a way down sum up to more than a word of 32 bits holds. -/
def SumsFit (t : NodeTree) : Prop :=
  ∀ i s, t.PathSum i s → s < 2 ^ 32

/-- Every node strictly below the place has a positive width. -/
def SizedBelow (t : NodeTree) (i : Nat) : Prop :=
  ∀ j n, t.Under j i → j ≠ i → t.node? j = some n → 0 < n.bitWidth

variable {t : NodeTree} {i j : Nat} {s s' : Int} {p : Placed} {deepest : Nat}

/-- If the root's width is not negative and all below it are positive, no width is negative. -/
theorem Rooted.widths_nonneg (h : t.Rooted) {root : Node} (hroot : t.node? 0 = some root)
    (hnonneg : 0 ≤ root.bitWidth) (hsized : t.SizedBelow 0) (j : Nat) (n : Node)
    (hn : t.node? j = some n) : 0 ≤ n.bitWidth := by
  by_cases hj : j = 0
  · subst hj
    cases hn.symm.trans hroot
    exact hnonneg
  · exact Int.le_of_lt (hsized j n (h.under_zero (lt_size_iff.mpr ⟨n, hn⟩)) hj hn)

theorem PathSum.lt_size (h : t.PathSum i s) : i < t.size := by
  cases h with
  | top hn _ => exact lt_size_iff.mpr ⟨_, hn⟩
  | child _ hn _ => exact lt_size_iff.mpr ⟨_, hn⟩

theorem PathSum.eq (h : t.PathSum i s) (h' : t.PathSum i s') : s = s' := by
  induction h generalizing s' with
  | top hn hparent =>
    cases h' with
    | top hn' _ =>
      cases hn.symm.trans hn'
      rfl
    | child _ _ hparent' => cases hparent.symm.trans hparent'
  | child _ hn hparent ih =>
    cases h' with
    | top _ hparent' => cases hparent'.symm.trans hparent
    | child hp hn' hparent' =>
      cases hn.symm.trans hn'
      cases hparent.symm.trans hparent'
      rw [ih hp]

theorem PathSum.nonneg (h : t.PathSum i s)
    (hwidths : ∀ i n, t.node? i = some n → 0 ≤ n.bitWidth) : 0 ≤ s := by
  induction h with
  | top hn _ => exact hwidths _ _ hn
  | child _ hn _ ih => exact Int.add_nonneg ih (hwidths _ _ hn)

/-- A node is not wider than the way down to it. -/
theorem PathSum.width_le (h : t.PathSum i s)
    (hwidths : ∀ i n, t.node? i = some n → 0 ≤ n.bitWidth) {n : Node} (hn : t.node? i = some n) :
    n.bitWidth ≤ s := by
  cases h with
  | top hm _ =>
    cases hm.symm.trans hn
    exact Int.le_refl _
  | child hp hm _ =>
    cases hm.symm.trans hn
    have habove := hp.nonneg hwidths
    omega

theorem Rooted.exists_pathSum (h : t.Rooted) (hi : i < t.size) : ∃ s, t.PathSum i s := by
  induction i using Nat.strongRecOn with
  | _ i ih =>
    obtain ⟨n, hn⟩ := lt_size_iff.mp hi
    rcases Nat.eq_zero_or_pos i with rfl | hpos
    · exact ⟨_, .top hn h.top⟩
    · obtain ⟨p, hlt, hp⟩ := h.parent i hpos hi
      obtain ⟨s, hs⟩ := ih p hlt (Nat.lt_trans hlt hi)
      exact ⟨_, hs.child hn hp⟩

/-- Without a root there is no way down. -/
theorem leafSums_eq_empty (hroot : t.node? 0 = none) : t.leafSums = ∅ := by
  apply Set.eq_empty_of_forall_notMem
  rintro s ⟨i, -, hs⟩
  obtain ⟨root, hsome⟩ := lt_size_iff.mp (Nat.zero_lt_of_lt hs.lt_size)
  cases hroot.symm.trans hsome

/-- In a tree with a place there is a widest way from the root to a leaf. -/
theorem Rooted.exists_isGreatest_leafSums (h : t.Rooted) (hsize : 0 < t.size) :
    ∃ total, IsGreatest t.leafSums total := by
  have hfinite : t.leafSums.Finite := by
    have hsum : ∀ i, ∃ s, ∀ s', t.PathSum i s' → s' = s := by
      intro i
      by_cases hi : ∃ s, t.PathSum i s
      · obtain ⟨s, hs⟩ := hi
        exact ⟨s, fun s' hs' ↦ hs'.eq hs⟩
      · exact ⟨0, fun s' hs' ↦ absurd ⟨s', hs'⟩ hi⟩
    choose sum hsum using hsum
    refine ((Set.finite_lt_nat t.size).image sum).subset ?_
    rintro s ⟨i, -, hs⟩
    exact ⟨i, hs.lt_size, (hsum i s hs).symm⟩
  have hnonempty : t.leafSums.Nonempty := by
    obtain ⟨s, hs⟩ := h.exists_pathSum (Nat.sub_lt hsize Nat.one_pos)
    refine ⟨s, t.size - 1, ?_, hs⟩
    rw [List.eq_nil_iff_forall_not_mem]
    intro c hc
    have hbehind := lt_of_mem_children hc
    omega
  exact (Set.exists_max_image _ id hfinite hnonempty).imp fun _ ⟨hmem, hle⟩ ↦ ⟨hmem, hle⟩

/-- Some way down to a leaf goes on from a place, and its sum is not smaller. -/
theorem Rooted.exists_leaf_under (h : t.Rooted)
    (hwidths : ∀ i n, t.node? i = some n → 0 ≤ n.bitWidth) (hholds : t.Holds p)
    (hp : t.PathSum p.place s) : ∃ i s', t.children i = [] ∧ t.PathSum i s' ∧ s ≤ s' := by
  induction p using branch_induction t generalizing s with
  | h p ih =>
    cases hchildren : t.children p.place with
    | nil => exact ⟨p.place, s, hchildren, hp, Int.le_refl s⟩
    | cons c cs =>
      have hc : c ∈ t.children p.place := hchildren ▸ List.mem_cons_self
      obtain ⟨hcholds, hparent⟩ := h.mem_children.mp hc
      obtain ⟨i, s', hleaf, hs', hle⟩ := ih c hc hcholds (hp.child hcholds hparent)
      have hwidth := hwidths c.place c.node hcholds
      exact ⟨i, s', hleaf, hs', by omega⟩

/-- Without negative widths no way down from the root sums up to more than the widest one to a
leaf. -/
theorem Rooted.pathSum_le (h : t.Rooted)
    (hwidths : ∀ i n, t.node? i = some n → 0 ≤ n.bitWidth) {total : Int}
    (htotal : IsGreatest t.leafSums total) (hs : t.PathSum i s) : s ≤ total := by
  obtain ⟨n, hn⟩ := lt_size_iff.mp hs.lt_size
  obtain ⟨j, s', hleaf, hs', hle⟩ := h.exists_leaf_under (p := ⟨i, n⟩) hwidths hn hs
  exact hle.trans (htotal.2 ⟨j, hleaf, hs'⟩)

/-! ## The width below a place -/

/-- A width and the widths below it are added without wrapping around if the sum is a word. -/
theorem width_add_eq {width : Int} (hwidth : 0 ≤ width) (h : width + deepest < 2 ^ 32) :
    Word.add 32 (Word.wrap 32 width) deepest = width.toNat + deepest := by
  rw [Word.wrap_eq hwidth (by omega), Word.add_eq (by omega)]

theorem widthBelow_isOk_iff (ts : List (Rose Placed)) :
    (∃ d, widthBelow ts = .ok d) ↔ ∀ b ∈ ts, ∃ d, widthOf b = .ok d := by
  induction ts with
  | nil => exact iff_of_true ⟨0, rfl⟩ fun b hb ↦ absurd hb List.not_mem_nil
  | cons b ts ih =>
    rw [List.forall_mem_cons, ← ih]
    simp only [widthBelow, bind_eq_ok_iff]
    constructor
    · rintro ⟨d, first, hfirst, others, hothers, -⟩
      exact ⟨⟨first, hfirst⟩, others, hothers⟩
    · rintro ⟨⟨first, hfirst⟩, others, hothers⟩
      exact ⟨_, first, hfirst, others, hothers, rfl⟩

/-- The width below some branches is that of one of them, and of none less. -/
theorem widthBelow_bounds {ts : List (Rose Placed)} (h : widthBelow ts = .ok deepest) :
    (∀ b ∈ ts, ∃ d ≤ deepest, widthOf b = .ok d) ∧
      (ts ≠ [] → ∃ b ∈ ts, widthOf b = .ok deepest) := by
  induction ts generalizing deepest with
  | nil => exact ⟨fun b hb ↦ absurd hb List.not_mem_nil, fun hne ↦ absurd rfl hne⟩
  | cons b ts ih =>
    obtain ⟨first, hfirst, h⟩ := bind_eq_ok_iff.mp h
    obtain ⟨others, hothers, h⟩ := bind_eq_ok_iff.mp h
    cases h
    obtain ⟨hle, hattained⟩ := ih hothers
    refine ⟨List.forall_mem_cons.mpr ⟨⟨first, Nat.le_max_left _ _, hfirst⟩, fun c hc ↦ ?_⟩,
      fun _ ↦ ?_⟩
    · obtain ⟨d, hd, hwidth⟩ := hle c hc
      exact ⟨d, Nat.le_trans hd (Nat.le_max_right _ _), hwidth⟩
    · rcases Nat.le_total others first with hmax | hmax
      · exact ⟨b, List.mem_cons_self, by rw [Nat.max_eq_left hmax, hfirst]⟩
      · rw [Nat.max_eq_right hmax]
        by_cases hts : ts = []
        · rw [hts] at hothers
          cases hothers
          exact ⟨b, List.mem_cons_self, by rw [hfirst, Nat.le_zero.mp hmax]⟩
        · obtain ⟨c, hc, hwidth⟩ := hattained hts
          exact ⟨c, List.mem_cons_of_mem _ hc, hwidth⟩

theorem widthOf_branch_eq_ok_iff {width : Nat} :
    widthOf (t.branch p) = .ok width ↔ 0 < p.node.bitWidth ∧
      ∃ d, widthBelow ((t.children p.place).map t.branch) = .ok d ∧
        width = Word.add 32 (Word.wrap 32 p.node.bitWidth) d := by
  rw [branch_eq, widthOf]
  split
  · simp only [reduceCtorEq, false_iff]
    omega
  · rw [and_iff_right (by omega), bind_eq_ok_iff]
    exact exists_congr fun d ↦ and_congr_right fun _ ↦ ⟨fun h ↦ (Except.ok.inj h).symm,
      fun h ↦ congrArg Except.ok h.symm⟩

theorem Rooted.sizedBelow_iff (h : t.Rooted) : t.SizedBelow i ↔
    ∀ c ∈ t.children i, 0 < c.node.bitWidth ∧ t.SizedBelow c.place := by
  constructor
  · intro hsized c hc
    obtain ⟨hholds, hparent⟩ := h.mem_children.mp hc
    have hlt := h.lt_of_parent? hparent
    refine ⟨hsized _ _ (Under.of_parent hparent) (by omega) hholds, fun j n hj hne hn ↦ ?_⟩
    have hle := h.le_of_under hj
    exact hsized j n (hj.trans (Under.of_parent hparent)) (by omega) hn
  · intro hchildren j n hj hne hn
    rcases hj.cases_child with heq | ⟨c, hjc, hparent⟩
    · exact absurd heq hne
    · obtain ⟨m, hm⟩ := lt_size_iff.mp (lt_size_of_parent? hparent)
      obtain ⟨hpos, hsized⟩ := hchildren ⟨c, m⟩ (h.mem_children.mpr ⟨hm, hparent⟩)
      by_cases heq : j = c
      · subst heq
        cases hn.symm.trans hm
        exact hpos
      · exact hsized j n hjc heq hn

/-- There is a width below a place exactly if every node there has one. -/
theorem Rooted.exists_widthBelow_iff (h : t.Rooted) :
    (∃ d, widthBelow ((t.children p.place).map t.branch) = .ok d) ↔ t.SizedBelow p.place := by
  induction p using branch_induction t with
  | h p ih =>
    rw [widthBelow_isOk_iff, List.forall_mem_map, h.sizedBelow_iff]
    refine forall₂_congr fun c hc ↦ ?_
    rw [← ih c hc]
    simp only [widthOf_branch_eq_ok_iff]
    constructor
    · rintro ⟨_, hpos, d, hd, -⟩
      exact ⟨hpos, d, hd⟩
    · rintro ⟨hpos, d, hd⟩
      exact ⟨_, hpos, d, hd, rfl⟩

/-- The width below a place is what the widest path to a leaf below it adds. -/
theorem Rooted.widest_below (h : t.Rooted) (hsums : t.SumsFit) (hholds : t.Holds p)
    (hp : t.PathSum p.place s) (hs : 0 ≤ s)
    (hwidth : widthBelow ((t.children p.place).map t.branch) = .ok deepest) :
    (∃ i, t.children i = [] ∧ t.PathSum i (s + deepest)) ∧
      ∀ i s', t.Under i p.place → t.PathSum i s' → s' ≤ s + deepest := by
  induction p using branch_induction t generalizing s deepest with
  | h p ih =>
    obtain ⟨hbounds, hattained⟩ := widthBelow_bounds hwidth
    have hchild : ∀ c ∈ t.children p.place, ∀ d, widthOf (t.branch c) = .ok d →
        (∃ i, t.children i = [] ∧ t.PathSum i (s + d)) ∧
          ∀ i s', t.Under i c.place → t.PathSum i s' → s' ≤ s + d := by
      intro c hc d hd
      obtain ⟨hcholds, hparent⟩ := h.mem_children.mp hc
      obtain ⟨hpos, d', hd', rfl⟩ := widthOf_branch_eq_ok_iff.mp hd
      have hbelow := ih c hc hcholds (hp.child hcholds hparent) (by omega) hd'
      obtain ⟨i, -, hi⟩ := hbelow.1
      have hlt := hsums i _ hi
      rw [width_add_eq (by omega) (by omega)]
      rwa [show s + c.node.bitWidth + (d' : Int) = s + ↑(c.node.bitWidth.toNat + d') by omega]
        at hbelow
    constructor
    · by_cases hleaf : t.children p.place = []
      · rw [hleaf] at hwidth
        cases hwidth
        exact ⟨p.place, hleaf, (Int.add_zero s).symm ▸ hp⟩
      · obtain ⟨b, hb, hd⟩ := hattained fun hnil ↦ hleaf (List.map_eq_nil_iff.mp hnil)
        obtain ⟨c, hc, rfl⟩ := List.mem_map.mp hb
        exact (hchild c hc _ hd).1
    · intro i s' hunder hs'
      rcases hunder.cases_child with rfl | ⟨c, hic, hparent⟩
      · rw [hs'.eq hp]
        omega
      · obtain ⟨m, hm⟩ := lt_size_iff.mp (lt_size_of_parent? hparent)
        have hc : ⟨c, m⟩ ∈ t.children p.place := h.mem_children.mpr ⟨hm, hparent⟩
        obtain ⟨d, hle, hd⟩ := hbounds _ (List.mem_map_of_mem hc)
        have hbound := (hchild _ hc d hd).2 i s' hic hs'
        omega

/-- The width of a place and the width below it are added without wrapping around. -/
theorem Rooted.width_add_below (h : t.Rooted) (hsums : t.SumsFit) (hholds : t.Holds p)
    (hp : t.PathSum p.place s) (hnonneg : 0 ≤ p.node.bitWidth) (hle : p.node.bitWidth ≤ s)
    (hwidth : widthBelow ((t.children p.place).map t.branch) = .ok deepest) :
    Word.add 32 (Word.wrap 32 p.node.bitWidth) deepest = p.node.bitWidth.toNat + deepest := by
  obtain ⟨⟨i, -, hi⟩, -⟩ := h.widest_below hsums hholds hp (by omega) hwidth
  have hlt := hsums i _ hi
  exact width_add_eq hnonneg (by omega)

/-- The width of the root together with the width below it is the widest sum of the tree, and
no way down sums up to more. -/
theorem Rooted.isGreatest_leafSums (h : t.Rooted) (hsums : t.SumsFit) {root : Node}
    (hroot : t.node? 0 = some root) (hnonneg : 0 ≤ root.bitWidth)
    (hwidth : widthBelow ((t.children 0).map t.branch) = .ok deepest) :
    IsGreatest t.leafSums (root.bitWidth + deepest) ∧
      ∀ i s, t.PathSum i s → s ≤ root.bitWidth + deepest := by
  obtain ⟨⟨i, hleaf, hi⟩, hbound⟩ :=
    h.widest_below (p := ⟨0, root⟩) hsums hroot (.top hroot h.top) hnonneg hwidth
  have hall : ∀ i s, t.PathSum i s → s ≤ root.bitWidth + deepest :=
    fun i s hs ↦ hbound i s (h.under_zero hs.lt_size) hs
  exact ⟨⟨⟨i, hleaf, hi⟩, fun s ⟨j, _, hs⟩ ↦ hall j s hs⟩, hall⟩

/-! ## Within a budget -/

namespace WithinBudget

variable {allowed : Int}

theorem widths_nonneg (h : t.WithinBudget allowed) (ht : t.Rooted) (i : Nat)
    (n : Node) (hn : t.node? i = some n) : 0 ≤ n.bitWidth := by
  obtain ⟨s, hs⟩ := ht.exists_pathSum (lt_size_iff.mpr ⟨n, hn⟩)
  exact (h i n s hn hs).1

theorem pathSum_le (h : t.WithinBudget allowed) {i : Nat} (hs : t.PathSum i s) :
    s ≤ allowed := by
  obtain ⟨n, hn⟩ := lt_size_iff.mp hs.lt_size
  exact (h i n s hn hs).2

theorem sumsFit (h : t.WithinBudget allowed) (hallowed : allowed < 2 ^ 32) : t.SumsFit :=
  fun _ _ hs ↦ Int.lt_of_le_of_lt (h.pathSum_le hs) hallowed

/-- No width below a place takes more than what the budget leaves there. -/
theorem deepest_le (h : t.WithinBudget allowed) (ht : t.Rooted) (hallowed : allowed < 2 ^ 32)
    (hholds : t.Holds p) (hs : t.PathSum p.place s)
    (hwidth : widthBelow ((t.children p.place).map t.branch) = .ok deepest) :
    s + deepest ≤ allowed := by
  have hnonneg := hs.nonneg (h.widths_nonneg ht)
  obtain ⟨⟨i, -, hi⟩, -⟩ := ht.widest_below (h.sumsFit hallowed) hholds hs hnonneg hwidth
  exact h.pathSum_le hi

end WithinBudget

/-- Without negative widths a budget is kept exactly if it allows the widest way down. -/
theorem Rooted.withinBudget_iff (h : t.Rooted)
    (hwidths : ∀ i n, t.node? i = some n → 0 ≤ n.bitWidth) {total allowed : Int}
    (htotal : IsGreatest t.leafSums total) : t.WithinBudget allowed ↔ total ≤ allowed := by
  constructor
  · intro hwithin
    obtain ⟨i, -, hi⟩ := htotal.1
    exact hwithin.pathSum_le hi
  · intro hle i n s hn hs
    exact ⟨hwidths i n hn, (h.pathSum_le hwidths htotal hs).trans hle⟩

end AddressPlan.NodeTree
