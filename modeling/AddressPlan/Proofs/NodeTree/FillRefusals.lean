import AddressPlan.Proofs.Network.Room
import AddressPlan.Proofs.NodeTree.Uniform
import AddressPlan.Proofs.NodeTree.Widest

/-!
# What numbering refuses

Between a base and a deepest length that leave room for every path, numbering a tree is refused
for two causes only.  Either a node below the root has no width, or a child stands behind more
siblings than its width can number.
-/

namespace AddressPlan.NodeTree

variable {t : NodeTree} {base : Network} {window : BitWindow} {parent root : Node}
  {siblings position maskLength deepest : Nat} {s : Int} {p c : Placed} {e : PlanError}

/-! ## The two causes -/

/-- Every node but the root has a positive width. -/
def Sized (t : NodeTree) : Prop :=
  ∀ i n, 0 < i → t.node? i = some n → 0 < n.bitWidth

/-- Every position among siblings is a number that the width of its node can hold. -/
def Countable (t : NodeTree) : Prop :=
  ∀ p k c, (t.children p)[k]? = some c → k + 1 ≤ 2 ^ c.node.bitWidth.toNat - 1

/-- The refusal of a node below the root that has no width. -/
def Unsized (t : NodeTree) (e : PlanError) : Prop :=
  ∃ i n, 0 < i ∧ t.node? i = some n ∧ n.bitWidth ≤ 0 ∧ e = .malformed (.noWidth n.name)

/-- The refusal of a child whose position its width cannot hold. -/
def Crowded (t : NodeTree) (e : PlanError) : Prop :=
  ∃ p k c, t.Holds p ∧ (t.children p.place)[k]? = some c ∧
    2 ^ c.node.bitWidth.toNat - 1 < k + 1 ∧
    e = .capacity (.siblings p.node.name (t.children p.place).length c.node.bitWidth.toNat
      (2 ^ c.node.bitWidth.toNat - 1))

theorem Unsized.not_sized (h : t.Unsized e) : ¬ t.Sized := by
  obtain ⟨i, n, hi, hn, hwidth, -⟩ := h
  intro hsized
  have hpos := hsized i n hi hn
  omega

theorem Crowded.not_countable (h : t.Crowded e) : ¬ t.Countable := by
  obtain ⟨p, k, c, -, hc, hlarge, -⟩ := h
  intro hcountable
  have hfits := hcountable p.place k c hc
  omega

/-! ## Nodes without width -/

theorem exists_widthOf_error {ts : List (Rose Placed)} (h : widthBelow ts = .error e) :
    ∃ b ∈ ts, widthOf b = .error e := by
  induction ts with
  | nil => cases h
  | cons b ts ih =>
    rw [widthBelow] at h
    cases hfirst : widthOf b with
    | error e' =>
      rw [hfirst] at h
      cases h
      exact ⟨b, List.mem_cons_self, hfirst⟩
    | ok first =>
      cases hothers : widthBelow ts with
      | error e' =>
        rw [hfirst, hothers] at h
        cases h
        obtain ⟨c, hc, hwidth⟩ := ih hothers
        exact ⟨c, List.mem_cons_of_mem b hc, hwidth⟩
      | ok others =>
        rw [hfirst, hothers] at h
        cases h

theorem widthOf_branch_error (h : widthOf (t.branch p) = .error e) :
    p.node.bitWidth ≤ 0 ∧ e = .malformed (.noWidth p.node.name) ∨
      widthBelow ((t.children p.place).map t.branch) = .error e := by
  rw [branch_eq, widthOf] at h
  split at h
  · rename_i hwidth
    cases h
    exact Or.inl ⟨hwidth, rfl⟩
  · cases hdeepest : widthBelow ((t.children p.place).map t.branch) with
    | error e' =>
      rw [hdeepest] at h
      cases h
      exact Or.inr rfl
    | ok deepest =>
      rw [hdeepest] at h
      cases h

/-- Where there is no width below a place, a node there has none. -/
theorem Rooted.unsized_of_widthBelow (ht : t.Rooted)
    (h : widthBelow ((t.children p.place).map t.branch) = .error e) : t.Unsized e := by
  induction p using branch_induction t with
  | h p ih =>
    obtain ⟨b, hb, hwidth⟩ := exists_widthOf_error h
    obtain ⟨c, hc, rfl⟩ := List.mem_map.mp hb
    obtain ⟨hcholds, hparent⟩ := ht.mem_children.mp hc
    rcases widthOf_branch_error hwidth with ⟨hnone, rfl⟩ | hbelow
    · exact ⟨c.place, c.node, Nat.zero_lt_of_lt (ht.lt_of_parent? hparent), hcholds, hnone, rfl⟩
    · exact ih c hc hbelow

/-! ## Children in the way of each other -/

/-- In a window with room, a child is given its number, or refused for its position. -/
theorem allocateChild_cases (parent : Node) (siblings position : Nat) (hw : window.Roomy)
    (hwidth : 0 ≤ c.node.bitWidth)
    (hroom : window.maskLength + c.node.bitWidth.toNat ≤ window.family.windowBits) :
    (∃ own a, allocateChild window parent siblings position c = .ok (own, a) ∧ own.Roomy ∧
        own.family = window.family ∧
        own.maskLength = window.maskLength + c.node.bitWidth.toNat) ∨
      (2 ^ c.node.bitWidth.toNat - 1 < position ∧
        allocateChild window parent siblings position c =
          .error (.capacity (.siblings parent.name siblings c.node.bitWidth.toNat
            (2 ^ c.node.bitWidth.toNat - 1)))) := by
  have hwindow := window.family.windowBits_le
  rw [allocateChild_eq, Node.segmentWidth_eq hwidth (by omega), Word.add_eq (by omega),
    largestNumber_eq (show c.node.bitWidth.toNat ≤ 64 by omega)]
  rcases Nat.lt_or_ge (2 ^ c.node.bitWidth.toNat - 1) position with hlarge | hfits
  · exact Or.inr ⟨hlarge, if_pos hlarge⟩
  · have hpow := Nat.two_pow_pos c.node.bitWidth.toNat
    have hvalue : position < 2 ^ c.node.bitWidth.toNat := by omega
    obtain ⟨written, hwrite, hfamily, hroomy⟩ := hw.exists_write hroom hvalue
    obtain ⟨block, hblock⟩ := hroomy.exists_network
    refine Or.inl ⟨_, ⟨c.place, some position, block⟩, ?_, hroomy, hfamily, rfl⟩
    rw [if_neg (Nat.not_lt.mpr hfits), hwrite]
    simp only [bind, Except.bind, pure, Except.pure, hblock]

theorem exists_error_mem_allocateBranch {cs : List Placed}
    (h : .error e ∈ allocateFrom window parent siblings position (cs.map t.branch)) :
    ∃ k c, cs[k]? = some c ∧
      .error e ∈ allocateBranch window parent siblings (position + k) (t.branch c) := by
  induction cs generalizing position with
  | nil => cases h
  | cons c cs ih =>
    rw [List.map_cons, allocateFrom, List.mem_append] at h
    rcases h with h | h
    · exact ⟨0, c, rfl, h⟩
    · obtain ⟨k, d, hd, hmem⟩ := ih h
      exact ⟨k + 1, d, hd, by rwa [show position + (k + 1) = position + 1 + k by omega]⟩

/-- The refusal of a position among the children of a node. -/
theorem crowded_of_child (hholds : t.Holds p) {k : Nat} (hc : (t.children p.place)[k]? = some c)
    (hlarge : 2 ^ c.node.bitWidth.toNat - 1 < k + 1)
    (he : e = .capacity (.siblings p.node.name ((t.children p.place).map t.branch).length
      c.node.bitWidth.toNat (2 ^ c.node.bitWidth.toNat - 1))) : t.Crowded e := by
  rw [List.length_map] at he
  exact ⟨p, k, c, hholds, hc, hlarge, he⟩

/-- Below a window that leaves room for every path, a child is refused for its position. -/
theorem allocateBranch_error (ht : t.Rooted)
    (hwidths : ∀ i n, t.node? i = some n → 0 ≤ n.bitWidth) (hholds : t.Holds p)
    (hs : t.PathSum p.place s) (hw : window.Roomy)
    (hroom : ∀ i s', t.Under i p.place → t.PathSum i s' →
      window.maskLength + p.node.bitWidth + (s' - s) ≤ window.family.windowBits)
    (h : .error e ∈ allocateBranch window parent siblings position (t.branch p)) :
    2 ^ p.node.bitWidth.toNat - 1 < position ∧
        e = .capacity (.siblings parent.name siblings p.node.bitWidth.toNat
          (2 ^ p.node.bitWidth.toNat - 1)) ∨
      t.Crowded e := by
  induction p using branch_induction t generalizing s window parent siblings position with
  | h p ih =>
    have hwidth := hwidths p.place p.node hholds
    have hown := hroom p.place s (Under.refl _) hs
    have hend : window.maskLength + p.node.bitWidth.toNat ≤ window.family.windowBits := by omega
    rw [branch_eq, allocateBranch] at h
    rcases allocateChild_cases parent siblings position hw hwidth hend with
      ⟨own, a, hchild, hroomy, hfamily, hlength⟩ | ⟨hlarge, hchild⟩
    · rw [hchild] at h
      have hbelow := (List.mem_cons.mp h).resolve_left nofun
      obtain ⟨k, c, hc, hmem⟩ := exists_error_mem_allocateBranch hbelow
      have hcmem := List.mem_of_getElem? hc
      obtain ⟨hcholds, hparent⟩ := ht.mem_children.mp hcmem
      have hleaves : ∀ i s', t.Under i c.place → t.PathSum i s' →
          own.maskLength + c.node.bitWidth + (s' - (s + c.node.bitWidth)) ≤
            own.family.windowBits := by
        intro i s' hi hs'
        have hleaf := hroom i s' (hi.trans (Under.of_parent hparent)) hs'
        rw [hlength, hfamily]
        omega
      rcases ih c hcmem hcholds (hs.child hcholds hparent) hroomy hleaves hmem with
        ⟨hlarge, he⟩ | hcrowded
      · exact Or.inr (crowded_of_child hholds hc (by omega) he)
      · exact Or.inr hcrowded
    · rw [hchild, List.mem_singleton, Except.error.injEq] at h
      exact Or.inl ⟨hlarge, h⟩

/-! ## The whole tree -/

/-- Up to the first refusal everything was allocated. -/
theorem error_mem_allocations (h : (t.fill base maskLength).1 = .error e) :
    .error e ∈ t.allocations base maskLength := by
  have hall : ∀ (results : List (Except PlanError Allocation)) (t : NodeTree),
      (assignAll results t).1 = .error e → .error e ∈ results := by
    intro results
    induction results with
    | nil => exact fun t h ↦ by cases h
    | cons result results ih =>
      intro t h
      cases result with
      | error e' =>
        cases h
        exact List.mem_cons_self
      | ok a => exact List.mem_cons_of_mem _ (ih (t.assign a) h)
  exact hall _ t h

theorem committedWidth_of_root {ts : List (Rose Placed)} {deepest : Nat}
    (hbranch : t.branch? = some (.node p ts)) (hroot : 0 ≤ p.node.bitWidth)
    (hwidth : widthBelow ts = .ok deepest) (hword : p.node.bitWidth + deepest < 2 ^ 32) :
    t.committedWidth = .ok (p.node.bitWidth.toNat + deepest) := by
  unfold committedWidth
  rw [hbranch]
  dsimp only
  rw [if_neg (Int.not_lt.mpr hroot), hwidth, ← width_add_eq hroot hword]
  rfl

/-- The window of a block that may be numbered has room from any length on that is not shorter
than the block's. -/
theorem exists_ofNetwork {length : Nat} (hmask : maskLength ≤ base.family.maskLimit)
    (hbase : base.length ≤ length) (hlength : length ≤ maskLength) :
    ∃ whole, BitWindow.ofNetwork base maskLength = .ok whole ∧ whole.family = base.family ∧
      (whole.withMaskLength length).Roomy := by
  have hwhole : BitWindow.ofNetwork base maskLength =
      .ok (BitWindow.overNetwork base maskLength) :=
    BitWindow.ofNetwork_eq_ok_iff.mpr ⟨⟨hmask, by omega⟩, rfl⟩
  obtain ⟨-, hwithin, -, haligned⟩ := ofNetwork_eq_ok hwhole
  have hcoarse : 2 ^ (base.family.windowBits - length) ∣
      2 ^ (base.family.windowBits - base.length) := Nat.pow_dvd_pow 2 (by omega)
  refine ⟨_, hwhole, rfl, Nat.le_trans hlength hwithin, ?_, Nat.dvd_trans hcoarse haligned,
    Nat.dvd_trans hcoarse (BitWindow.dvd_fieldMask base.family.windowBits 0 base.length)⟩
  exact BitWindow.base_shiftRight_lt base

/-- A tree with room has a window for its root, and a block that it shows. -/
theorem exists_rootWindow {ts : List (Rose Placed)} {deepest : Nat}
    (hbranch : t.branch? = some (.node p ts)) (hroot : 0 ≤ p.node.bitWidth)
    (hwidth : widthBelow ts = .ok deepest) (hmask : maskLength ≤ base.family.maskLimit)
    (htotal : base.length + p.node.bitWidth.toNat + deepest ≤ maskLength) :
    ∃ window, t.rootWindow p.node base maskLength = .ok window ∧ window.Roomy ∧
      window.family = base.family ∧ window.maskLength = maskLength - deepest := by
  have hfits : base.length + deepest ≤ maskLength := by omega
  have hlimit := base.family.maskLimit_le
  obtain ⟨whole, hwhole, hfamily, hroomy⟩ :=
    exists_ofNetwork hmask (Nat.le_sub_of_add_le hfits) (Nat.sub_le maskLength deepest)
  refine ⟨_, rootWindow_eq_ok_iff.mpr ⟨_, whole,
    committedWidth_of_root hbranch hroot hwidth (by omega), hwhole, by omega, ?_⟩,
    hroomy, hfamily, rfl⟩
  rw [Node.segmentWidth_eq hroot (by omega), Word.add_eq (by omega)]
  congr 1
  omega

/-- A node without width is found before anything is allocated. -/
theorem allocations_of_widthBelow_error (hroot : t.node? 0 = some root) (hwidth : 0 ≤ root.bitWidth)
    (h : widthBelow ((t.children 0).map t.branch) = .error e) :
    t.allocations base maskLength = [.error e] := by
  have htotal : t.committedWidth = .error e := by
    unfold committedWidth
    rw [branch?_of_root hroot]
    dsimp only
    rw [if_neg (Int.not_lt.mpr hwidth), h]
    rfl
  unfold allocations
  rw [branch?_of_root hroot]
  dsimp only
  rw [rootWindow_eq, htotal]
  rfl

/-- With a width for every node the root is given its block, and the windows below have room. -/
theorem allocations_of_widthBelow_ok (ht : t.Rooted) (hroot : t.node? 0 = some root)
    (h : t.WithinBudget (maskLength - base.length)) (hmask : maskLength ≤ base.family.maskLimit)
    (hwidth : widthBelow ((t.children 0).map t.branch) = .ok deepest) :
    ∃ window block, window.Roomy ∧ window.family = base.family ∧
      window.maskLength = maskLength - deepest ∧
      t.allocations base maskLength = .ok ⟨0, none, block⟩ ::
        allocateFrom window root ((t.children 0).map t.branch).length 1
          ((t.children 0).map t.branch) := by
  have hlimit := base.family.maskLimit_le
  have hnonneg := h.widths_nonneg ht 0 root hroot
  have hle := h.deepest_le (p := ⟨0, root⟩) ht (by omega) hroot (.top hroot ht.top) hwidth
  have htotal : base.length + root.bitWidth.toNat + deepest ≤ maskLength := by omega
  obtain ⟨window, hwindow, hroomy, hfamily, hlength⟩ :=
    exists_rootWindow (branch?_of_root hroot) hnonneg hwidth hmask htotal
  obtain ⟨block, hblock⟩ := hroomy.exists_network
  refine ⟨window, block, hroomy, hfamily, hlength, ?_⟩
  unfold allocations
  rw [branch?_of_root hroot]
  dsimp only
  rw [hwindow]
  dsimp only
  rw [hblock]

/-- What the fill of a tree within its budget can be refused for. -/
theorem fill_error (ht : t.Rooted) (hroot : t.node? 0 = some root)
    (h : t.WithinBudget (maskLength - base.length)) (hmask : maskLength ≤ base.family.maskLimit)
    (he : (t.fill base maskLength).1 = .error e) :
    t.Unsized e ∨ t.Sized ∧ t.Crowded e := by
  have hnonneg := h.widths_nonneg ht
  have hmem := error_mem_allocations he
  cases hwidth : widthBelow ((t.children 0).map t.branch) with
  | error e' =>
    rw [allocations_of_widthBelow_error hroot (hnonneg 0 root hroot) hwidth,
      List.mem_singleton, Except.error.injEq] at hmem
    exact Or.inl (hmem ▸ ht.unsized_of_widthBelow (p := ⟨0, root⟩) hwidth)
  | ok deepest =>
    have hsized := (ht.exists_widthBelow_iff (p := ⟨0, root⟩)).mp ⟨deepest, hwidth⟩
    refine Or.inr ⟨fun i n hi hn ↦ hsized i n (ht.under_zero (lt_size_iff.mpr ⟨n, hn⟩))
      (Nat.ne_of_gt hi) hn, ?_⟩
    obtain ⟨window, block, hroomy, hfamily, hlength, hallocations⟩ :=
      allocations_of_widthBelow_ok ht hroot h hmask hwidth
    rw [hallocations] at hmem
    obtain ⟨k, c, hc, hmem⟩ :=
      exists_error_mem_allocateBranch ((List.mem_cons.mp hmem).resolve_left nofun)
    obtain ⟨hcholds, hparent⟩ := ht.mem_children.mp (List.mem_of_getElem? hc)
    have hlimit := base.family.maskLimit_le_windowBits
    have hwindow := base.family.windowBits_le
    have hroom : ∀ i s', t.Under i c.place → t.PathSum i s' →
        window.maskLength + c.node.bitWidth + (s' - (root.bitWidth + c.node.bitWidth)) ≤
          window.family.windowBits := by
      intro i s' _ hs'
      have hrootWidth := hnonneg 0 root hroot
      have hsums := h.sumsFit (by omega)
      have hsum := (ht.isGreatest_leafSums hsums hroot hrootWidth hwidth).2 i s' hs'
      have hle := h.deepest_le (p := ⟨0, root⟩) ht (by omega) hroot (.top hroot ht.top) hwidth
      rw [hlength, hfamily]
      omega
    rcases allocateBranch_error ht hnonneg hcholds
      ((PathSum.top hroot ht.top).child hcholds hparent) hroomy hroom hmem with
      ⟨hlarge, he⟩ | hcrowded
    · exact crowded_of_child (p := ⟨0, root⟩) hroot hc (by omega) he
    · exact hcrowded

end AddressPlan.NodeTree
