import AddressPlan.Proofs.NodeTree.Numbering

/-!
# The bits of numbered blocks

The bits of the block of a node are those of the base, zeros for what the widest path leaves
over and for the root, the positions on the way down from the root, each in the width of its
node, and zeros again.
-/

namespace AddressPlan.NodeTree

open Network

/-- How the blocks of a numbered tree lie below `base`, with `gap` bits left over behind it. -/
structure LaidOut (t t' : NodeTree) (base : Network) (gap : Nat) (block : Nat → Network) :
    Prop where
  text : ∀ i m, t'.node? i = some m → m.cidr = (block i).text
  within : ∀ i, i < t.size → base.Contains (block i)
  length : ∀ i s, t.PathSum i s → ((block i).length : Int) = base.length + gap + s
  leading_zeros : ∀ i n, i < t.size → t.node? 0 = some n →
    (block i).field (block 0).length (gap + n.bitWidth.toNat) = 0
  positions : ∀ i p k c, (t.children p)[k]? = some c → t.Under i c.place →
    (block i).field (block c.place).length c.node.bitWidth.toNat = k + 1
  trailing_zeros : ∀ i, i < t.size → (block i).Aligned
  child_within : ∀ i p, t.parent? i = some p →
    (block p).Contains (block i) ∧ (block p).length < (block i).length ∧
      ¬ (block i).Covers (block p).address
  number : ∀ (p k : Nat) c m, (t.children p)[k]? = some c → t'.node? c.place = some m →
    m.value = k + 1
  root_number : ∀ n m, t.node? 0 = some n → t'.node? 0 = some m → m.value = n.value
  unchanged : Relabelled t t'

variable {t t' : NodeTree} {base : Network} {window : BitWindow} {parent : Node}
  {siblings position maskLength gap : Nat} {total s : Int} {p c : Placed} {a : Allocation}
  {as : List Allocation}

/-! ## The numbers that places are given -/

/-- The children of these places are numbered by their positions. -/
def Counted (t : NodeTree) (places : List Placed) (as : List Allocation) : Prop :=
  ∀ p ∈ places, ∀ k c, (t.children p.place)[k]? = some c →
    ∃ a ∈ as, a.place = c.place ∧ a.number = some (k + 1)

theorem allocateChild_number {own : BitWindow}
    (h : allocateChild window parent siblings position c = .ok (own, a)) :
    a.place = c.place ∧ a.number = some position := by
  simp only [allocateChild, bind, Except.bind, pure, Except.pure, throw, throwThe,
    MonadExceptOf.throw] at h
  split at h
  · cases h
  · split at h
    · cases h
    · split at h
      · cases h
      · cases h
        exact ⟨rfl, rfl⟩

theorem counted_siblings {cs : List Placed}
    (ih : ∀ c ∈ cs, ∀ position as,
      allocateBranch window parent siblings position (t.branch c) = as.map .ok →
      t.Counted (t.branch c).preorder as ∧
        ∃ a ∈ as, a.place = c.place ∧ a.number = some position)
    (h : allocateFrom window parent siblings position (cs.map t.branch) = as.map .ok) :
    t.Counted (cs.flatMap fun c ↦ (t.branch c).preorder) as ∧
      ∀ k c, cs[k]? = some c → ∃ a ∈ as, a.place = c.place ∧ a.number = some (position + k) := by
  induction cs generalizing position as with
  | nil => exact ⟨fun p hp ↦ absurd hp List.not_mem_nil, fun k c hc ↦ by cases hc⟩
  | cons d cs ihcs =>
    rw [List.map_cons, allocateFrom] at h
    obtain ⟨as₁, as₂, rfl, h₁, h₂⟩ := List.map_eq_append_iff.mp h.symm
    obtain ⟨hcounted₁, a, ha, hrest₁⟩ := ih d List.mem_cons_self position as₁ h₁.symm
    obtain ⟨hcounted₂, hcs⟩ := ihcs (fun c hc ↦ ih c (List.mem_cons_of_mem d hc)) h₂.symm
    refine ⟨fun p hp k c hc ↦ ?_, fun k c hc ↦ ?_⟩
    · rw [List.flatMap_cons, List.mem_append] at hp
      rcases hp with hp | hp
      · obtain ⟨b, hb, hrest⟩ := hcounted₁ p hp k c hc
        exact ⟨b, List.mem_append_left _ hb, hrest⟩
      · obtain ⟨b, hb, hrest⟩ := hcounted₂ p hp k c hc
        exact ⟨b, List.mem_append_right _ hb, hrest⟩
    · cases k with
      | zero =>
        cases hc
        exact ⟨a, List.mem_append_left _ ha, hrest₁⟩
      | succ k =>
        obtain ⟨b, hb, hplace, hnumber⟩ := hcs k c hc
        exact ⟨b, List.mem_append_right _ hb, hplace, by rw [hnumber]; congr 1; omega⟩

/-- An allocation for the place in front of those for what is below it. -/
theorem Counted.cons
    (h : t.Counted ((t.children p.place).flatMap fun c ↦ (t.branch c).preorder) as)
    (hchildren : ∀ k c, (t.children p.place)[k]? = some c →
      ∃ b ∈ as, b.place = c.place ∧ b.number = some (1 + k)) (a : Allocation) :
    t.Counted (t.branch p).preorder (a :: as) := by
  intro q hq k c hc
  rw [preorder_branch, List.mem_cons] at hq
  rcases hq with rfl | hq
  · obtain ⟨b, hb, hplace, hnumber⟩ := hchildren k c hc
    exact ⟨b, List.mem_cons_of_mem _ hb, hplace, Nat.add_comm 1 k ▸ hnumber⟩
  · obtain ⟨b, hb, hrest⟩ := h q hq k c hc
    exact ⟨b, List.mem_cons_of_mem _ hb, hrest⟩

theorem counted_branch (p : Placed) : ∀ {window parent siblings position as},
    allocateBranch window parent siblings position (t.branch p) = as.map .ok →
    t.Counted (t.branch p).preorder as ∧
      ∃ a ∈ as, a.place = p.place ∧ a.number = some position := by
  induction p using branch_induction t with
  | h p ih =>
    intro window parent siblings position as h
    rw [branch_eq, allocateBranch] at h
    split at h
    · obtain ⟨_, _, -, heq, -⟩ := List.map_eq_cons_iff.mp h.symm
      cases heq
    · rename_i own a hchild
      obtain ⟨_, as, rfl, heq, hrest⟩ := List.map_eq_cons_iff.mp h.symm
      cases heq
      obtain ⟨hcounted, hchildren⟩ :=
        counted_siblings (fun c hc _ _ hc' ↦ ih c hc hc') hrest.symm
      exact ⟨hcounted.cons hchildren a, a, List.mem_cons_self, allocateChild_number hchild⟩

/-- What a place shows after all allocations were written. -/
theorem node?_foldl_assign (hnodup : (as.map Allocation.place).Nodup) (ha : a ∈ as) :
    (as.foldl assign t).node? a.place = (t.node? a.place).map fun n ↦
      { n with cidr := a.block.text, value := (a.number.map Int.ofNat).getD n.value } := by
  induction as generalizing t with
  | nil => cases ha
  | cons b as ih =>
    rw [List.map_cons, List.nodup_cons] at hnodup
    rw [List.foldl_cons]
    rcases List.mem_cons.mp ha with rfl | ha
    · rw [node?_foldl_assign_of_not_mem as hnodup.1, assign, node?_update, if_pos rfl]
    · rw [ih hnodup.2 ha, node?_assign_of_ne]
      rintro heq
      exact hnodup.1 (heq ▸ List.mem_map_of_mem ha)

/-- The root keeps its number, and every other node is numbered by its position. -/
theorem numbers_of_fill (ht : t.Rooted) {root : Node} (hroot : t.node? 0 = some root)
    (hfill : t.fill base maskLength = (.ok (), t')) :
    (∀ m, t'.node? 0 = some m → m.value = root.value) ∧
      ∀ (p k : Nat) c m, (t.children p)[k]? = some c → t'.node? c.place = some m →
        m.value = k + 1 := by
  obtain ⟨as, has, rfl⟩ := assignAll_eq_ok hfill
  obtain ⟨as', has', hnumbered⟩ := fill_eq_ok ht hfill
  obtain rfl : as = as' :=
    List.map_injective_iff.mpr (fun _ _ ↦ Except.ok.inj) (has.symm.trans has')
  have hbranch := branch?_of_root hroot
  obtain ⟨window, block, rest, -, -, rfl, hrest⟩ := allocations_eq_cons hbranch has
  obtain ⟨hcounted, hchildren⟩ := counted_siblings (fun c _ _ _ h ↦ counted_branch c h) hrest
  have hall := Counted.cons (p := ⟨0, root⟩) hcounted hchildren ⟨0, none, block⟩
  constructor
  · intro m hm
    have hnode := node?_foldl_assign (t := t) hnumbered.nodup (List.mem_cons_self (l := rest))
    rw [hm, hroot] at hnode
    cases hnode
    rfl
  · intro p k c m hc hm
    obtain ⟨hholds, hparent⟩ := ht.mem_children.mp (List.mem_of_getElem? hc)
    obtain ⟨q, hq⟩ := ht.exists_parent_node hparent
    have hmem : ⟨p, q⟩ ∈ (t.branch ⟨0, root⟩).preorder :=
      (ht.mem_preorder (p := ⟨0, root⟩) hroot).mpr
        ⟨hq, ht.under_zero (lt_size_iff.mpr ⟨q, hq⟩)⟩
    obtain ⟨a, ha, hplace, hnumber⟩ := hall ⟨p, q⟩ hmem k c hc
    have hnode := node?_foldl_assign (t := t) hnumbered.nodup ha
    rw [hplace, hm, hholds, hnumber] at hnode
    cases hnode
    rfl

/-! ## Where the blocks lie -/

theorem Under.lt_size {i j : Nat} (h : t.Under i j) (hj : j < t.size) : i < t.size := by
  rcases under_iff.mp h with rfl | ⟨p, hp, -⟩
  · exact hj
  · exact lt_size_of_parent? hp

/-- The block of the root starts where the base does, behind the bits that no path needs. -/
theorem root_block_of_numbered (ht : t.Rooted) (hsums : t.SumsFit) {root : Node}
    (hroot : t.node? 0 = some root) (has : t.allocations base maskLength = as.map .ok)
    (htotal : IsGreatest t.leafSums total)
    (hgap : (gap : Int) = maskLength - base.length - total) :
    ∃ a ∈ as, a.place = 0 ∧ a.block.family = base.family ∧
      a.block.length = base.length + gap + root.bitWidth.toNat ∧
      a.block.address = base.base.address := by
  obtain ⟨window, block, rest, hwindow, hblock, rfl, -⟩ :=
    allocations_eq_cons (branch?_of_root hroot) has
  obtain ⟨hnonneg, deepest, whole, hdeepest, hwhole, hroom, rfl⟩ :=
    ht.rootWindow_eq_ok hsums hroot hwindow
  obtain rfl := htotal.unique (ht.isGreatest_leafSums hsums hroot hnonneg hdeepest).1
  obtain ⟨hfamily, hlength, haddress⟩ := BitWindow.toNetwork_eq_ok hblock
  refine ⟨_, List.mem_cons_self, rfl, hfamily.trans (ofNetwork_eq_ok hwhole).1, ?_, ?_⟩
  · rw [hlength, BitWindow.withMaskLength_maskLength]
    omega
  · rw [haddress, ← address_ofNetwork hwhole]
    rfl

/-- The root's block stands behind the base and `gap` bits, and every child's is the segment of
its parent's block that its position names. -/
structure Tiled (t : NodeTree) (base : Network) (gap : Nat) (block : Nat → Network) : Prop where
  root_family : (block 0).family = base.family
  root_length : ∀ n, t.node? 0 = some n →
    (block 0).length = base.length + gap + n.bitWidth.toNat
  root_address : (block 0).address = base.base.address
  segment : ∀ p k c, (t.children p)[k]? = some c →
    Segment (block p) (k + 1) c.node.bitWidth.toNat (block c.place)
  aligned : ∀ i, i < t.size → (block i).Aligned
  covers : ∀ i j, i < t.size → t.Under i j →
    (block i).family = (block j).family ∧ (block j).Covers (block i).address

theorem tiled_of_fill (ht : t.Rooted) (hsums : t.SumsFit) {root : Node}
    (hroot : t.node? 0 = some root) (hfill : t.fill base maskLength = (.ok (), t'))
    (htotal : IsGreatest t.leafSums total)
    (hgap : (gap : Int) = maskLength - base.length - total) :
    ∃ block, t.Tiled base gap block ∧ ∀ i m, t'.node? i = some m → m.cidr = (block i).text := by
  obtain ⟨as, has, hnumbered⟩ := fill_eq_ok ht hfill
  obtain ⟨top, htop, hzero, hfamily, hlength, haddress⟩ :=
    root_block_of_numbered ht hsums hroot has htotal hgap
  have hblock : ∀ i, ∃ b : Network, ∀ a ∈ as, a.place = i → a.block = b := by
    intro i
    by_cases hi : ∃ a ∈ as, a.place = i
    · obtain ⟨a, ha, rfl⟩ := hi
      exact ⟨a.block, fun b hb hplace ↦ by rw [hnumbered.eq_of_place_eq hb ha hplace]⟩
    · exact ⟨base, fun a ha hplace ↦ absurd ⟨a, ha, hplace⟩ hi⟩
  choose block hblock using hblock
  have hof : ∀ i, i < t.size → ∃ a ∈ as, a.place = i ∧ a.block = block i := by
    intro i hi
    obtain ⟨a, ha, hplace⟩ := (hnumbered.mem_place i).mp hi
    exact ⟨a, ha, hplace, hblock i a ha hplace⟩
  have htopBlock := hblock 0 top htop hzero
  refine ⟨block, ⟨htopBlock ▸ hfamily, fun n hn ↦ ?_, htopBlock ▸ haddress, fun p k c hc ↦ ?_,
    fun i hi ↦ ?_, fun i j hi hunder ↦ ?_⟩, fun i m hm ↦ ?_⟩
  · cases hn.symm.trans hroot
    exact htopBlock ▸ hlength
  · have hparent := (ht.mem_children.mp (List.mem_of_getElem? hc)).2
    obtain ⟨a, ha, rfl, heq⟩ := hof p (lt_size_iff.mpr (ht.exists_parent_node hparent))
    obtain ⟨b, hb, hplace, hsegment⟩ := hnumbered.segment_of_fill ht hsums hfill ha hc
    rwa [← heq, ← hblock c.place b hb hplace]
  · obtain ⟨a, ha, -, heq⟩ := hof i hi
    exact heq ▸ hnumbered.aligned ht ha
  · obtain ⟨b, hb, rfl, heq⟩ := hof i hi
    obtain ⟨a, ha, rfl, heq'⟩ := hof j (Nat.lt_of_le_of_lt (ht.le_of_under hunder) hi)
    obtain ⟨hfamily, hcovers⟩ := hnumbered.covers_of_under ht ha hb hunder
    rw [← heq, ← heq']
    exact ⟨hfamily, hcovers _ b.block.covers_address⟩
  · obtain ⟨a, ha, rfl, heq⟩ := hof i (lt_size_of_fill hfill hm)
    exact heq ▸ hnumbered.cidr a ha m hm

namespace Tiled

variable {block : Nat → Network}

theorem length (h : t.Tiled base gap block) (ht : t.Rooted)
    (hwidths : ∀ i n, t.node? i = some n → 0 ≤ n.bitWidth) {i : Nat} (hs : t.PathSum i s) :
    ((block i).length : Int) = base.length + gap + s := by
  induction hs with
  | @top i n hn hparent =>
    obtain rfl : i = 0 := by
      by_contra hne
      obtain ⟨p, -, hp⟩ := ht.parent i (Nat.pos_of_ne_zero hne) (lt_size_iff.mpr ⟨n, hn⟩)
      cases hparent.symm.trans hp
    have hwidth := hwidths 0 n hn
    rw [h.root_length n hn]
    omega
  | @child i p n s _ hn hparent ih =>
    obtain ⟨k, hk⟩ := List.mem_iff_getElem?.mp
      (ht.mem_children.mpr ⟨hn, hparent⟩ : (⟨i, n⟩ : Placed) ∈ t.children p)
    have hwidth := hwidths i n hn
    have hlength := (h.segment p k _ hk).length
    dsimp only at hlength
    omega

/-- The base is as many bits shorter than the root's block as the gap and the root take. -/
theorem base_size (h : t.Tiled base gap block) {root : Node} (hroot : t.node? 0 = some root) :
    base.size = (block 0).size * 2 ^ (gap + root.bitWidth.toNat) := by
  have hle := (block 0).length_le
  have hlength := h.root_length root hroot
  rw [h.root_family] at hle
  change 2 ^ (base.family.addressBits - base.length) =
    2 ^ ((block 0).family.addressBits - (block 0).length) * _
  rw [← Nat.pow_add, h.root_family]
  congr 1
  omega

theorem root_div (h : t.Tiled base gap block) {root : Node} (hroot : t.node? 0 = some root) :
    (block 0).address / (block 0).size =
      base.address / base.size * 2 ^ (gap + root.bitWidth.toNat) := by
  rw [h.root_address]
  change base.address / base.size * base.size / (block 0).size = _
  rw [h.base_size hroot, Nat.mul_comm (block 0).size, ← Nat.mul_assoc,
    Nat.mul_div_cancel _ (block 0).size_pos]

theorem within (h : t.Tiled base gap block) (ht : t.Rooted)
    (hwidths : ∀ i n, t.node? i = some n → 0 ≤ n.bitWidth) {i : Nat} (hi : i < t.size) :
    base.Contains (block i) := by
  obtain ⟨root, hroot⟩ := lt_size_iff.mp (Nat.zero_lt_of_lt hi)
  obtain ⟨hfamily, hcovers⟩ := h.covers i 0 hi (ht.under_zero hi)
  refine ⟨(hfamily.trans h.root_family).symm, ?_, ?_⟩
  · obtain ⟨s, hs⟩ := ht.exists_pathSum hi
    have hsum := hs.nonneg hwidths
    have hlength := h.length ht hwidths hs
    omega
  · rw [h.base_size hroot, ← Nat.div_div_eq_div_mul, hcovers, h.root_div hroot,
      Nat.mul_div_cancel _ (Nat.two_pow_pos _), ← h.base_size hroot]

theorem leading_zeros (h : t.Tiled base gap block) (ht : t.Rooted) {root : Node}
    (hroot : t.node? 0 = some root) {i : Nat} (hi : i < t.size) :
    (block i).field (block 0).length (gap + root.bitWidth.toNat) = 0 := by
  obtain ⟨hfamily, hcovers⟩ := h.covers i 0 hi (ht.under_zero hi)
  rw [field_eq_of_covers hfamily hcovers, h.root_div hroot, Nat.mul_mod_left]

theorem positions (h : t.Tiled base gap block) (ht : t.Rooted) {i p k : Nat} {c : Placed}
    (hc : (t.children p)[k]? = some c) (hi : i < t.size) (hunder : t.Under i c.place) :
    (block i).field (block c.place).length c.node.bitWidth.toNat = k + 1 := by
  have hparent := (ht.mem_children.mp (List.mem_of_getElem? hc)).2
  obtain ⟨hfamily, hcovers⟩ := h.covers i c.place hi hunder
  rw [field_eq_of_covers hfamily hcovers]
  exact (h.segment p k c hc).address_div_mod
    (h.aligned p (lt_size_iff.mpr (ht.exists_parent_node hparent)))

theorem child_within (h : t.Tiled base gap block) (ht : t.Rooted)
    (hwidths : ∀ i n, 0 < i → t.node? i = some n → 0 < n.bitWidth) {i p : Nat}
    (hparent : t.parent? i = some p) :
    (block p).Contains (block i) ∧ (block p).length < (block i).length ∧
      ¬ (block i).Covers (block p).address := by
  obtain ⟨n, hn⟩ := lt_size_iff.mp (lt_size_of_parent? hparent)
  obtain ⟨k, hk⟩ := List.mem_iff_getElem?.mp
    (ht.mem_children.mpr ⟨hn, hparent⟩ : (⟨i, n⟩ : Placed) ∈ t.children p)
  have hsegment := h.segment p k _ hk
  have haligned := h.aligned p (lt_size_iff.mpr (ht.exists_parent_node hparent))
  have hwidth := hwidths i n (Nat.zero_lt_of_lt (ht.lt_of_parent? hparent)) hn
  have hlength := hsegment.length
  dsimp only at hsegment hlength
  refine ⟨⟨hsegment.family.symm, by omega, ?_⟩, by omega,
    hsegment.not_covers_parent haligned k.succ_pos⟩
  exact hsegment.covers_parent haligned (covers_address _)

end Tiled

theorem laidOut_of_tiled {block : Nat → Network} (ht : t.Rooted) {root : Node}
    (hroot : t.node? 0 = some root) (hfill : t.fill base maskLength = (.ok (), t'))
    (hnumberable : t.Numberable base maskLength total) (h : t.Tiled base gap block)
    (htext : ∀ i m, t'.node? i = some m → m.cidr = (block i).text) :
    t.LaidOut t' base gap block := by
  have hwidths := hnumberable.widths_nonneg
  obtain ⟨hrootNumber, hnumber⟩ := numbers_of_fill ht hroot hfill
  refine ⟨htext, fun i hi ↦ h.within ht hwidths hi, fun i s hs ↦ h.length ht hwidths hs, ?_,
    fun i p k c hc hunder ↦ h.positions ht hc ?_ hunder, h.aligned,
    fun i p hparent ↦ h.child_within ht hnumberable.widths hparent, hnumber, ?_,
    relabelled_of_fill hfill⟩
  · intro i n hi hn
    exact h.leading_zeros ht hn hi
  · obtain ⟨hholds, -⟩ := ht.mem_children.mp (List.mem_of_getElem? hc)
    exact hunder.lt_size (lt_size_iff.mpr ⟨_, hholds⟩)
  · intro n m hn
    cases hn.symm.trans hroot
    exact hrootNumber m

/-- The tree can be numbered exactly if it has room for its widest path.  Then every block is
told bit by bit, and the longest one has the length that was asked for. -/
theorem fill_layout (ht : t.Rooted) (hsize : 0 < t.size) (hsums : t.SumsFit) (base : Network)
    (maskLength : Nat) :
    ∃ total, IsGreatest t.leafSums total ∧
      ((t.fill base maskLength).1 = .ok () ↔ t.Numberable base maskLength total) ∧
      ∀ t', t.fill base maskLength = (.ok (), t') →
        ∃ gap : Nat, (gap : Int) = maskLength - base.length - total ∧
          ∃ block, t.LaidOut t' base gap block ∧
            IsGreatest {length | ∃ i < t.size, (block i).length = length} maskLength := by
  obtain ⟨root, hroot⟩ := lt_size_iff.mp hsize
  obtain ⟨total, htotal⟩ := ht.exists_isGreatest_leafSums hsize
  have hof : ∀ t', t.fill base maskLength = (.ok (), t') →
      t.Numberable base maskLength total := by
    intro t' hfill
    obtain ⟨total', htotal', hnumberable⟩ := ht.numberable_of_fill hsums hroot hfill
    exact htotal.unique htotal' ▸ hnumberable
  refine ⟨total, htotal, ⟨fun h ↦ hof _ (Prod.ext h rfl), ht.fill_of_numberable hroot htotal⟩,
    fun t' hfill ↦ ?_⟩
  have hnumberable := hof t' hfill
  have hle := hnumberable.total_le
  obtain ⟨gap, hgap⟩ := Int.eq_ofNat_of_zero_le (Int.sub_nonneg.mpr hle)
  obtain ⟨block, htiled, htext⟩ := tiled_of_fill ht hsums hroot hfill htotal hgap.symm
  have hlaidOut := laidOut_of_tiled ht hroot hfill hnumberable htiled htext
  refine ⟨gap, hgap.symm, block, hlaidOut, ?_, ?_⟩
  · obtain ⟨i, -, hs⟩ := htotal.1
    have hlength := hlaidOut.length i total hs
    exact ⟨i, hs.lt_size, by omega⟩
  · rintro _ ⟨i, hi, rfl⟩
    obtain ⟨s, hs⟩ := ht.exists_pathSum hi
    have hsum := ht.pathSum_le hnumberable.widths_nonneg htotal hs
    have hlength := hlaidOut.length i s hs
    omega

/-- Of the 16 bits behind the base 8 are committed, and the other 8 stand in front as zeros. -/
def regions : NodeTree :=
  build [{ id := 1, name := "root" },
    { id := 2, parentId := 1, name := "region", sequence := 1, bitWidth := 4 },
    { id := 3, parentId := 2, name := "site-a", sequence := 1, bitWidth := 4 },
    { id := 4, parentId := 2, name := "site-b", sequence := 2, bitWidth := 4 },
    { id := 5, parentId := 1, name := "lab", sequence := 2, bitWidth := 4 }]

theorem regions_sumsFit : regions.SumsFit := by
  have hwithin : regions.WithinBudget 16 :=
    (build_rooted _).checkBudget_eq_ok_iff.mp (by decide +kernel)
  exact hwithin.sumsFit (by decide)

theorem fill_layout_regions : regions.SumsFit ∧ ∃ total, IsGreatest regions.leafSums total ∧
    regions.Numberable exampleBase 64 total ∧
    ∃ t', regions.fill exampleBase 64 = (.ok (), t') ∧
      ∃ gap : Nat, (gap : Int) = 64 - exampleBase.length - total ∧
        ∃ block, regions.LaidOut t' exampleBase gap block := by
  have hfill : (regions.fill exampleBase 64).1 = .ok () := by decide +kernel
  obtain ⟨total, htotal, hiff, hlayout⟩ :=
    fill_layout (build_rooted _ : regions.Rooted) (by decide +kernel) regions_sumsFit exampleBase 64
  obtain ⟨gap, hgap, block, hblock, -⟩ := hlayout _ (Prod.ext hfill rfl)
  exact ⟨regions_sumsFit, total, htotal, hiff.mp hfill, _, Prod.ext hfill rfl, gap, hgap, block,
    hblock⟩

end AddressPlan.NodeTree
