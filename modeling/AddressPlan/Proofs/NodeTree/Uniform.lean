import AddressPlan.Proofs.Network.Text
import AddressPlan.Proofs.NodeTree.Fill
import AddressPlan.Proofs.NodeTree.Labels
import AddressPlan.Proofs.StepRuns

/-!
# Numbering nodes of one width

If all nodes below the root are equally wide then the block of a node can be told from the
label of its place and from the number of levels.  The levels say how long the root's block
is, and the positions of the label are the digits behind it.  So nodes of two trees that are
numbered below one base get the same block exactly if the trees have equally many levels and
the nodes stand at the same label.
-/

namespace AddressPlan

mutual
/-- The number of levels of a tree, that of its top included. -/
def Rose.levels {α : Type} : Rose α → Nat
  | .node _ ts => Rose.levelsBelow ts + 1

def Rose.levelsBelow {α : Type} : List (Rose α) → Nat
  | [] => 0
  | t :: ts => max t.levels (Rose.levelsBelow ts)
end

namespace NodeTree

open Network

/-- The number of levels below the root. -/
def levels (t : NodeTree) : Nat :=
  Rose.levelsBelow t.branches

/-- Every node below the root has this width. -/
def UniformBelow (t : NodeTree) (width : Nat) : Prop :=
  ∀ i n, 0 < i → t.node? i = some n → n.bitWidth.toNat = width

/-- The block that a label has in a tree of so many levels. -/
structure BlockAt (base : Network) (maskLength width levels : Nat) (label : List Nat)
    (block : Network) : Prop where
  family : block.family = base.family
  length : block.length + levels * width = maskLength + label.length * width
  address : block.address = base.base.address + labelNumber width label * block.size
  digits : ∀ v ∈ label, 0 < v ∧ v < 2 ^ width
  width_pos : levels = 0 ∨ 0 < width

variable {t t' u u' : NodeTree} {width deepest maskLength i j : Nat} {s : Int} {base : Network}
  {p : Placed} {n m : Node} {label : List Nat}

/-! ## The root -/

theorem widthBelow_eq_ok {ts : List (Rose Placed)}
    (hts : ∀ b ∈ ts, ∀ d, widthOf b = .ok d → d = b.levels * width ∧ 0 < width)
    (h : widthBelow ts = .ok deepest) :
    deepest = Rose.levelsBelow ts * width ∧ (Rose.levelsBelow ts = 0 ∨ 0 < width) := by
  induction ts generalizing deepest with
  | nil =>
    cases h
    exact ⟨(Nat.zero_mul width).symm, Or.inl rfl⟩
  | cons b ts ih =>
    obtain ⟨first, hfirst, h⟩ := bind_eq_ok_iff.mp h
    obtain ⟨others, hothers, h⟩ := bind_eq_ok_iff.mp h
    cases h
    obtain ⟨rfl, hpos⟩ := hts b List.mem_cons_self first hfirst
    obtain ⟨rfl, -⟩ := ih (fun b hb ↦ hts b (List.mem_cons_of_mem _ hb)) hothers
    exact ⟨Nat.mul_max_mul_right _ _ _, Or.inr hpos⟩

theorem widthBelow_children (ht : t.Rooted) (hsums : t.SumsFit) (hwidth : t.UniformBelow width)
    (hs : t.PathSum p.place s) (hnonneg : 0 ≤ s)
    (h : widthBelow ((t.children p.place).map t.branch) = .ok deepest) :
    deepest = Rose.levelsBelow ((t.children p.place).map t.branch) * width ∧
      (Rose.levelsBelow ((t.children p.place).map t.branch) = 0 ∨ 0 < width) := by
  induction p using branch_induction t generalizing s deepest with
  | h p ih =>
    refine widthBelow_eq_ok (fun b hb d hd ↦ ?_) h
    obtain ⟨c, hc, rfl⟩ := List.mem_map.mp hb
    obtain ⟨hholds, hparent⟩ := ht.mem_children.mp hc
    have hpos : 0 < c.place := Nat.zero_lt_of_lt (lt_of_mem_children hc).1
    have hown := hwidth c.place c.node hpos hholds
    have hsum := hs.child hholds hparent
    obtain ⟨hsized, below, hbelow, rfl⟩ := widthOf_branch_eq_ok_iff.mp hd
    rw [ht.width_add_below hsums hholds hsum (by omega) (by omega) hbelow]
    obtain ⟨rfl, -⟩ := ih c hc hsum (by omega) hbelow
    rw [branch_eq, Rose.levels, Nat.succ_mul, Nat.add_comm, hown]
    exact ⟨rfl, by omega⟩

theorem address_ofNetwork {window : BitWindow}
    (h : BitWindow.ofNetwork base maskLength = .ok window) :
    window.bits * 2 ^ (window.family.addressBits - window.family.windowBits) =
      base.base.address := by
  obtain ⟨⟨-, hlength⟩, rfl⟩ := BitWindow.ofNetwork_eq_ok_iff.mp h
  have hlimits := base.family.maskLimit_le_windowBits
  change base.base.address >>> (base.family.addressBits - base.family.windowBits) * _ = _
  rw [Nat.shiftRight_eq_div_pow]
  apply Nat.div_mul_cancel
  refine Nat.dvd_trans ?_ (Nat.dvd_mul_left _ _)
  exact Nat.pow_dvd_pow 2 (by omega)

/-- The root's block starts where the base starts, and leaves room for just as many levels
as there are. -/
theorem exists_blockAt_root (ht : t.Rooted) (hsums : t.SumsFit) (hwidth : t.UniformBelow width)
    {as : List Allocation} (hroot : t.node? 0 = some n)
    (has : t.allocations base maskLength = as.map .ok) :
    ∃ a ∈ as, a.place = 0 ∧ BlockAt base maskLength width t.levels [] a.block := by
  have hbranch := branch?_of_root hroot
  have hlevels : t.levels = Rose.levelsBelow ((t.children 0).map t.branch) := by
    rw [levels, branches, hbranch]
    rfl
  obtain ⟨window, block, rest, hwindow, hblock, rfl, -⟩ := allocations_eq_cons hbranch has
  obtain ⟨hnonneg, deepest, whole, hdeepest, hwhole, hroom, rfl⟩ :=
    ht.rootWindow_eq_ok hsums hroot hwindow
  obtain ⟨hfamily, hlength, haddress⟩ := BitWindow.toNetwork_eq_ok hblock
  obtain ⟨hwholeFamily, -, -, -⟩ := ofNetwork_eq_ok hwhole
  have hlevelled :=
    widthBelow_children (p := ⟨0, n⟩) ht hsums hwidth (.top hroot ht.top) hnonneg hdeepest
  rw [← hlevels] at hlevelled
  obtain ⟨rfl, hpos⟩ := hlevelled
  refine ⟨_, List.mem_cons_self, rfl, hfamily.trans hwholeFamily, ?_, ?_,
    fun v hv ↦ absurd hv List.not_mem_nil, hpos⟩
  · change block.length + _ = _
    rw [hlength, List.length_nil, Nat.zero_mul, Nat.add_zero]
    change maskLength - _ + _ = _
    omega
  · rw [haddress, labelNumber_nil, Nat.zero_mul, Nat.add_zero, ← address_ofNetwork hwhole]
    rfl

/-! ## The other places -/

theorem BlockAt.segment {levels position : Nat} {parent block : Network}
    (h : BlockAt base maskLength width levels label parent) (hpos : 0 < position)
    (hsegment : Segment parent position width block) :
    BlockAt base maskLength width levels (label ++ [position]) block where
  family := hsegment.family.trans h.family
  length := by
    have hlength := h.length
    rw [hsegment.length, List.length_append, List.length_singleton, Nat.add_mul, Nat.one_mul]
    omega
  address := by
    rw [hsegment.address, h.address, hsegment.size_parent, labelNumber_concat, Nat.add_mul,
      Nat.add_assoc, Nat.mul_comm block.size, Nat.mul_assoc]
  digits := by
    intro v hv
    rcases List.mem_append.mp hv with hv | hv
    · exact h.digits v hv
    · rw [List.mem_singleton.mp hv]
      exact ⟨hpos, hsegment.lt⟩
  width_pos := h.width_pos

theorem blockAt_of_labelled (ht : t.Rooted) (hsums : t.SumsFit) (hwidth : t.UniformBelow width)
    (hfill : t.fill base maskLength = (.ok (), t')) {as : List Allocation}
    (has : t.allocations base maskLength = as.map .ok) (hnumbered : t.Numbered t' as)
    (hlabel : t.Labelled i label) {a : Allocation} (ha : a ∈ as)
    (hplace : a.place = i) : BlockAt base maskLength width t.levels label a.block := by
  induction hlabel generalizing a with
  | root =>
    obtain ⟨n, hn⟩ := lt_size_iff.mp ((hnumbered.mem_place 0).mpr ⟨a, ha, hplace⟩)
    obtain ⟨b, hb, hzero, hblock⟩ := exists_blockAt_root ht hsums hwidth hn has
    obtain rfl := hnumbered.eq_of_place_eq hb ha (hzero.trans hplace.symm)
    exact hblock
  | @child p k label c hp hc ih =>
    obtain ⟨hholds, hparent⟩ := ht.mem_children.mp (List.mem_of_getElem? hc)
    obtain ⟨q, hq, rfl⟩ := (hnumbered.mem_place p).mp
      (lt_size_iff.mpr (ht.exists_parent_node hparent))
    obtain ⟨b, hb, hchild, hsegment⟩ := hnumbered.segment_of_fill ht hsums hfill hq hc
    obtain rfl := hnumbered.eq_of_place_eq hb ha (hchild.trans hplace.symm)
    rw [hwidth c.place c.node (Nat.zero_lt_of_lt (ht.lt_of_parent? hparent)) hholds] at hsegment
    exact (ih hq rfl).segment k.succ_pos hsegment

/-- Blocks of trees with equally many levels at one label are the same, and others are not. -/
theorem BlockAt.eq_iff {levels levels' : Nat} {label label' : List Nat} {block block' : Network}
    (h : BlockAt base maskLength width levels label block)
    (h' : BlockAt base maskLength width levels' label' block') :
    block = block' ↔ levels = levels' ∧ label = label' := by
  have hfamily := h.family.trans h'.family.symm
  have hlength := h.length
  have hlength' := h'.length
  constructor
  · rintro rfl
    have hnumber : labelNumber width label = labelNumber width label' := by
      have haddress := h.address.symm.trans h'.address
      exact Nat.eq_of_mul_eq_mul_right block.size_pos (Nat.add_left_cancel haddress)
    obtain rfl := labelNumber_injective h.digits h'.digits hnumber
    refine ⟨?_, rfl⟩
    have hlevels : levels * width = levels' * width := by omega
    rcases h.width_pos with hzero | hpos
    · rcases h'.width_pos with hzero' | hpos
      · exact hzero.trans hzero'.symm
      · exact Nat.eq_of_mul_eq_mul_right hpos hlevels
    · exact Nat.eq_of_mul_eq_mul_right hpos hlevels
  · rintro ⟨rfl, rfl⟩
    have hsize : block.size = block'.size := by
      unfold Network.size
      rw [hfamily, show block.length = block'.length by omega]
    have haddress : block.address = block'.address := by
      rw [h.address, h'.address, hsize]
    rcases block with ⟨family, address, length, _, _⟩
    rcases block' with ⟨family', address', length', _, _⟩
    dsimp only at hfamily haddress hlength hlength'
    subst hfamily haddress
    congr 1
    omega

/-- A numbered node has the text of the block that its label gives. -/
theorem exists_blockAt (ht : t.Rooted) (hsums : t.SumsFit) (hwidth : t.UniformBelow width)
    (hfill : t.fill base maskLength = (.ok (), t')) (hn : t'.node? i = some n)
    (hlabel : t.Labelled i label) :
    ∃ block, n.cidr = block.text ∧ BlockAt base maskLength width t.levels label block := by
  obtain ⟨as, has, hnumbered⟩ := fill_eq_ok ht hfill
  obtain ⟨a, ha, hplace⟩ := (hnumbered.mem_place i).mp (lt_size_of_fill hfill hn)
  exact ⟨a.block, hnumbered.cidr a ha n (hplace ▸ hn),
    blockAt_of_labelled ht hsums hwidth hfill has hnumbered hlabel ha hplace⟩

/-- Nodes of two trees numbered below one base carry the same text exactly if the trees have
equally many levels and the nodes stand at the same label. -/
theorem cidr_eq_iff (ht : t.Rooted) (hu : u.Rooted) (hsums : t.SumsFit) (hsums' : u.SumsFit)
    (hwidth : t.UniformBelow width) (hwidth' : u.UniformBelow width)
    (hfill : t.fill base maskLength = (.ok (), t'))
    (hfill' : u.fill base maskLength = (.ok (), u')) (hn : t'.node? i = some n)
    (hm : u'.node? j = some m) :
    n.cidr = m.cidr ↔
      t.levels = u.levels ∧ ∃ label, t.Labelled i label ∧ u.Labelled j label := by
  have hblocks : ∀ {label label' : List Nat}, t.Labelled i label → u.Labelled j label' →
      (n.cidr = m.cidr ↔ t.levels = u.levels ∧ label = label') := by
    intro label label' hlabel hlabel'
    obtain ⟨block, htext, hblock⟩ := exists_blockAt ht hsums hwidth hfill hn hlabel
    obtain ⟨block', htext', hblock'⟩ := exists_blockAt hu hsums' hwidth' hfill' hm hlabel'
    rw [htext, htext', ← hblock.eq_iff hblock']
    exact ⟨text_injective (hblock.family.trans hblock'.family.symm), congrArg text⟩
  constructor
  · intro hcidr
    obtain ⟨label, hlabel⟩ := ht.exists_label (lt_size_of_fill hfill hn)
    obtain ⟨label', hlabel'⟩ := hu.exists_label (lt_size_of_fill hfill' hm)
    obtain ⟨hlevels, rfl⟩ := (hblocks hlabel hlabel').mp hcidr
    exact ⟨hlevels, label, hlabel, hlabel'⟩
  · rintro ⟨hlevels, label, hlabel, hlabel'⟩
    exact (hblocks hlabel hlabel').mpr ⟨hlevels, rfl⟩

end NodeTree

end AddressPlan
