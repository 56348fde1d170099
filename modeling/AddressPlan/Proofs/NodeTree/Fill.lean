import AddressPlan.NodeTree.Fill
import AddressPlan.Proofs.Network.TopBits
import AddressPlan.Proofs.NodeTree.Relabel
import AddressPlan.Proofs.NodeTree.Widest

/-!
# Blocks of a numbered tree

If a tree can be numbered then every place gets one block.  The block of the root has no host
bits, and the block of a child is the segment of its parent's block whose number is the
child's position.  So two nodes apart from each other share addresses exactly if two siblings
above them do, and that is a matter of their positions and of the widths of their segments.
-/

namespace AddressPlan

/-- A width that is a word of 8 bits is that of the segment. -/
theorem Node.segmentWidth_eq {n : Node} (hwidth : 0 ≤ n.bitWidth) (hword : n.bitWidth < 256) :
    n.segmentWidth = n.bitWidth.toNat :=
  Word.wrap_eq hwidth hword

/-- A small word of 32 bits is that of 8 bits. -/
theorem Node.segmentWidth_eq_wrap {n : Node} (h : Word.wrap 32 n.bitWidth < 256) :
    n.segmentWidth = Word.wrap 32 n.bitWidth := by
  rw [Node.segmentWidth, ← Word.wrap_wrap (show 8 ≤ 32 by decide),
    Word.wrap_eq (by omega) (by omega), Int.toNat_natCast]

namespace NodeTree

open Network

/-- Two siblings of different widths get blocks one inside the other: the number of the
later and wider one starts with the bits of the earlier one's number. -/
def SiblingsClash (t : NodeTree) : Prop :=
  ∃ p i j c d, (t.children p)[i]? = some c ∧ (t.children p)[j]? = some d ∧ i < j ∧
    c.node.segmentWidth < d.node.segmentWidth ∧
    (j + 1) / 2 ^ (d.node.segmentWidth - c.node.segmentWidth) = i + 1

variable {t t' : NodeTree} {window own : BitWindow} {n base : Network} {parent : Node}
  {siblings position maskLength : Nat} {p c : Placed} {a : Allocation}

theorem largestNumber_eq {width : Nat} (h : width ≤ 64) : largestNumber width = 2 ^ width - 1 := by
  rw [largestNumber, Nat.min_eq_left h]
  rfl

theorem allocateChild_eq (window : BitWindow) (parent : Node) (siblings position : Nat)
    (child : Placed) :
    allocateChild window parent siblings position child =
      if largestNumber child.node.segmentWidth < position then
        .error (.capacity (.siblings parent.name siblings child.node.segmentWidth
          (largestNumber child.node.segmentWidth)))
      else do
        let written ← window.write window.maskLength child.node.segmentWidth position
        let written := written.withMaskLength
          (Word.add 8 window.maskLength child.node.segmentWidth)
        let block ← written.toNetwork
        return (written, ⟨child.place, some position, block⟩) := by
  unfold allocateChild
  simp only [bind, Except.bind, throw, throwThe, MonadExceptOf.throw]

/-- A child that is given a number got it in a field of the window, right behind the prefix. -/
theorem exists_write_of_allocateChild
    (h : allocateChild window parent siblings position c = .ok (own, a)) :
    position ≤ largestNumber c.node.segmentWidth ∧ ∃ written,
      window.write window.maskLength c.node.segmentWidth position = .ok written ∧
      own = written.withMaskLength (window.maskLength + c.node.segmentWidth) ∧
      own.toNetwork = .ok a.block ∧ a.place = c.place := by
  rw [allocateChild_eq] at h
  split at h
  · cases h
  · rename_i hfits
    obtain ⟨written, hwrite, h⟩ := bind_eq_ok_iff.mp h
    obtain ⟨block, hblock, h⟩ := bind_eq_ok_iff.mp h
    have hroom := (BitWindow.write_eq_ok hwrite).1
    have hwindow := window.family.windowBits_le
    rw [Word.add_eq (by omega)] at h hblock
    cases h
    exact ⟨Nat.le_of_not_lt hfits, written, hwrite, rfl, hblock, rfl⟩

theorem allocateChild_eq_ok (hw : window.Shows n)
    (h : allocateChild window parent siblings position c = .ok (own, a)) :
    own.Shows a.block ∧ a.place = c.place ∧
      Segment n position c.node.segmentWidth a.block := by
  obtain ⟨-, written, hwrite, rfl, hblock, hplace⟩ := exists_write_of_allocateChild h
  obtain ⟨hshows, hsegment⟩ := hw.write hwrite hblock
  exact ⟨hshows, hplace, hsegment⟩

/-- The allocations `as` below a block: one for every place of the list, and the children of
each get segments of its block. -/
structure Allotted (t : NodeTree) (places : List Placed) (as : List Allocation) : Prop where
  places_eq : as.map Allocation.place = places.map Placed.place
  segment : ∀ a ∈ as, ∀ k c, (t.children a.place)[k]? = some c →
    ∃ b ∈ as, b.place = c.place ∧ Segment a.block (k + 1) c.node.segmentWidth b.block

namespace Allotted

variable {as bs : List Allocation} {ps qs : List Placed}

theorem nil : t.Allotted [] [] where
  places_eq := rfl
  segment := fun _ ha ↦ absurd ha List.not_mem_nil

theorem append (h : t.Allotted ps as) (h' : t.Allotted qs bs) :
    t.Allotted (ps ++ qs) (as ++ bs) where
  places_eq := by rw [List.map_append, List.map_append, h.places_eq, h'.places_eq]
  segment := by
    intro a ha k c hc
    rcases List.mem_append.mp ha with ha | ha
    · obtain ⟨b, hb, hrest⟩ := h.segment a ha k c hc
      exact ⟨b, List.mem_append_left _ hb, hrest⟩
    · obtain ⟨b, hb, hrest⟩ := h'.segment a ha k c hc
      exact ⟨b, List.mem_append_right _ hb, hrest⟩

/-- The allocation of a place in front of those of its children, which get segments of it. -/
theorem cons (h : t.Allotted ((t.children p.place).flatMap fun c ↦ (t.branch c).preorder) as)
    (hplace : a.place = p.place)
    (hchildren : ∀ k c, (t.children p.place)[k]? = some c → ∃ b ∈ as, b.place = c.place ∧
      Segment a.block (1 + k) c.node.segmentWidth b.block) :
    t.Allotted (t.branch p).preorder (a :: as) where
  places_eq := by rw [preorder_branch, List.map_cons, List.map_cons, hplace, h.places_eq]
  segment := by
    intro b hb k c hc
    rcases List.mem_cons.mp hb with rfl | hb
    · rw [hplace] at hc
      obtain ⟨b', hb', hrest⟩ := hchildren k c hc
      rw [Nat.add_comm] at hrest
      exact ⟨b', List.mem_cons_of_mem _ hb', hrest⟩
    · obtain ⟨b', hb', hrest⟩ := h.segment b hb k c hc
      exact ⟨b', List.mem_cons_of_mem _ hb', hrest⟩

end Allotted

theorem allotted_siblings {cs : List Placed}
    (ih : ∀ c ∈ cs, ∀ position as, window.Shows n →
      allocateBranch window parent siblings position (t.branch c) = as.map .ok →
      t.Allotted (t.branch c).preorder as ∧
        ∃ b ∈ as, b.place = c.place ∧ Segment n position c.node.segmentWidth b.block)
    {as : List Allocation} (hw : window.Shows n)
    (h : allocateFrom window parent siblings position (cs.map t.branch) = as.map .ok) :
    t.Allotted (cs.flatMap fun c ↦ (t.branch c).preorder) as ∧
      ∀ k c, cs[k]? = some c → ∃ b ∈ as, b.place = c.place ∧
        Segment n (position + k) c.node.segmentWidth b.block := by
  induction cs generalizing position as with
  | nil =>
    obtain rfl : as = [] := List.map_eq_nil_iff.mp h.symm
    exact ⟨.nil, fun k c hc ↦ by cases hc⟩
  | cons d cs ihcs =>
    rw [List.map_cons, allocateFrom] at h
    obtain ⟨as₁, as₂, rfl, h₁, h₂⟩ := List.map_eq_append_iff.mp h.symm
    obtain ⟨hallotted₁, b₁, hb₁, hrest₁⟩ := ih d List.mem_cons_self position as₁ hw h₁.symm
    obtain ⟨hallotted₂, hcs⟩ := ihcs (fun c hc ↦ ih c (List.mem_cons_of_mem d hc)) h₂.symm
    refine ⟨hallotted₁.append hallotted₂, fun k c hc ↦ ?_⟩
    cases k with
    | zero =>
      cases hc
      exact ⟨b₁, List.mem_append_left _ hb₁, hrest₁⟩
    | succ k =>
      obtain ⟨b, hb, hplace, hsegment⟩ := hcs k c hc
      refine ⟨b, List.mem_append_right _ hb, hplace, ?_⟩
      rwa [show position + (k + 1) = position + 1 + k by omega]

theorem allotted_branch (p : Placed) : ∀ {window n parent siblings position as},
    window.Shows n →
    allocateBranch window parent siblings position (t.branch p) = as.map .ok →
    t.Allotted (t.branch p).preorder as ∧
      ∃ b ∈ as, b.place = p.place ∧ Segment n position p.node.segmentWidth b.block := by
  induction p using branch_induction t with
  | h p ih =>
    intro window n parent siblings position as hw h
    rw [branch_eq, allocateBranch] at h
    split at h
    · obtain ⟨_, _, -, heq, -⟩ := List.map_eq_cons_iff.mp h.symm
      cases heq
    · rename_i own a hchild
      obtain ⟨hown, hplace, hsegment⟩ := allocateChild_eq_ok hw hchild
      obtain ⟨_, as, rfl, heq, hrest⟩ := List.map_eq_cons_iff.mp h.symm
      cases heq
      obtain ⟨hallotted, hchildren⟩ :=
        allotted_siblings (fun c hc _ _ hw' ↦ ih c hc hw') hown hrest.symm
      exact ⟨hallotted.cons hplace hchildren, a, List.mem_cons_self, hplace, hsegment⟩

/-! ## The root -/

theorem committedWidth_eq_ok {total : Nat} {ts : List (Rose Placed)}
    (hroot : t.branch? = some (.node p ts)) (h : t.committedWidth = .ok total) :
    0 ≤ p.node.bitWidth ∧ ∃ deepest, widthBelow ts = .ok deepest ∧
      total = Word.add 32 (Word.wrap 32 p.node.bitWidth) deepest := by
  unfold committedWidth at h
  rw [hroot] at h
  dsimp only at h
  split at h
  · cases h
  · obtain ⟨deepest, hdeepest, h⟩ := bind_eq_ok_iff.mp h
    cases h
    exact ⟨by omega, deepest, hdeepest, rfl⟩

theorem ofNetwork_eq_ok (h : BitWindow.ofNetwork base maskLength = .ok window) :
    window.family = base.family ∧ maskLength ≤ base.family.windowBits ∧
      base.length ≤ base.family.windowBits ∧
      2 ^ (base.family.windowBits - base.length) ∣ window.bits := by
  obtain ⟨⟨hmask, hlength⟩, rfl⟩ := BitWindow.ofNetwork_eq_ok_iff.mp h
  have hlimits := base.family.maskLimit_le_windowBits
  have hbits := base.family.windowBits_le_addressBits
  refine ⟨rfl, by omega, by omega, base.address / base.size, ?_⟩
  have hsize : base.size = 2 ^ (base.family.windowBits - base.length) *
      2 ^ (base.family.addressBits - base.family.windowBits) := by
    change 2 ^ (base.family.addressBits - base.length) = _
    rw [← Nat.pow_add]
    congr 1
    omega
  change (base.address / base.size * base.size) >>> _ = _
  rw [Nat.shiftRight_eq_div_pow]
  nth_rewrite 2 [hsize]
  rw [← Nat.mul_assoc, Nat.mul_div_cancel _ (Nat.two_pow_pos _), Nat.mul_comm]

theorem rootWindow_eq (t : NodeTree) (root : Node) (base : Network) (maskLength : Nat) :
    t.rootWindow root base maskLength = do
      let total ← t.committedWidth
      if maskLength < base.length then .error (.capacity (.baseTooDeep base maskLength))
      else if maskLength - base.length < total then
        .error (.capacity (.layoutBits total base (maskLength - base.length) maskLength))
      else do
        let window ← BitWindow.ofNetwork base maskLength
        return window.withMaskLength (Word.add 8
          (Word.add 8 base.length (maskLength - base.length - Word.wrap 8 total))
          root.segmentWidth) := by
  unfold rootWindow
  cases t.committedWidth with
  | error e => rfl
  | ok total =>
    simp only [bind, Except.bind, throw, throwThe, MonadExceptOf.throw]

/-- The window of the root is that of the base, and ends the root's width behind the gap. -/
theorem rootWindow_eq_ok_iff {root : Node} : t.rootWindow root base maskLength = .ok window ↔
    ∃ total whole, t.committedWidth = .ok total ∧
      BitWindow.ofNetwork base maskLength = .ok whole ∧ base.length + total ≤ maskLength ∧
      window = whole.withMaskLength (Word.add 8 (maskLength - total) root.segmentWidth) := by
  have hwindow := base.family.windowBits_le
  have hend : ∀ {total whole}, BitWindow.ofNetwork base maskLength = .ok whole →
      base.length + total ≤ maskLength →
      Word.add 8 base.length (maskLength - base.length - Word.wrap 8 total) =
        maskLength - total := by
    intro total whole hwhole hroom
    have hmask := (ofNetwork_eq_ok hwhole).2.1
    rw [Word.wrap_eq (by omega) (by omega), Int.toNat_natCast, Word.add_eq (by omega)]
    omega
  rw [rootWindow_eq]
  constructor
  · intro h
    obtain ⟨total, htotal, h⟩ := bind_eq_ok_iff.mp h
    split at h
    · cases h
    · split at h
      · cases h
      · obtain ⟨whole, hwhole, h⟩ := bind_eq_ok_iff.mp h
        cases h
        have hroom : base.length + total ≤ maskLength := by omega
        exact ⟨total, whole, htotal, hwhole, hroom, by rw [hend hwhole hroom]⟩
  · rintro ⟨total, whole, htotal, hwhole, hroom, rfl⟩
    refine bind_eq_ok_iff.mpr ⟨total, htotal, ?_⟩
    rw [if_neg (by omega), if_neg (by omega)]
    refine bind_eq_ok_iff.mpr ⟨whole, hwhole, ?_⟩
    rw [hend hwhole hroom]
    rfl

/-- If no sum wraps around then the window of the root ends where the deepest path starts. -/
theorem Rooted.rootWindow_eq_ok (ht : t.Rooted) (hsums : t.SumsFit) {root : Node}
    (hroot : t.node? 0 = some root) (h : t.rootWindow root base maskLength = .ok window) :
    0 ≤ root.bitWidth ∧ ∃ deepest whole,
      widthBelow ((t.children 0).map t.branch) = .ok deepest ∧
      BitWindow.ofNetwork base maskLength = .ok whole ∧
      base.length + root.bitWidth.toNat + deepest ≤ maskLength ∧
      window = whole.withMaskLength (maskLength - deepest) := by
  obtain ⟨total, whole, htotal, hwhole, hroom, rfl⟩ := rootWindow_eq_ok_iff.mp h
  obtain ⟨hnonneg, deepest, hdeepest, rfl⟩ := committedWidth_eq_ok (branch?_of_root hroot) htotal
  have hsum : Word.add 32 (Word.wrap 32 root.bitWidth) deepest = root.bitWidth.toNat + deepest :=
    ht.width_add_below (p := ⟨0, root⟩) hsums hroot (.top hroot ht.top) hnonneg le_rfl hdeepest
  dsimp only at hnonneg hdeepest hroom ⊢
  rw [hsum] at hroom ⊢
  have hmask := (ofNetwork_eq_ok hwhole).2.1
  have hwindow := base.family.windowBits_le
  refine ⟨hnonneg, deepest, whole, hdeepest, hwhole, by omega, ?_⟩
  rw [Node.segmentWidth_eq hnonneg (by omega), Word.add_eq (by omega)]
  congr 1
  omega

/-- A window with room for the segment of a first child ends behind the bits that were claimed in
front. -/
theorem bounds_of_allocateFrom {c : Placed} {us ts : List (Rose Placed)} {length : Nat}
    (hclaimed : window.claimed = BitWindow.fieldMask window.family.windowBits 0 length)
    (hlength : length ≤ window.family.windowBits) (hpos : 0 < position) {as : List Allocation}
    (h : allocateFrom window parent siblings position (.node c us :: ts) = as.map .ok) :
    length ≤ window.maskLength ∧ window.maskLength ≤ window.family.windowBits := by
  rw [allocateFrom, allocateBranch] at h
  split at h
  · obtain ⟨_, _, -, heq, -⟩ := List.map_eq_cons_iff.mp h.symm
    cases heq
  · rename_i own a hchild
    obtain ⟨hfits, written, hwrite, -⟩ := exists_write_of_allocateChild hchild
    obtain ⟨⟨hends, -, hfree⟩, -⟩ := BitWindow.write_eq_ok_iff.mp hwrite
    have hwidth : 0 < c.node.segmentWidth := by
      by_contra hzero
      rw [Nat.eq_zero_of_not_pos hzero] at hfits
      exact absurd (Nat.lt_of_lt_of_le hpos hfits) (by decide)
    rw [hclaimed] at hfree
    exact ⟨BitWindow.le_offset_of_and_eq_zero hlength hends hwidth hfree, by omega⟩

/-- Where the branches below the root get their blocks, the window of the root ends in the window
of the base and behind the base: a root without branches ends at the deepest length, and the
segment of a first child is not one of the bits of the base. -/
theorem rootWindow_bounds {ts : List (Rose Placed)} (hroot : t.branch? = some (.node p ts))
    (h : t.rootWindow p.node base maskLength = .ok window) {as : List Allocation}
    (hbelow : allocateFrom window p.node ts.length 1 ts = as.map .ok) :
    base.length ≤ window.maskLength ∧ window.maskLength ≤ base.family.windowBits := by
  obtain ⟨total, whole, htotal, hwhole, hroom, rfl⟩ := rootWindow_eq_ok_iff.mp h
  obtain ⟨-, hmask, hbase, -⟩ := ofNetwork_eq_ok hwhole
  have hwindow := base.family.windowBits_le
  cases ts with
  | nil =>
    obtain ⟨-, deepest, hdeepest, rfl⟩ := committedWidth_eq_ok hroot htotal
    cases hdeepest
    have hsum : Word.add 32 (Word.wrap 32 p.node.bitWidth) 0 = Word.wrap 32 p.node.bitWidth :=
      Word.add_eq (Word.wrap_lt 32 _)
    rw [hsum] at hroom ⊢
    rw [BitWindow.withMaskLength_maskLength, Node.segmentWidth_eq_wrap (by omega),
      Word.add_eq (by omega)]
    omega
  | cons b ts =>
    cases b with
    | node c us =>
      obtain ⟨-, rfl⟩ := BitWindow.ofNetwork_eq_ok_iff.mp hwhole
      exact bounds_of_allocateFrom rfl hbase Nat.one_pos hbelow

/-- The window of the root shows a block that starts with the bits of the base and then
zeros. -/
theorem shows_rootWindow {ts : List (Rose Placed)} (hroot : t.branch? = some (.node p ts))
    (h : t.rootWindow p.node base maskLength = .ok window)
    (hblock : window.toNetwork = .ok n) {as : List Allocation}
    (hbelow : allocateFrom window p.node ts.length 1 ts = as.map .ok) : window.Shows n := by
  obtain ⟨hbase, hends⟩ := rootWindow_bounds hroot h hbelow
  obtain ⟨total, whole, -, hwhole, -, rfl⟩ := rootWindow_eq_ok_iff.mp h
  obtain ⟨hfamily, -, -, hbits⟩ := ofNetwork_eq_ok hwhole
  refine ⟨hblock, ?_, Nat.dvd_trans (Nat.pow_dvd_pow 2 ?_) hbits⟩
  · rwa [BitWindow.withMaskLength_family, hfamily]
  · rw [BitWindow.withMaskLength_family, hfamily]
    omega

theorem allocations_eq_cons {as : List Allocation} {ts : List (Rose Placed)}
    (hroot : t.branch? = some (.node p ts)) (h : t.allocations base maskLength = as.map .ok) :
    ∃ window block rest, t.rootWindow p.node base maskLength = .ok window ∧
      window.toNetwork = .ok block ∧ as = ⟨0, none, block⟩ :: rest ∧
      allocateFrom window p.node ts.length 1 ts = rest.map .ok := by
  unfold allocations at h
  rw [hroot] at h
  dsimp only at h
  split at h
  · obtain ⟨_, _, -, heq, -⟩ := List.map_eq_cons_iff.mp h.symm
    cases heq
  · rename_i window hwindow
    split at h
    · obtain ⟨_, _, -, heq, -⟩ := List.map_eq_cons_iff.mp h.symm
      cases heq
    · rename_i block hblock
      obtain ⟨_, rest, rfl, heq, hrest⟩ := List.map_eq_cons_iff.mp h.symm
      cases heq
      exact ⟨window, block, rest, hwindow, hblock, rfl, hrest.symm⟩

theorem allocations_eq_ok {as : List Allocation} (hroot : t.branch? = some (t.branch p))
    (hplace : p.place = 0) (h : t.allocations base maskLength = as.map .ok) :
    t.Allotted (t.branch p).preorder as ∧ ∃ a ∈ as, a.place = 0 ∧ a.block.Aligned := by
  rw [branch_eq] at hroot
  obtain ⟨window, block, rest, hwindow, hblock, rfl, hrest⟩ := allocations_eq_cons hroot h
  have hshows := shows_rootWindow hroot hwindow hblock hrest
  obtain ⟨hallotted, hchildren⟩ :=
    allotted_siblings (fun c _ _ _ hw ↦ allotted_branch c hw) hshows hrest
  exact ⟨hallotted.cons hplace.symm hchildren, _, List.mem_cons_self, rfl,
    hshows.network_aligned⟩

/-! ## Writing the allocations -/

theorem assignAll_eq_ok {results : List (Except PlanError Allocation)}
    (h : assignAll results t = (.ok (), t')) :
    ∃ as : List Allocation, results = as.map .ok ∧ t' = as.foldl assign t := by
  induction results generalizing t with
  | nil =>
    cases h
    exact ⟨[], rfl, rfl⟩
  | cons result results ih =>
    cases result with
    | error e => cases h
    | ok a =>
      obtain ⟨as, rfl, rfl⟩ := ih h
      exact ⟨a :: as, rfl, rfl⟩

theorem node?_assign_of_ne {i : Nat} (h : a.place ≠ i) : (t.assign a).node? i = t.node? i := by
  rw [assign, node?_update, if_neg h]

theorem node?_foldl_assign_of_not_mem {i : Nat} (as : List Allocation)
    (h : i ∉ as.map Allocation.place) : (as.foldl assign t).node? i = t.node? i := by
  induction as generalizing t with
  | nil => rfl
  | cons a as ih =>
    rw [List.map_cons, List.mem_cons, not_or] at h
    rw [List.foldl_cons, ih h.2, node?_assign_of_ne (Ne.symm h.1)]

theorem cidr_foldl_assign {as : List Allocation} (hnodup : (as.map Allocation.place).Nodup)
    (ha : a ∈ as) {m : Node} (hm : (as.foldl assign t).node? a.place = some m) :
    m.cidr = a.block.text := by
  induction as generalizing t with
  | nil => cases ha
  | cons b as ih =>
    rw [List.map_cons, List.nodup_cons] at hnodup
    rw [List.foldl_cons] at hm
    rcases List.mem_cons.mp ha with rfl | ha
    · rw [node?_foldl_assign_of_not_mem as hnodup.1, assign, node?_update, if_pos rfl,
        Option.map_eq_some_iff] at hm
      obtain ⟨n, -, rfl⟩ := hm
      rfl
    · exact ih hnodup.2 ha hm

/-- The outcome of numbering: `as` has one allocation for every place, the root's has no host
bits, children get segments of their parent's block, and each block is written as text. -/
structure Numbered (t t' : NodeTree) (as : List Allocation) : Prop where
  nodup : (as.map Allocation.place).Nodup
  mem_place : ∀ i, i < t.size ↔ ∃ a ∈ as, a.place = i
  root : ∀ a ∈ as, a.place = 0 → a.block.Aligned
  segment : ∀ a ∈ as, ∀ k c, (t.children a.place)[k]? = some c →
    ∃ b ∈ as, b.place = c.place ∧ Segment a.block (k + 1) c.node.segmentWidth b.block
  cidr : ∀ a ∈ as, ∀ m, t'.node? a.place = some m → m.cidr = a.block.text

theorem Numbered.of_empty (hroot : t.root? = none) : t.Numbered t' [] where
  nodup := List.nodup_nil
  mem_place := by
    refine fun i ↦ iff_of_false (fun hi ↦ ?_) fun ⟨a, ha, _⟩ ↦ absurd ha List.not_mem_nil
    obtain ⟨n, hn⟩ := lt_size_iff.mp (Nat.zero_lt_of_lt hi)
    rw [root?_eq_node?, hn] at hroot
    cases hroot
  root := fun _ ha ↦ absurd ha List.not_mem_nil
  segment := fun _ ha ↦ absurd ha List.not_mem_nil
  cidr := fun _ ha ↦ absurd ha List.not_mem_nil

/-- The branch at the root has every place. -/
theorem Allotted.lt_size_iff {as : List Allocation} (h : t.Allotted (t.branch p).preorder as)
    (ht : t.Rooted) (hp : t.Holds p) (hzero : p.place = 0) {i : Nat} :
    i < t.size ↔ ∃ a ∈ as, a.place = i := by
  have hmem : (∃ a ∈ as, a.place = i) ↔ ∃ x ∈ (t.branch p).preorder, x.place = i := by
    rw [← List.mem_map, h.places_eq, List.mem_map]
  rw [hmem]
  constructor
  · intro hi
    obtain ⟨n, hn⟩ := NodeTree.lt_size_iff.mp hi
    exact ⟨⟨i, n⟩, (ht.mem_preorder hp).mpr ⟨hn, hzero ▸ ht.under_zero hi⟩, rfl⟩
  · rintro ⟨x, hx, rfl⟩
    exact NodeTree.lt_size_iff.mpr ⟨x.node, ((ht.mem_preorder hp).mp hx).1⟩

theorem fill_eq_ok (ht : t.Rooted) (h : t.fill base maskLength = (.ok (), t')) :
    ∃ as : List Allocation, t.allocations base maskLength = as.map .ok ∧ t.Numbered t' as := by
  obtain ⟨as, has, rfl⟩ := assignAll_eq_ok h
  refine ⟨as, has, ?_⟩
  cases hroot : t.root? with
  | none =>
    have hnil : as = [] := by
      unfold allocations branch? at has
      rw [hroot] at has
      exact List.map_eq_nil_iff.mp has.symm
    exact hnil ▸ .of_empty hroot
  | some root =>
    have hbranch : t.branch? = some (t.branch ⟨0, root⟩) := by
      rw [branch?, hroot]
      rfl
    have hholds : t.Holds ⟨0, root⟩ := (root?_eq_node? t).symm.trans hroot
    obtain ⟨hallotted, a, ha, hplace, haligned⟩ := allocations_eq_ok hbranch rfl has
    have hnodup : (as.map Allocation.place).Nodup := by
      rw [hallotted.places_eq]
      exact ht.preorder_nodup hholds
    have hroot : ∀ b ∈ as, b.place = 0 → b.block.Aligned := by
      intro b hb hbplace
      rw [List.inj_on_of_nodup_map hnodup hb ha (hbplace.trans hplace.symm)]
      exact haligned
    exact ⟨hnodup, fun i ↦ hallotted.lt_size_iff ht hholds rfl, hroot, hallotted.segment,
      fun b hb m hm ↦ cidr_foldl_assign hnodup hb hm⟩

theorem lt_size_of_fill (h : t.fill base maskLength = (.ok (), t')) {i : Nat} {m : Node}
    (hm : t'.node? i = some m) : i < t.size :=
  (relabelled_of_fill h).sameShape.size_eq ▸ lt_size_iff.mpr ⟨m, hm⟩

/-- A tree that was numbered without a sum that wraps around has room for its widest path. -/
theorem Rooted.room_of_fill (ht : t.Rooted) (hsums : t.SumsFit) {root : Node}
    (hroot : t.node? 0 = some root) (h : t.fill base maskLength = (.ok (), t')) :
    0 ≤ root.bitWidth ∧ t.SizedBelow 0 ∧ maskLength ≤ base.family.maskLimit ∧
      ∃ total, IsGreatest t.leafSums total ∧ base.length + total ≤ maskLength := by
  obtain ⟨as, has, -⟩ := assignAll_eq_ok h
  obtain ⟨window, -, -, hwindow, -⟩ := allocations_eq_cons (branch?_of_root hroot) has
  obtain ⟨hnonneg, deepest, whole, hdeepest, hwhole, hroom, -⟩ :=
    ht.rootWindow_eq_ok hsums hroot hwindow
  exact ⟨hnonneg, (ht.exists_widthBelow_iff (p := ⟨0, root⟩)).mp ⟨deepest, hdeepest⟩,
    (BitWindow.ofNetwork_eq_ok_iff.mp hwhole).1.1, _,
    (ht.isGreatest_leafSums hsums hroot hnonneg hdeepest).1, by omega⟩

/-- In such a tree every segment is as wide as its node. -/
theorem Rooted.segmentWidth_of_fill (ht : t.Rooted) (hsums : t.SumsFit)
    (h : t.fill base maskLength = (.ok (), t')) {i : Nat} {m : Node}
    (hm : t.node? i = some m) : m.segmentWidth = m.bitWidth.toNat := by
  have hi := lt_size_iff.mpr ⟨m, hm⟩
  obtain ⟨root, hroot⟩ := lt_size_iff.mp (Nat.zero_lt_of_lt hi)
  obtain ⟨hnonneg, hsized, hmask, total, htotal, hroom⟩ := ht.room_of_fill hsums hroot h
  have hwidths := ht.widths_nonneg hroot hnonneg hsized
  obtain ⟨s, hs⟩ := ht.exists_pathSum hi
  have hle := ht.pathSum_le hwidths htotal hs
  have hwidth := hs.width_le hwidths hm
  have hlimit := base.family.maskLimit_le
  exact Node.segmentWidth_eq (hwidths i m hm) (by omega)

theorem Numbered.segment_of_fill {as : List Allocation} (h : t.Numbered t' as) (ht : t.Rooted)
    (hsums : t.SumsFit) (hfill : t.fill base maskLength = (.ok (), t')) (ha : a ∈ as) {k : Nat}
    (hc : (t.children a.place)[k]? = some c) : ∃ b ∈ as, b.place = c.place ∧
      Segment a.block (k + 1) c.node.bitWidth.toNat b.block := by
  rw [← ht.segmentWidth_of_fill hsums hfill (ht.mem_children.mp (List.mem_of_getElem? hc)).1]
  exact h.segment a ha k c hc

/-! ## Where blocks overlap -/

namespace Numbered

variable {as : List Allocation} {b : Allocation}

theorem eq_of_place_eq (h : t.Numbered t' as) (ha : a ∈ as) (hb : b ∈ as)
    (hplace : a.place = b.place) : a = b :=
  List.inj_on_of_nodup_map h.nodup ha hb hplace

theorem exists_parent (h : t.Numbered t' as) (ht : t.Rooted) (hb : b ∈ as) {q : Nat}
    (hparent : t.parent? b.place = some q) :
    ∃ a ∈ as, a.place = q ∧ ∃ k c, (t.children q)[k]? = some c ∧ c.place = b.place ∧
      Segment a.block (k + 1) c.node.segmentWidth b.block := by
  obtain ⟨n, hn⟩ := lt_size_iff.mp (lt_size_of_parent? hparent)
  have hchild : ⟨b.place, n⟩ ∈ t.children q := ht.mem_children.mpr ⟨hn, hparent⟩
  obtain ⟨k, hk⟩ := List.mem_iff_getElem?.mp hchild
  obtain ⟨a, ha, rfl⟩ := (h.mem_place q).mp (lt_size_iff.mpr (ht.exists_parent_node hparent))
  obtain ⟨b', hb', hplace, hsegment⟩ := h.segment a ha k _ hk
  obtain rfl := h.eq_of_place_eq hb' hb hplace
  exact ⟨a, ha, rfl, k, _, hk, rfl, hsegment⟩

theorem aligned (h : t.Numbered t' as) (ht : t.Rooted) (hb : b ∈ as) : b.block.Aligned := by
  obtain ⟨i, hi⟩ : ∃ i, b.place = i := ⟨_, rfl⟩
  induction i using Nat.strongRecOn generalizing b with
  | _ i ih =>
    rcases Nat.eq_zero_or_pos i with rfl | hpos
    · exact h.root b hb hi
    · obtain ⟨q, hlt, hq⟩ := ht.parent i hpos (hi ▸ (h.mem_place b.place).mpr ⟨b, hb, rfl⟩)
      obtain ⟨a, ha, hplace, k, c, -, -, hsegment⟩ := h.exists_parent ht hb (hi ▸ hq)
      exact hsegment.aligned (ih q hlt ha hplace)

theorem covers_of_under (h : t.Numbered t' as) (ht : t.Rooted) (ha : a ∈ as) (hb : b ∈ as)
    (hunder : t.Under b.place a.place) :
    b.block.family = a.block.family ∧ ∀ x, b.block.Covers x → a.block.Covers x := by
  obtain ⟨i, hi⟩ : ∃ i, b.place = i := ⟨_, rfl⟩
  rw [hi] at hunder
  induction hunder using Relation.ReflTransGen.head_induction_on generalizing b with
  | refl =>
    rw [h.eq_of_place_eq hb ha hi]
    exact ⟨rfl, fun _ hx ↦ hx⟩
  | head hparent _ ih =>
    obtain ⟨p, hp, hplace, k, c, -, -, hsegment⟩ := h.exists_parent ht hb (hi ▸ hparent)
    obtain ⟨hfamily, hcovers⟩ := ih hp hplace
    exact ⟨hsegment.family.trans hfamily,
      fun x hx ↦ hcovers x (hsegment.covers_parent (h.aligned ht hp) hx)⟩

theorem disjoint_siblings_iff (h : t.Numbered t' as) (ht : t.Rooted) {q i j : Nat}
    {c d : Placed} (hc : (t.children q)[i]? = some c) (hd : (t.children q)[j]? = some d)
    (hlt : i < j) (ha : a ∈ as) (hb : b ∈ as) (hac : a.place = c.place)
    (hbd : b.place = d.place) :
    a.block.Disjoint b.block ↔ ¬ (c.node.segmentWidth < d.node.segmentWidth ∧
      (j + 1) / 2 ^ (d.node.segmentWidth - c.node.segmentWidth) = i + 1) := by
  have hparent := (ht.mem_children.mp (List.mem_of_getElem? hc)).2
  obtain ⟨parent, hp, rfl⟩ := (h.mem_place q).mp (lt_size_iff.mpr (ht.exists_parent_node hparent))
  obtain ⟨a', ha', hplace, hsegment⟩ := h.segment parent hp i c hc
  obtain rfl := h.eq_of_place_eq ha' ha (hplace.trans hac.symm)
  obtain ⟨b', hb', hplace', hsegment'⟩ := h.segment parent hp j d hd
  obtain rfl := h.eq_of_place_eq hb' hb (hplace'.trans hbd.symm)
  exact disjoint_segments_iff (h.aligned ht hp) hsegment hsegment' (by omega)

/-- Without a clash of siblings, nodes apart from each other have disjoint blocks. -/
theorem disjoint_of_apart (h : t.Numbered t' as) (ht : t.Rooted) (hclash : ¬ t.SiblingsClash)
    (ha : a ∈ as) (hb : b ∈ as) (hab : ¬ t.Under a.place b.place)
    (hba : ¬ t.Under b.place a.place) : a.block.Disjoint b.block := by
  have hsize : ∀ {x}, x ∈ as → x.place < t.size := fun hx ↦ (h.mem_place _).mpr ⟨_, hx, rfl⟩
  obtain ⟨q, i, j, hiq, hjq, hne, hai, hbj⟩ := ht.exists_siblings (hsize ha) (hsize hb) hab hba
  obtain ⟨c, hc, rfl⟩ := (h.mem_place i).mp (lt_size_of_parent? hiq)
  obtain ⟨d, hd, rfl⟩ := (h.mem_place j).mp (lt_size_of_parent? hjq)
  obtain ⟨-, -, -, k, c', hk, hcplace, -⟩ := h.exists_parent ht hc hiq
  obtain ⟨-, -, -, l, d', hl, hdplace, -⟩ := h.exists_parent ht hd hjq
  have hcd : c.block.Disjoint d.block := by
    rcases Nat.lt_trichotomy k l with hlt | rfl | hlt
    · apply (h.disjoint_siblings_iff ht hk hl hlt hc hd hcplace.symm hdplace.symm).mpr
      rintro ⟨hwidth, hnumber⟩
      exact hclash ⟨q, k, l, c', d', hk, hl, hlt, hwidth, hnumber⟩
    · cases hk.symm.trans hl
      exact absurd (hcplace.symm.trans hdplace) hne
    · refine ((h.disjoint_siblings_iff ht hl hk hlt hd hc hdplace.symm hcplace.symm).mpr ?_).symm
      rintro ⟨hwidth, hnumber⟩
      exact hclash ⟨q, l, k, d', c', hl, hk, hlt, hwidth, hnumber⟩
  obtain ⟨hfa, hca⟩ := h.covers_of_under ht hc ha hai
  obtain ⟨hfb, hcb⟩ := h.covers_of_under ht hd hb hbj
  intro hfamily x hxa hxb
  apply hcd (hfa.symm.trans (hfamily.trans hfb)) x
  · exact hca x hxa
  · exact hcb x hxb

/-- Two siblings that clash are apart from each other and share addresses. -/
theorem exists_overlap (h : t.Numbered t' as) (ht : t.Rooted) (hclash : t.SiblingsClash) :
    ∃ a ∈ as, ∃ b ∈ as, ¬ t.Under a.place b.place ∧ ¬ t.Under b.place a.place ∧
      ¬ a.block.Disjoint b.block := by
  obtain ⟨q, i, j, c, d, hc, hd, hlt, hwidth, hnumber⟩ := hclash
  obtain ⟨hcholds, hcparent⟩ := ht.mem_children.mp (List.mem_of_getElem? hc)
  obtain ⟨hdholds, hdparent⟩ := ht.mem_children.mp (List.mem_of_getElem? hd)
  obtain ⟨a, ha, hac⟩ := (h.mem_place c.place).mp (lt_size_iff.mpr ⟨_, hcholds⟩)
  obtain ⟨b, hb, hbd⟩ := (h.mem_place d.place).mp (lt_size_iff.mpr ⟨_, hdholds⟩)
  have hne : c.place ≠ d.place := by
    obtain ⟨hi, rfl⟩ := List.getElem?_eq_some_iff.mp hc
    obtain ⟨hj, rfl⟩ := List.getElem?_eq_some_iff.mp hd
    exact Nat.ne_of_lt (List.pairwise_iff_getElem.mp (children_pairwise t q) i j hi hj hlt)
  refine ⟨a, ha, b, hb, fun hunder ↦ ?_, fun hunder ↦ ?_, fun hdisjoint ↦ ?_⟩
  · rw [hac, hbd] at hunder
    exact hne (ht.siblings_apart hcparent hdparent (Under.refl _) hunder)
  · rw [hac, hbd] at hunder
    exact hne (ht.siblings_apart hcparent hdparent hunder (Under.refl _))
  · exact (h.disjoint_siblings_iff ht hc hd hlt ha hb hac hbd).mp hdisjoint ⟨hwidth, hnumber⟩

end Numbered

/-- When a tree can be numbered, every node's text is that of the block allocated to it, and
nodes of which none is above the other have disjoint blocks, if and only if no two siblings
clash. -/
theorem fill_disjoint_iff (ht : t.Rooted) (h : t.fill base maskLength = (.ok (), t')) :
    (∀ i m, t'.node? i = some m → ∃ a, .ok a ∈ t.allocations base maskLength ∧
      a.place = i ∧ m.cidr = a.block.text) ∧
    ((∀ a b, .ok a ∈ t.allocations base maskLength → .ok b ∈ t.allocations base maskLength →
      ¬ t.Under a.place b.place → ¬ t.Under b.place a.place → a.block.Disjoint b.block) ↔
        ¬ t.SiblingsClash) := by
  obtain ⟨as, has, hnumbered⟩ := fill_eq_ok ht h
  have hmem : ∀ a, .ok a ∈ t.allocations base maskLength ↔ a ∈ as := by
    intro a
    rw [has]
    exact List.mem_map_of_injective fun _ _ ↦ Except.ok.inj
  simp only [hmem]
  refine ⟨fun i m hm ↦ ?_, fun hall hclash ↦ ?_, fun hclash a b ha hb hab hba ↦ ?_⟩
  · obtain ⟨a, ha, rfl⟩ := (hnumbered.mem_place i).mp (lt_size_of_fill h hm)
    exact ⟨a, ha, rfl, hnumbered.cidr a ha m hm⟩
  · obtain ⟨a, ha, b, hb, hab, hba, hoverlap⟩ := hnumbered.exists_overlap ht hclash
    exact hoverlap (hall a b ha hb hab hba)
  · exact hnumbered.disjoint_of_apart ht hclash ha hb hab hba

/-! A child of one bit and a sibling of two: number 1 and number 10 in binary. -/

def mixedWidths : NodeTree :=
  build [{ id := 1, name := "root" },
    { id := 2, parentId := 1, name := "a", sequence := 1, bitWidth := 1 },
    { id := 3, parentId := 1, name := "b", sequence := 2, bitWidth := 2 }]

def exampleBase : Network where
  family := .v6
  address := 0x20010db8000000000000000000000000
  length := 48
  address_lt := by decide
  length_le := by decide

theorem fill_disjoint_iff_mixedWidths :
    ∃ t', mixedWidths.fill exampleBase 64 = (.ok (), t') ∧
      (∀ i m, t'.node? i = some m → ∃ a, .ok a ∈ mixedWidths.allocations exampleBase 64 ∧
        a.place = i ∧ m.cidr = a.block.text) ∧
      ((∀ a b, .ok a ∈ mixedWidths.allocations exampleBase 64 →
        .ok b ∈ mixedWidths.allocations exampleBase 64 →
        ¬ mixedWidths.Under a.place b.place → ¬ mixedWidths.Under b.place a.place →
        a.block.Disjoint b.block) ↔ ¬ mixedWidths.SiblingsClash) := by
  obtain ⟨t', h⟩ : ∃ t', mixedWidths.fill exampleBase 64 = (.ok (), t') :=
    ⟨_, Prod.ext (by decide +kernel) rfl⟩
  exact ⟨t', h, fill_disjoint_iff (build_rooted _) h⟩

/-- The two siblings get `2001:db8:0:2::/63` and `2001:db8:0:2::/64`. -/
theorem fill_overlaps_mixedWidths :
    (mixedWidths.fill exampleBase 64).1 = .ok () ∧
      (mixedWidths.fill exampleBase 64).2.flatten.map Node.cidr =
        ["2001:db8::/62", "2001:db8:0:2::/63", "2001:db8:0:2::/64"] ∧
      ∃ a b, .ok a ∈ mixedWidths.allocations exampleBase 64 ∧
        .ok b ∈ mixedWidths.allocations exampleBase 64 ∧
        ¬ mixedWidths.Under a.place b.place ∧ ¬ mixedWidths.Under b.place a.place ∧
        ¬ a.block.Disjoint b.block := by
  have hrooted : mixedWidths.Rooted := build_rooted _
  have hsiblings : mixedWidths.parent? 1 = some 0 ∧ mixedWidths.parent? 2 = some 0 := by
    decide +kernel
  refine ⟨by decide +kernel, by decide +kernel,
    ⟨1, some 1, ⟨.v6, 0x20010db8000000020000000000000000, 63, by decide, by decide⟩⟩,
    ⟨2, some 2, ⟨.v6, 0x20010db8000000020000000000000000, 64, by decide, by decide⟩⟩,
    by decide +kernel, by decide +kernel, fun h ↦ ?_, fun h ↦ ?_, fun h ↦ ?_⟩
  · apply absurd (hrooted.siblings_apart hsiblings.1 hsiblings.2 (Under.refl 1) h)
    decide
  · apply absurd (hrooted.siblings_apart hsiblings.2 hsiblings.1 (Under.refl 2) h)
    decide
  · exact h rfl 0x20010db8000000020000000000000000 (covers_address _) (covers_address _)

end NodeTree

end AddressPlan
