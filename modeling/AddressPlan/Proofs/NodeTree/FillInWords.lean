import AddressPlan.NodeTree.InWords
import AddressPlan.Proofs.Network.WindowInWords
import AddressPlan.Proofs.NodeTree.Numbering

/-!
# Numbering in words

On a tree within its budget no sum leaves its word and no width is cut off when it is narrowed, so
numbering never wraps around.
-/

namespace AddressPlan.NodeTree

open Word BitWindow

variable {t : NodeTree} {base : Network} {window own : BitWindow} {parent root : Node}
  {siblings position maskLength deepest : Nat} {allowed s : Int} {p c : Placed} {a : Allocation}

/-! ## Sums stay in their words -/

theorem agrees_widthBelow_of_forall (cs : List Placed)
    (hcs : ∀ c ∈ cs, Agrees (widthOfInWords (t.branch c)) (widthOf (t.branch c))) :
    Agrees (widthBelowInWords (cs.map t.branch)) (widthBelow (cs.map t.branch)) := by
  induction cs with
  | nil => exact agrees_pure 0
  | cons c cs ih =>
    rw [List.map_cons, widthBelowInWords, widthBelow]
    refine (hcs c List.mem_cons_self).bind fun first _ ↦ ?_
    refine (ih fun d hd ↦ hcs d (List.mem_cons_of_mem c hd)).bind fun others _ ↦ ?_
    exact agrees_pure (max first others)

/-- A width and the widths below it are summed up in a word if the sum is one. -/
theorem agrees_width_add {ts : List (Rose Placed)} {width : Int}
    (hbelow : Agrees (widthBelowInWords ts) (widthBelow ts)) (hwidth : 0 ≤ width)
    (hword : width < 2 ^ 32)
    (hsum : ∀ deepest, widthBelow ts = .ok deepest → width + deepest < 2 ^ 32) :
    Agrees (do
        let width ← ofInt? 32 width
        let deepest ← widthBelowInWords ts
        add? 32 width deepest)
      (do
        let deepest ← widthBelow ts
        return add 32 (wrap 32 width) deepest) := by
  refine .of_eq_some (ofInt?_eq_some hwidth hword) (hbelow.bind fun deepest hdeepest ↦ ?_)
  have hlt := hsum deepest hdeepest
  rw [width_add_eq hwidth hlt]
  exact agrees_lift (add?_eq_some (by omega))

theorem agrees_widthBelow (ht : t.Rooted) (h : t.WithinBudget allowed)
    (hallowed : allowed < 2 ^ 32)
    (hholds : t.Holds p) (hs : t.PathSum p.place s) :
    Agrees (widthBelowInWords ((t.children p.place).map t.branch))
      (widthBelow ((t.children p.place).map t.branch)) := by
  induction p using branch_induction t generalizing s with
  | h p ih =>
    refine agrees_widthBelow_of_forall _ fun c hc ↦ ?_
    obtain ⟨hcholds, hparent⟩ := ht.mem_children.mp hc
    have hsum := hs.child hcholds hparent
    have hnonneg := hs.nonneg (h.widths_nonneg ht)
    rw [branch_eq, widthOfInWords, widthOf]
    split
    · exact agrees_throw _
    · have hle := h.pathSum_le hsum
      refine agrees_width_add (ih c hc hcholds hsum) (by omega) (by omega) fun deepest hdeepest ↦ ?_
      have hdeep := h.deepest_le ht hallowed hcholds hsum hdeepest
      omega

theorem agrees_committedWidth (ht : t.Rooted) (h : t.WithinBudget allowed)
    (hallowed : allowed < 2 ^ 32) (hroot : t.node? 0 = some root) :
    Agrees t.committedWidthInWords t.committedWidth := by
  have hbranch := branch?_of_root hroot
  have hsum : t.PathSum 0 root.bitWidth := .top hroot ht.top
  unfold committedWidthInWords committedWidth
  rw [hbranch]
  dsimp only
  split
  · exact agrees_throw _
  · have hle := h.pathSum_le hsum
    refine agrees_width_add (agrees_widthBelow (p := ⟨0, root⟩) ht h hallowed hroot hsum)
      (by omega) (by omega) fun deepest hdeepest ↦ ?_
    have hdeep := h.deepest_le (p := ⟨0, root⟩) ht hallowed hroot hsum hdeepest
    omega

/-! ## Offsets and lengths stay in their words -/

theorem agrees_rootWindow (ht : t.Rooted) (h : t.WithinBudget (maskLength - base.length))
    (hbase : base.length ≤ maskLength) (hmask : maskLength ≤ 64)
    (hroot : t.node? 0 = some root) :
    Agrees (t.rootWindowInWords root base maskLength) (t.rootWindow root base maskLength) := by
  rw [rootWindow_eq, rootWindowInWords]
  refine (agrees_committedWidth ht h (by omega) hroot).bind fun total htotal ↦ ?_
  rw [sub?_eq_some hbase, if_neg (Nat.not_lt.mpr hbase)]
  dsimp only
  split
  · exact agrees_throw _
  · have hnonneg := h.widths_nonneg ht 0 root hroot
    have hle := h.pathSum_le (.top hroot ht.top)
    rw [wrap_eq (by omega) (by omega), Int.toNat_natCast,
      add_eq (b := maskLength - base.length - total) (by omega),
      Node.segmentWidth_eq hnonneg (by omega), add_eq (by omega)]
    refine .of_eq_some (fit?_eq_some (by omega)) (.of_eq_some (sub?_eq_some (by omega)) ?_)
    refine .of_eq_some (add?_eq_some (by omega)) ?_
    refine .of_eq_some (ofInt?_eq_some hnonneg (by omega)) ?_
    refine .of_eq_some (add?_eq_some (by omega)) ?_
    exact Agrees.bind (ofNetworkInWords?_eq base maskLength) fun window _ ↦ agrees_pure _

theorem agrees_allocateChild (hwidth : 0 ≤ c.node.bitWidth)
    (hroom : window.maskLength + c.node.bitWidth ≤ 64) :
    Agrees (allocateChildInWords window parent siblings position c)
      (allocateChild window parent siblings position c) := by
  have hwidth64 : c.node.bitWidth.toNat ≤ 64 := by omega
  have hpow : 2 ^ c.node.bitWidth.toNat ≤ 2 ^ 64 := Nat.pow_le_pow_right Nat.two_pos hwidth64
  rw [allocateChild_eq, allocateChildInWords, Node.segmentWidth_eq hwidth (by omega),
    add_eq (by omega), largestNumber_eq hwidth64]
  refine .of_eq_some (ofInt?_eq_some hwidth (by omega)) ?_
  refine .of_eq_some (onesInWords?_eq hwidth64) ?_
  split
  · exact agrees_throw _
  · have hwrite : window.writeInWords? window.maskLength c.node.bitWidth.toNat position =
        some (window.write window.maskLength c.node.bitWidth.toNat position) :=
      writeInWords?_eq window (by omega) (by omega) (by omega)
    refine Agrees.bind hwrite fun written _ ↦ ?_
    refine .of_eq_some (add?_eq_some (by omega)) ?_
    exact Agrees.bind rfl fun block _ ↦ agrees_pure _

theorem allocateChild_maskLength
    (h : allocateChild window parent siblings position c = .ok (own, a)) :
    own.maskLength = window.maskLength + c.node.segmentWidth := by
  obtain ⟨-, written, -, rfl, -⟩ := exists_write_of_allocateChild h
  rw [withMaskLength_maskLength]

theorem allocateFromInWords?_eq_of_forall (cs : List Placed)
    (hcs : ∀ c ∈ cs, ∀ position,
      allocateBranchInWords? window parent siblings position (t.branch c) =
        some (allocateBranch window parent siblings position (t.branch c))) :
    allocateFromInWords? window parent siblings position (cs.map t.branch) =
      some (allocateFrom window parent siblings position (cs.map t.branch)) := by
  induction cs generalizing position with
  | nil => rfl
  | cons c cs ih =>
    rw [List.map_cons, allocateFromInWords?, allocateFrom, hcs c List.mem_cons_self,
      ih fun d hd ↦ hcs d (List.mem_cons_of_mem c hd)]
    rfl

/-- Where every path below a place ends within 64 bits, all numbers are given in words. -/
theorem allocateBranchInWords?_eq (ht : t.Rooted)
    (hwidths : ∀ i n, t.node? i = some n → 0 ≤ n.bitWidth) (hholds : t.Holds p)
    (hs : t.PathSum p.place s)
    (hroom : ∀ i s', t.Under i p.place → t.PathSum i s' →
      window.maskLength + p.node.bitWidth + (s' - s) ≤ 64) :
    allocateBranchInWords? window parent siblings position (t.branch p) =
      some (allocateBranch window parent siblings position (t.branch p)) := by
  induction p using branch_induction t generalizing s window parent siblings position with
  | h p ih =>
    have hwidth := hwidths p.place p.node hholds
    have hown := hroom p.place s (Under.refl _) hs
    have hchild : (allocateChildInWords window parent siblings position p).run =
        some (allocateChild window parent siblings position p) :=
      agrees_allocateChild hwidth (by omega)
    rw [branch_eq, allocateBranchInWords?, allocateBranch, hchild]
    cases hallocate : allocateChild window parent siblings position p with
    | error e => rfl
    | ok result =>
      obtain ⟨own, a⟩ := result
      have hlength := allocateChild_maskLength hallocate
      have hsegment := Node.segmentWidth_eq hwidth (by omega)
      have hbelow : allocateFromInWords? own p.node ((t.children p.place).map t.branch).length 1
            ((t.children p.place).map t.branch) =
          some (allocateFrom own p.node ((t.children p.place).map t.branch).length 1
            ((t.children p.place).map t.branch)) := by
        refine allocateFromInWords?_eq_of_forall _ fun c hc position' ↦ ?_
        obtain ⟨hcholds, hparent⟩ := ht.mem_children.mp hc
        refine ih c hc hcholds (hs.child hcholds hparent) fun i s' hi hs' ↦ ?_
        have hleaves := hroom i s' (hi.trans (Under.of_parent hparent)) hs'
        omega
      simp only [bind, Option.bind, hbelow]

/-- On a tree within its budget all numbers are given in words. -/
theorem allocationsInWords?_eq (ht : t.Rooted) (h : t.WithinBudget (maskLength - base.length))
    (hbase : base.length ≤ maskLength) (hmask : maskLength ≤ 64) :
    t.allocationsInWords? base maskLength = some (t.allocations base maskLength) := by
  unfold allocationsInWords? allocations
  cases hroot : t.node? 0 with
  | none =>
    rw [branch?, root?_eq_node?, hroot]
    rfl
  | some root =>
    have hbranch := branch?_of_root hroot
    have hwindow : (t.rootWindowInWords root base maskLength).run =
        some (t.rootWindow root base maskLength) := agrees_rootWindow ht h hbase hmask hroot
    rw [hbranch]
    dsimp only
    rw [hwindow]
    cases hroot' : t.rootWindow root base maskLength with
    | error e => rfl
    | ok window =>
      cases hblock : window.toNetwork with
      | error e => simp only [bind, Option.bind, hblock]
      | ok block =>
        have hnonneg := h.widths_nonneg ht
        have hsums := h.sumsFit (by omega)
        obtain ⟨-, deepest, whole, hdeepest, -, hroom, rfl⟩ :=
          ht.rootWindow_eq_ok hsums hroot hroot'
        have hbelow : allocateFromInWords? (whole.withMaskLength (maskLength - deepest)) root
              ((t.children 0).map t.branch).length 1 ((t.children 0).map t.branch) =
            some (allocateFrom (whole.withMaskLength (maskLength - deepest)) root
              ((t.children 0).map t.branch).length 1 ((t.children 0).map t.branch)) := by
          refine allocateFromInWords?_eq_of_forall _ fun c hc position ↦ ?_
          obtain ⟨hcholds, hparent⟩ := ht.mem_children.mp hc
          refine allocateBranchInWords?_eq ht hnonneg hcholds
            ((PathSum.top hroot ht.top).child hcholds hparent) fun i s' _ hs' ↦ ?_
          have hwidth := hnonneg 0 root hroot
          have hsum := (ht.isGreatest_leafSums hsums hroot hwidth hdeepest).2 i s' hs'
          rw [withMaskLength_maskLength]
          omega
        simp only [bind, Option.bind, hblock, hbelow]

/-- Numbering in words is numbering, also where a node is refused. -/
theorem fillInWords?_eq (ht : t.Rooted) (h : t.WithinBudget (maskLength - base.length))
    (hbase : base.length ≤ maskLength) (hmask : maskLength ≤ 64) :
    t.fillInWords? base maskLength = some (t.fill base maskLength) := by
  rw [fillInWords?, allocationsInWords?_eq ht h hbase hmask]
  rfl

end AddressPlan.NodeTree
