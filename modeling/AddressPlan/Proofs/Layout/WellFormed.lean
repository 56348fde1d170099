import AddressPlan.Proofs.Layout.Check
import AddressPlan.Proofs.NodeTree.Fits
import AddressPlan.Proofs.NodeTree.Widest

/-!
# Layouts that are accepted

The check compares the size of the tree with the number of nodes.  Orphans, cycles and repeated
ids are missing in the tree, so the two agree only if the ids are distinct and every node leads
to the root.  Then the budget and the literals can be told from the nodes alone, and the check
passes exactly on the layouts that are well-formed.
-/

namespace AddressPlan

open Rows NodeTree

namespace Plan

/-- The block of the plan is written canonically, and the plan goes deeper, but not too deep. -/
structure Valid (plan : Plan) (block : Network) : Prop where
  network : plan.network = .ok block
  canonical : block.base.text = plan.cidr
  deeper : block.length < plan.maskLength
  limit : plan.maskLength ≤ block.family.maskLimit

variable {plan : Plan} {block : Network}

theorem checkFields_eq_ok_iff :
    checkFields plan.cidr plan.maskLength = .ok block ↔ plan.Valid block := by
  constructor
  · intro h
    unfold checkFields at h
    cases hparse : Network.parse plan.cidr with
    | error e =>
      rw [hparse] at h
      cases h
    | ok network =>
      simp only [hparse, bind, Except.bind] at h
      split at h
      · cases h
      split at h
      · cases h
      split at h
      · cases h
      rename_i htext hdeeper hlimit
      cases h
      exact ⟨hparse, by simpa using htext, by omega, by omega⟩
  · rintro ⟨hnetwork, htext, hdeeper, hlimit⟩
    unfold checkFields
    rw [show Network.parse plan.cidr = .ok block from hnetwork]
    simp [bind, Except.bind, pure, Except.pure, htext, Nat.not_le.mpr hdeeper,
      Nat.not_lt.mpr hlimit]

theorem check_eq_ok_iff : plan.check = .ok () ↔ ∃ block, plan.Valid block := by
  simp only [← checkFields_eq_ok_iff, check]
  cases checkFields plan.cidr plan.maskLength with
  | error e => simp [Except.map]
  | ok block => simp [Except.map]

theorem Valid.allowedBits (h : plan.Valid block) :
    plan.allowedBits = .ok (plan.maskLength - block.length) := by
  rw [Plan.allowedBits, baseLength, h.network]
  rfl

end Plan

namespace Rows

variable {rows : List Node} {root : Node}

/-- If ids are distinct and all rows lead to the only root, then parents are rows. -/
theorem IsTree.of_below (hids : (rows.map Node.id).Nodup)
    (hroots : rows.filter Node.isRoot = [root]) (hbelow : ∀ n ∈ rows, Below rows n.id root.id) :
    IsTree rows root where
  roots := hroots
  parents := fun n hn hnotRoot ↦ by
    have hroot : root ∈ rows ∧ root.isRoot = true :=
      List.mem_filter.mp (hroots ▸ List.mem_singleton_self root)
    rcases (hbelow n hn).cases_head with heq | ⟨m, hm, hid, hup⟩
    · rw [List.inj_on_of_nodup_map hids hn hroot.1 heq, hroot.2] at hnotRoot
      cases hnotRoot
    · obtain rfl := List.inj_on_of_nodup_map hids hm hn hid
      rcases hup.cases_head with heq | ⟨p, hp, hpid, -⟩
      · exact ⟨root, hroot.1, heq.symm⟩
      · exact ⟨p, hp, hpid⟩
  below_root := hbelow

end Rows

namespace NodeTree

variable {t : NodeTree} {rows : List Node} {root : Node} {allowed : Int} {i : Nat}

theorem Linked.below_top (ht : t.Linked) (hrooted : t.Rooted)
    (hsub : ∀ n ∈ t.flatten, n ∈ rows) (hroot : t.node? 0 = some root) {n : Node}
    (hn : t.node? i = some n) : Below rows n.id root.id := by
  induction i using Nat.strongRecOn generalizing n with
  | _ i ih =>
    rcases Nat.eq_zero_or_pos i with rfl | hpos
    · cases hn.symm.trans hroot
      exact Below.refl _
    · obtain ⟨p, m, hlt, -, hm, -, hparent⟩ := ht.exists_above hrooted hpos hn
      apply Below.of_mem (hsub n (mem_flatten.mpr ⟨i, hn⟩))
      rw [hparent]
      exact ih p hlt hm

theorem isTree_of_size_eq (hroots : (rows.filter Node.isRoot).length = 1)
    (hsize : (build rows).size = rows.length) : ∃ root, IsTree rows root := by
  obtain ⟨root, hroots⟩ := List.length_eq_one_iff.mp hroots
  have hlinked := build_linked rows
  have hperm := build_perm hsize
  have hids := (hperm.map Node.id).nodup_iff.mp hlinked.nodup
  have htop := node?_build_zero (find?_isRoot_of_roots hroots)
  refine ⟨root, .of_below hids hroots fun n hn ↦ ?_⟩
  obtain ⟨i, hi⟩ := mem_flatten.mp (hperm.mem_iff.mpr hn)
  exact hlinked.below_top (build_rooted rows) (fun n ↦ mem_of_mem_build) htop hi

/-- The tree is as large as the list of rows exactly if the ids are distinct and all rows hang
off the root. -/
theorem size_build_eq_iff (hroots : (rows.filter Node.isRoot).length = 1) :
    (build rows).size = rows.length ↔
      (rows.map Node.id).Nodup ∧ ∃ root, IsTree rows root := by
  constructor
  · intro hsize
    have hids := (build_perm hsize).map Node.id
    exact ⟨hids.nodup_iff.mp (build_linked rows).nodup, isTree_of_size_eq hroots hsize⟩
  · rintro ⟨hids, root, hroot⟩
    rw [← (build_perm_of_isTree hids hroot).length_eq, flatten, List.length_map, size]

/-- In a tree there is one way from the root to a row. -/
theorem Linked.exists_widthTo (ht : t.Linked) (hrooted : t.Rooted) (hperm : t.flatten.Perm rows)
    {n : Node} (hn : n ∈ rows) :
    ∃ total, WidthTo rows n total ∧ ∀ total', WidthTo rows n total' → total' = total := by
  obtain ⟨i, hi⟩ := mem_flatten.mp (hperm.mem_iff.mpr hn)
  obtain ⟨total, hsum⟩ := hrooted.exists_pathSum (lt_size_iff.mpr ⟨n, hi⟩)
  refine ⟨total, (ht.widthTo_iff hrooted hperm).mpr ⟨i, hi, hsum⟩, fun total' hwidth ↦ ?_⟩
  obtain ⟨j, hj, hsum'⟩ := (ht.widthTo_iff hrooted hperm).mp hwidth
  obtain rfl := ht.place_eq hj hi rfl
  exact hsum'.eq hsum

theorem Linked.fits_iff (ht : t.Linked) (hrooted : t.Rooted) (hperm : t.flatten.Perm rows) :
    Fits allowed rows ↔ (∀ n ∈ rows, 0 ≤ n.bitWidth) ∧
      (∀ n ∈ rows, ∃ total ≤ allowed, WidthTo rows n total) ∧
      (∀ text ∈ rows.flatMap Node.blockTexts,
        ∃ block : Network, block.Plain ∧ block.text = text) ∧
      (rows.flatMap Node.blockTexts).Nodup := by
  constructor
  · rintro ⟨hwidths, hplain, hnodup⟩
    refine ⟨fun n hn ↦ ?_, fun n hn ↦ ?_, hplain, hnodup⟩
    · obtain ⟨total, hwidth, -⟩ := ht.exists_widthTo hrooted hperm hn
      exact (hwidths n total hwidth).1
    · obtain ⟨total, hwidth, -⟩ := ht.exists_widthTo hrooted hperm hn
      exact ⟨total, (hwidths n total hwidth).2, hwidth⟩
  · rintro ⟨hnonneg, hwidths, hplain, hnodup⟩
    refine ⟨fun n total hwidth ↦ ⟨hnonneg n hwidth.mem, ?_⟩, hplain, hnodup⟩
    obtain ⟨total', hle, hwidth'⟩ := hwidths n hwidth.mem
    obtain ⟨only, -, honly⟩ := ht.exists_widthTo hrooted hperm hwidth.mem
    rw [honly total hwidth, ← honly total' hwidth']
    exact hle

end NodeTree

namespace Layout

variable {plan : Plan} {l : Layout} {allowed : Int}

/-- The nodes form one tree within the budget, and their literals are plain blocks, none of them
written twice. -/
structure WellFormed (allowed : Int) (nodes : List Node) : Prop where
  tree : ∃ root, nodes.filter Node.isRoot = [root] ∧ ∀ n ∈ nodes, Below nodes n.id root.id
  ids_nodup : (nodes.map Node.id).Nodup
  width_nonneg : ∀ n ∈ nodes, 0 ≤ n.bitWidth
  widths : ∀ n ∈ nodes, ∃ total ≤ allowed, WidthTo nodes n total
  plain : ∀ text ∈ nodes.flatMap Node.blockTexts,
    ∃ block : Network, block.Plain ∧ block.text = text
  texts_nodup : (nodes.flatMap Node.blockTexts).Nodup

theorem oneTree_iff (htree : l.tree = build l.nodes) :
    l.OneTree ↔ (l.nodes.map Node.id).Nodup ∧ ∃ root, IsTree l.nodes root := by
  constructor
  · rintro ⟨hroots, hsize⟩
    exact (size_build_eq_iff hroots).mp (htree ▸ hsize)
  · rintro ⟨hids, root, hroot⟩
    have hroots : (l.nodes.filter Node.isRoot).length = 1 := by simp [hroot.roots]
    exact ⟨hroots, htree ▸ (size_build_eq_iff hroots).mpr ⟨hids, root, hroot⟩⟩

/-- One tree that passes its check is all that well-formed nodes are. -/
theorem wellFormed_iff (htree : l.tree = build l.nodes) :
    l.OneTree ∧ l.tree.check allowed false = .ok () ↔ WellFormed allowed l.nodes := by
  have hlinked := build_linked l.nodes
  have hrooted := build_rooted l.nodes
  rw [oneTree_iff htree, htree]
  constructor
  · rintro ⟨⟨hids, root, hroot⟩, hcheck⟩
    have hperm := build_perm_of_isTree hids hroot
    obtain ⟨hnonneg, hwidths, hplain, hnodup⟩ := (hlinked.fits_iff hrooted hperm).mp
      ((hlinked.check_eq_ok_iff hrooted hperm).mp hcheck)
    exact ⟨⟨root, hroot.roots, hroot.below_root⟩, hids, hnonneg, hwidths, hplain, hnodup⟩
  · rintro ⟨⟨root, hroots, hbelow⟩, hids, hnonneg, hwidths, hplain, hnodup⟩
    have hroot := IsTree.of_below hids hroots hbelow
    have hperm := build_perm_of_isTree hids hroot
    refine ⟨⟨hids, root, hroot⟩, (hlinked.check_eq_ok_iff hrooted hperm).mpr ?_⟩
    exact (hlinked.fits_iff hrooted hperm).mpr ⟨hnonneg, hwidths, hplain, hnodup⟩

/-- On a layout that passes its check no sum of widths leaves its word. -/
theorem sumsFit_of_check (hrooted : l.tree.Rooted) (hempty : l.nodes = [] → l.tree = {})
    (hcheck : (check plan).run l = (.ok (), l')) : l.tree.SumsFit := by
  obtain ⟨hplan, hnone | ⟨-, allowed, hallowed, hbudget⟩⟩ :=
    run_check_fst_eq_ok_iff.mp (congrArg Prod.fst hcheck)
  · intro i s hs
    have hlt := hs.lt_size
    rw [hempty hnone] at hlt
    exact absurd hlt (Nat.not_lt_zero i)
  · obtain ⟨block, hvalid⟩ := Plan.check_eq_ok_iff.mp hplan
    cases hvalid.allowedBits.symm.trans hallowed
    have hmask := hvalid.limit
    have hlimit := block.family.maskLimit_le
    exact (hrooted.check_eq_ok_iff.mp hbudget).1.sumsFit (by omega)

theorem tree_eq_build (hkept : l.kept = none ∨ l.kept = some (build l.nodes)) :
    l.tree = build l.nodes := by
  rcases hkept with hkept | hkept <;> simp [tree, hkept]

/-- The check passes exactly if the plan is valid and the layout has no nodes or is
well-formed. -/
theorem run_check_eq_ok_iff_wellFormed
    (hkept : l.kept = none ∨ l.kept = some (build l.nodes)) :
    ((check plan).run l).1 = .ok () ↔ ∃ block, plan.Valid block ∧
      (l.nodes = [] ∨ WellFormed (plan.maskLength - block.length) l.nodes) := by
  have hbits : ∀ {block : Network}, plan.Valid block →
      ((plan.maskLength - block.length : Nat) : Int) = plan.maskLength - block.length :=
    fun hvalid ↦ Nat.cast_sub (Nat.le_of_lt hvalid.deeper)
  rw [run_check_fst_eq_ok_iff, Plan.check_eq_ok_iff]
  constructor
  · rintro ⟨⟨block, hvalid⟩, hnodes⟩
    refine ⟨block, hvalid, hnodes.imp_right ?_⟩
    rintro ⟨hone, allowed, hallowed, hcheck⟩
    cases hvalid.allowedBits.symm.trans hallowed
    rw [← hbits hvalid]
    exact (wellFormed_iff (tree_eq_build hkept)).mp ⟨hone, hcheck⟩
  · rintro ⟨block, hvalid, hnodes⟩
    refine ⟨⟨block, hvalid⟩, hnodes.imp_right fun hformed ↦ ?_⟩
    rw [← hbits hvalid] at hformed
    obtain ⟨hone, hcheck⟩ := (wellFormed_iff (tree_eq_build hkept)).mpr hformed
    exact ⟨hone, _, hvalid.allowedBits, hcheck⟩

def literalPlan : Plan := ⟨1, "10.0.0.0/8", 24, none, none⟩

/-- A site below the root, and a rack below the site. -/
def racks (rack : Node) : Layout := .ofRequest 1
  { name := "racks"
    nodes := [rack, { id := 1, name := "root" },
      { id := 2, parentId := 1, name := "site", bitWidth := 12,
        literals := "10.1.0.0/16,10.2.0.0/16" }] }

theorem run_check_racks :
    (∃ block, literalPlan.Valid block ∧ WellFormed (literalPlan.maskLength - block.length)
      (racks { id := 3, parentId := 2, name := "rack", bitWidth := 4 }).nodes) ∧
    ((check literalPlan).run (racks { id := 2, parentId := 2, name := "rack" })).1 ≠ .ok () := by
  constructor
  · obtain ⟨block, hvalid, hnodes⟩ := (run_check_eq_ok_iff_wellFormed (Or.inl rfl)).mp
      (show ((check literalPlan).run
        (racks { id := 3, parentId := 2, name := "rack", bitWidth := 4 })).1 = .ok () by
          decide +kernel)
    exact ⟨block, hvalid, hnodes.resolve_left (by decide)⟩
  · intro hrun
    obtain ⟨block, -, hnodes⟩ := (run_check_eq_ok_iff_wellFormed (Or.inl rfl)).mp hrun
    exact absurd (hnodes.resolve_left (by decide)).ids_nodup (by decide)

end Layout

end AddressPlan
