import AddressPlan.Proofs.NodeTree.Budget
import AddressPlan.Proofs.NodeTree.Claims
import AddressPlan.Proofs.NodeTree.Relabel

/-!
# Rows that pass the check

Of a node the check sees the width and the literals, and of the tree the way up to the root.
So whether the check passes can be told from the rows, in whatever order they come: every
path of parent ids stays within the budget, and the literals are in order.
-/

namespace AddressPlan

/-- What a node takes up: its width and its literals. -/
def Node.space (n : Node) : Int × String :=
  (n.bitWidth, n.literals)

theorem Node.bitWidth_eq_of_space {n m : Node} (h : n.space = m.space) : n.bitWidth = m.bitWidth :=
  congrArg Prod.fst h

namespace Rows

/-- The widths of the rows from a root down to the row sum up to `total`. -/
inductive WidthTo (rows : List Node) : Node → Int → Prop where
  | root {r : Node} (hr : r ∈ rows) (hroot : r.isRoot = true) : WidthTo rows r r.bitWidth
  | child {r p : Node} {total : Int} (hp : WidthTo rows p total) (hr : r ∈ rows)
    (hroot : r.isRoot = false) (hparent : r.parentId = p.id) :
    WidthTo rows r (total + r.bitWidth)

/-- No row has a negative width, no path sums up to more than is allowed, and the literals are
texts of plain blocks, none of them written twice. -/
structure Fits (allowed : Int) (rows : List Node) : Prop where
  widths : ∀ r total, WidthTo rows r total → 0 ≤ r.bitWidth ∧ total ≤ allowed
  plain : ∀ text ∈ rows.flatMap Node.blockTexts,
    ∃ block : Network, block.Plain ∧ block.text = text
  nodup : (rows.flatMap Node.blockTexts).Nodup

theorem WidthTo.mem {rows : List Node} {r : Node} {total : Int} (h : WidthTo rows r total) :
    r ∈ rows := by
  cases h <;> assumption

theorem fits_nil (allowed : Int) : Fits allowed [] where
  widths := fun _ _ h ↦ absurd h.mem List.not_mem_nil
  plain := fun _ htext ↦ absurd htext List.not_mem_nil
  nodup := List.nodup_nil

theorem WidthTo.perm {rows rows' : List Node} {r : Node} {total : Int}
    (h : WidthTo rows r total) (hperm : rows.Perm rows') : WidthTo rows' r total := by
  induction h with
  | root hr hroot => exact .root (hperm.mem_iff.mp hr) hroot
  | child _ hr hroot hparent ih => exact ih.child (hperm.mem_iff.mp hr) hroot hparent

theorem Fits.perm {allowed : Int} {rows rows' : List Node} (h : Fits allowed rows)
    (hperm : rows.Perm rows') : Fits allowed rows' := by
  have htexts := hperm.flatMap_right Node.blockTexts
  exact ⟨fun r total hsum ↦ h.widths r total (hsum.perm hperm.symm),
    fun text htext ↦ h.plain text (htexts.mem_iff.mpr htext), htexts.nodup_iff.mp h.nodup⟩

end Rows

namespace NodeTree

open Rows

variable {t t' : NodeTree} {rows : List Node} {allowed : Int} {r : Node} {total : Int}

theorem Linked.widthTo_iff (ht : t.Linked) (hrooted : t.Rooted) (hperm : t.flatten.Perm rows) :
    WidthTo rows r total ↔ ∃ i, t.node? i = some r ∧ t.PathSum i total := by
  constructor
  · intro h
    induction h with
    | @root r hr hroot =>
      obtain ⟨i, hi⟩ := mem_flatten.mp (hperm.mem_iff.mpr hr)
      refine ⟨i, hi, .top hi ?_⟩
      by_contra hsome
      obtain ⟨p, hp⟩ := Option.ne_none_iff_exists'.mp hsome
      obtain ⟨m, hm⟩ := hrooted.exists_parent_node hp
      rw [(ht.link i p r m hp hi hm).1] at hroot
      cases hroot
    | @child r p total hp hr hroot hparent ih =>
      obtain ⟨j, hj, hsum⟩ := ih
      obtain ⟨i, hi⟩ := mem_flatten.mp (hperm.mem_iff.mpr hr)
      refine ⟨i, hi, .child hsum hi ?_⟩
      have hpos : 0 < i := by
        refine Nat.pos_of_ne_zero fun hzero ↦ ?_
        rw [ht.top r (hzero ▸ hi)] at hroot
        cases hroot
      obtain ⟨q, m, -, hq, hm, -, hup⟩ := ht.exists_above hrooted hpos hi
      rw [hq, ht.place_eq hm hj (hup.symm.trans hparent)]
  · rintro ⟨i, hi, h⟩
    induction h generalizing r with
    | @top i n hn hparent =>
      cases hn.symm.trans hi
      refine .root (hperm.mem_iff.mp (mem_flatten.mpr ⟨i, hi⟩)) (ht.top n ?_)
      rcases Nat.eq_zero_or_pos i with rfl | hpos
      · exact hi
      · obtain ⟨p, -, hp⟩ := hrooted.parent i hpos (lt_size_iff.mpr ⟨n, hi⟩)
        cases hparent.symm.trans hp
    | @child i p n total hp hn hparent ih =>
      cases hn.symm.trans hi
      obtain ⟨m, hm⟩ := hrooted.exists_parent_node hparent
      obtain ⟨hroot, hid⟩ := ht.link i p n m hparent hi hm
      exact (ih hm).child (hperm.mem_iff.mp (mem_flatten.mpr ⟨i, hi⟩)) hroot hid

theorem check_eq_ok_iff {strict : Bool} : t.check allowed strict = .ok () ↔
    t.checkBudget allowed strict = .ok () ∧ ∃ claims, t.claims = .ok claims := by
  simp only [check, bind_eq_ok_iff]
  exact ⟨fun ⟨_, hbudget, claims, hclaims, _⟩ ↦ ⟨hbudget, claims, hclaims⟩,
    fun ⟨hbudget, claims, hclaims⟩ ↦ ⟨(), hbudget, claims, hclaims, rfl⟩⟩

theorem Rooted.check_eq_ok_iff (h : t.Rooted) :
    t.check allowed false = .ok () ↔
      t.WithinBudget allowed ∧ ∃ claims, t.claims = .ok claims := by
  rw [NodeTree.check_eq_ok_iff, h.checkBudget_eq_ok_iff]

/-- The check of a tree passes exactly if its rows fit. -/
theorem Linked.check_eq_ok_iff (ht : t.Linked) (hrooted : t.Rooted)
    (hperm : t.flatten.Perm rows) : t.check allowed false = .ok () ↔ Fits allowed rows := by
  have htexts := hperm.flatMap_right Node.blockTexts
  rw [hrooted.check_eq_ok_iff, exists_claims_iff, htexts.nodup_iff]
  simp only [htexts.mem_iff]
  constructor
  · rintro ⟨hwithin, hplain, hnodup⟩
    refine ⟨fun r total hsum ↦ ?_, hplain, hnodup⟩
    obtain ⟨i, hi, hsum⟩ := (ht.widthTo_iff hrooted hperm).mp hsum
    exact hwithin i r total hi hsum
  · rintro ⟨hwidths, hplain, hnodup⟩
    exact ⟨fun i n total hn hsum ↦ hwidths n total
      ((ht.widthTo_iff hrooted hperm).mpr ⟨i, hn, hsum⟩), hplain, hnodup⟩

/-! ## Trees that take up the same space -/

/-- The second tree has the places of the first one with the same parents, and each takes up
the same space. -/
structure SameSpace (t t' : NodeTree) : Prop where
  parent? : ∀ i, t'.parent? i = t.parent? i
  space : ∀ i, (t'.node? i).map Node.space = (t.node? i).map Node.space

theorem Relabelled.sameSpace (h : Relabelled t t') : SameSpace t t' where
  parent? := h.parent?
  space := by
    intro i
    obtain ⟨cidr, value, hi⟩ := h.node? i
    rw [hi, Option.map_map]
    rfl

namespace SameSpace

theorem exists_node? (h : SameSpace t t') {i : Nat} {m : Node} (hm : t'.node? i = some m) :
    ∃ n, t.node? i = some n ∧ n.space = m.space := by
  have hspace := h.space i
  rw [hm, Option.map_some] at hspace
  exact Option.map_eq_some_iff.mp hspace.symm

theorem symm (h : SameSpace t t') : SameSpace t' t :=
  ⟨fun i ↦ (h.parent? i).symm, fun i ↦ (h.space i).symm⟩

theorem sameShape (h : SameSpace t t') : SameShape t t' where
  parent? := h.parent?
  node? := by
    intro i
    constructor
    · rintro ⟨m, hm⟩
      obtain ⟨n, hn, -⟩ := h.exists_node? hm
      exact ⟨n, hn⟩
    · rintro ⟨n, hn⟩
      obtain ⟨m, hm, -⟩ := h.symm.exists_node? hn
      exact ⟨m, hm⟩

theorem pathSum (h : SameSpace t t') {i : Nat} (hsum : t'.PathSum i total) :
    t.PathSum i total := by
  induction hsum with
  | @top i m hm hparent =>
    obtain ⟨n, hn, hspace⟩ := h.exists_node? hm
    rw [← Node.bitWidth_eq_of_space hspace]
    exact .top hn ((h.parent? i).symm.trans hparent)
  | @child i p m total hp hm hparent ih =>
    obtain ⟨n, hn, hspace⟩ := h.exists_node? hm
    rw [← Node.bitWidth_eq_of_space hspace]
    exact ih.child hn ((h.parent? i).symm.trans hparent)

theorem texts_eq (h : SameSpace t t') :
    t'.flatten.flatMap Node.blockTexts = t.flatten.flatMap Node.blockTexts := by
  have hspaces : t'.flatten.map Node.space = t.flatten.map Node.space := by
    apply List.ext_getElem?
    intro i
    rw [List.getElem?_map, List.getElem?_map, getElem?_flatten, getElem?_flatten, h.space]
  have hread : ∀ ns : List Node, ns.flatMap Node.blockTexts =
      (ns.map Node.space).flatMap fun s ↦ Node.blockTexts { name := "", literals := s.2 } := by
    intro ns
    rw [List.flatMap_map]
    rfl
  rw [hread, hread, hspaces]

/-- The check does not tell apart trees that take up the same space. -/
theorem check_of_check (h : SameSpace t t') (ht : t.Rooted)
    (hcheck : t.check allowed false = .ok ()) : t'.check allowed false = .ok () := by
  rw [ht.check_eq_ok_iff, exists_claims_iff] at hcheck
  obtain ⟨hwithin, hclaims⟩ := hcheck
  rw [(h.sameShape.rooted ht).check_eq_ok_iff, exists_claims_iff, h.texts_eq]
  refine ⟨fun i m total hm hsum ↦ ?_, hclaims⟩
  obtain ⟨n, hn, hspace⟩ := h.exists_node? hm
  rw [← Node.bitWidth_eq_of_space hspace]
  exact hwithin i n total hn (h.pathSum hsum)

end SameSpace

end NodeTree

end AddressPlan
