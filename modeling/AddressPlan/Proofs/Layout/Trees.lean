import AddressPlan.Proofs.Layout.Rewrite

/-!
# Rows stay a tree

Whatever the nodes of a request are and whichever of them are flagged, an update leaves a
layout without rows or with rows that form one tree.  Rows that stay are closed upwards, so
they keep the stored root; what is written hangs off a row that was written before or stays.
-/

namespace AddressPlan.NodeTree

open Rows

variable {layoutId : Int} {t t' : NodeTree} {old new stored : List Node} {gone : List Int}
  {places : List Nat} {i : Nat} {r root : Node}

theorem Removed.of_root (hkeyed : Keyed stored) (htree : IsTree stored root) (hr : r ∈ stored)
    (hremoved : t.Removed stored root) : t.Removed stored r := by
  rcases hremoved with hreplaced | ⟨i, n, htop, hn, hmem, hbelow⟩
  · exact Or.inl hreplaced
  · obtain ⟨m, hm, hid⟩ := List.mem_map.mp hmem
    have hpos : 0 < n.id := hid ▸ hkeyed.pos m hm
    have hroot := hkeyed.eq_of_below_root htree.root_mem htree.root_isRoot hpos hbelow
    exact Or.inr ⟨i, n, htop, hn, hmem, hroot ▸ htree.below_root r hr⟩

/-- If the root is rewritten then nothing stays. -/
theorem Rewritten.removed_of_zero (hkeyed : Keyed stored) (htree : EmptyOrTree stored)
    (ht : t.Rooted) (h : t.Rewritten stored 0) (hr : r ∈ stored) : t.Removed stored r := by
  obtain rfl | ⟨root, hroot⟩ := htree
  · cases hr
  obtain ⟨j, n, hunder, hn, hdirty⟩ := h
  obtain rfl : j = 0 := Nat.le_zero.mp (ht.le_of_under hunder)
  by_cases hreplaced : t.RootReplaced stored
  · exact Or.inl hreplaced
  have hid : root.id = n.id := by
    by_contra hne
    refine hreplaced ⟨root, hroot.root_mem, hroot.root_isRoot, fun heq ↦ hne ?_⟩
    rw [root?_eq_node?, hn] at heq
    exact (Option.some.inj heq).symm
  apply Removed.of_root hkeyed hroot hr
  rcases hdirty with hflagged | hlost
  · have htop : t.TopmostDirty (stored.map Node.id) 0 := by
      refine ⟨⟨n, hn, Or.inl hflagged⟩, fun j hj hne ↦ ?_⟩
      exact absurd (Nat.le_zero.mp (ht.le_of_under hj)) hne
    exact Or.inr ⟨0, n, htop, hn, List.mem_map.mpr ⟨root, hroot.root_mem, hid⟩,
      hid ▸ Below.refl _⟩
  · exact hlost root hroot.root_mem hid

namespace Rewrite

/-- A row that stays has a parent that stays. -/
theorem parentsIn_staying (h : Rewrite layoutId t old new t' gone places)
    (hparents : ParentsIn (ofLayout old layoutId)) :
    ParentsIn (outside (ofLayout old layoutId) gone) := by
  intro r hr hnotRoot
  obtain ⟨hrow, hstays⟩ := h.mem_staying.mp hr
  obtain ⟨p, hp, hid⟩ := hparents r hrow hnotRoot
  exact ⟨p, h.mem_staying.mpr ⟨hp, fun hremoved ↦ hstays (hremoved.of_parent hrow hid)⟩, hid⟩

/-- If a row stays then the first node has the id of the stored root and is not written, and
the rows that stay form a tree under that root. -/
theorem staying_tree (h : Rewrite layoutId t old new t' gone places) (hkeyed : Keyed old)
    (htree : EmptyOrTree (ofLayout old layoutId)) (ht : t.Rooted)
    (hr : r ∈ outside (ofLayout old layoutId) gone) :
    ∃ root, IsTree (outside (ofLayout old layoutId) gone) root ∧ 0 ∉ places ∧
      t.root?.map Node.id = some root.id := by
  have hkeyed' := hkeyed.ofLayout layoutId
  obtain ⟨hrow, hstays⟩ := h.mem_staying.mp hr
  rcases htree with hnil | ⟨root, hroot⟩
  · rw [hnil] at hrow
    cases hrow
  have hrootStays : ¬ t.Removed (ofLayout old layoutId) root :=
    fun hremoved ↦ hstays (hremoved.of_root hkeyed' hroot hrow)
  have hmem := h.mem_staying.mpr ⟨hroot.root_mem, hrootStays⟩
  refine ⟨root, ?_, fun hzero ↦ ?_, ?_⟩
  · exact hroot.part hkeyed' List.filter_sublist hmem (h.parentsIn_staying hroot.parents)
  · have hrewritten := (h.mem_places 0).mp hzero
    exact hstays (hrewritten.removed_of_zero hkeyed' (Or.inr ⟨root, hroot⟩) ht hrow)
  · by_contra hne
    exact hrootStays (Or.inl ⟨root, hroot.root_mem, hroot.root_isRoot, hne⟩)

theorem exists_row_new (h : Rewrite layoutId t old new t' gone places) (hi : i < t.size) :
    ∃ r ∈ ofLayout new layoutId, (t'.node? i).map Node.id = some r.id ∧
      (i ∈ places → t'.node? i = some r) ∧
      (i ∉ places → r ∈ outside (ofLayout old layoutId) gone) := by
  obtain ⟨n, hn⟩ := lt_size_iff.mp hi
  rw [h.ofLayout_new]
  by_cases hmem : i ∈ places
  · obtain ⟨m, id, -, hn'⟩ := h.written i hmem
    refine ⟨_, List.mem_append_right _ (List.mem_filterMap.mpr ⟨i, hmem, hn'⟩), ?_,
      fun _ ↦ hn', fun hnot ↦ absurd hmem hnot⟩
    rw [hn']
    rfl
  · obtain ⟨r, hr, hid⟩ := h.exists_row hmem hn
    refine ⟨r, List.mem_append_left _ hr, ?_, fun hmem' ↦ absurd hmem' hmem, fun _ ↦ hr⟩
    rw [h.kept i hmem, hn, hid]
    rfl

theorem written_parent (h : Rewrite layoutId t old new t' gone places) (ht : t.Rooted)
    (hi : i ∈ places) (hr : t'.node? i = some r) :
    i = 0 ∧ r.isRoot = true ∨ ∃ p < i, t.parent? i = some p ∧ r.isRoot = false ∧
      (t'.node? p).map Node.id = some r.parentId := by
  obtain ⟨n, id, hn, hn'⟩ := h.written i hi
  cases hn'.symm.trans hr
  rcases Nat.eq_zero_or_pos i with rfl | hpos
  · refine Or.inl ⟨rfl, isRoot_iff.mpr ?_⟩
    exact parentIdAt_of_none ((h.parent? 0).trans ht.top)
  · obtain ⟨p, hlt, hp⟩ := ht.parent i hpos (h.lt_size hi)
    obtain ⟨q, hq, hqid, -⟩ := h.exists_row_new (Nat.lt_trans hlt (h.lt_size hi))
    have hparent : t'.parentIdAt i = q.id := by
      rw [parentIdAt_of_some ((h.parent? i).trans hp), hqid]
      rfl
    have hqpos := h.keyed.pos q (mem_ofLayout.mp hq).1
    refine Or.inr ⟨p, hlt, hp, not_isRoot_iff.mpr ?_, ?_⟩
    · change t'.parentIdAt i ≠ 0
      omega
    · change _ = some (t'.parentIdAt i)
      rw [hqid, hparent]

theorem ofLayout_new_of_empty (h : Rewrite layoutId t old new t' gone places)
    (hkeyed : Keyed old) (htree : EmptyOrTree (ofLayout old layoutId)) (ht : t.Rooted)
    (hempty : t.size = 0) : ofLayout new layoutId = [] := by
  rw [List.eq_nil_iff_forall_not_mem]
  intro r hr
  rcases h.mem_new.mp hr with hr | ⟨i, hi, -⟩
  · obtain ⟨root, -, -, hroot⟩ := h.staying_tree hkeyed htree ht hr
    rw [root?, List.eq_nil_of_length_eq_zero hempty] at hroot
    cases hroot
  · have hlt := h.lt_size hi
    omega

/-- The row of the first node has no parent, and what stays stands under it. -/
theorem exists_top (h : Rewrite layoutId t old new t' gone places) (hkeyed : Keyed old)
    (htree : EmptyOrTree (ofLayout old layoutId)) (ht : t.Rooted) (hsize : 0 < t.size) :
    ∃ top ∈ ofLayout new layoutId, top.isRoot = true ∧
      (t'.node? 0).map Node.id = some top.id ∧ (0 ∈ places → t'.node? 0 = some top) ∧
      ∀ r ∈ outside (ofLayout old layoutId) gone,
        IsTree (outside (ofLayout old layoutId) gone) top := by
  obtain ⟨top, htop, htopId, hwritten, hkept⟩ := h.exists_row_new hsize
  have hstaying : ∀ r ∈ outside (ofLayout old layoutId) gone,
      IsTree (outside (ofLayout old layoutId) gone) top := by
    intro r hr
    obtain ⟨root, hroot, hzero, hrootId⟩ := h.staying_tree hkeyed htree ht hr
    rw [root?_eq_node?, ← h.kept 0 hzero, htopId, Option.some.injEq] at hrootId
    have hsame := (hkeyed.ofLayout layoutId).eq_of_id_eq (mem_outside.mp hroot.root_mem).1
      (mem_outside.mp (hkept hzero)).1 hrootId.symm
    exact hsame ▸ hroot
  refine ⟨top, htop, ?_, htopId, hwritten, hstaying⟩
  by_cases hzero : 0 ∈ places
  · rcases h.written_parent ht hzero (hwritten hzero) with ⟨-, hroot⟩ | ⟨p, hlt, -⟩
    · exact hroot
    · exact absurd hlt p.not_lt_zero
  · exact (hstaying top (hkept hzero)).root_isRoot

/-- Every row of a node leads to the row of the first one.  A written row names the row of a
node in front of its own, and a row that stays leads there among those that stay. -/
theorem below_top (h : Rewrite layoutId t old new t' gone places) (ht : t.Rooted)
    {top : Node} (htopId : (t'.node? 0).map Node.id = some top.id)
    (hstaying : ∀ r ∈ outside (ofLayout old layoutId) gone,
      IsTree (outside (ofLayout old layoutId) gone) top)
    (hi : i < t.size) {x : Int} (hx : (t'.node? i).map Node.id = some x) :
    Below (ofLayout new layoutId) x top.id := by
  induction i using Nat.strongRecOn generalizing x with
  | _ i ih =>
    obtain ⟨r, hr, hrid, hwritten, hkept⟩ := h.exists_row_new hi
    obtain rfl : r.id = x := Option.some.inj (hrid.symm.trans hx)
    by_cases hmem : i ∈ places
    · rcases h.written_parent ht hmem (hwritten hmem) with ⟨rfl, -⟩ | ⟨p, hlt, -, -, hp⟩
      · rw [Option.some.inj (hrid.symm.trans htopId)]
        exact Below.refl _
      · exact (ih p hlt (Nat.lt_trans hlt hi) hp).of_mem hr
    · have hbelow := (hstaying r (hkept hmem)).below_root r (hkept hmem)
      exact hbelow.mono fun q hq ↦ h.mem_new.mpr (Or.inl hq)

theorem parentsIn_new (h : Rewrite layoutId t old new t' gone places) (ht : t.Rooted)
    (hparents : ParentsIn (ofLayout old layoutId)) : ParentsIn (ofLayout new layoutId) := by
  intro r hr hnotRoot
  rcases h.mem_new.mp hr with hstays | ⟨i, hi, hnode⟩
  · obtain ⟨p, hp, hid⟩ := h.parentsIn_staying hparents r hstays hnotRoot
    exact ⟨p, h.mem_new.mpr (Or.inl hp), hid⟩
  · rcases h.written_parent ht hi hnode with ⟨-, hroot⟩ | ⟨p, hlt, -, -, hp⟩
    · rw [hroot] at hnotRoot
      cases hnotRoot
    · obtain ⟨q, hq, hqid, -⟩ := h.exists_row_new (Nat.lt_trans hlt (h.lt_size hi))
      exact ⟨q, hq, Option.some.inj (hqid.symm.trans hp)⟩

/-- The rows of a layout are none or form one tree again. -/
theorem emptyOrTree (h : Rewrite layoutId t old new t' gone places) (hkeyed : Keyed old)
    (htree : EmptyOrTree (ofLayout old layoutId)) (ht : t.Rooted) :
    EmptyOrTree (ofLayout new layoutId) := by
  rcases Nat.eq_zero_or_pos t.size with hempty | hsize
  · exact Or.inl (h.ofLayout_new_of_empty hkeyed htree ht hempty)
  obtain ⟨top, htop, hroot, htopId, hwritten, hstaying⟩ := h.exists_top hkeyed htree ht hsize
  refine Or.inr ⟨top, .of_unique (h.keyed.ofLayout layoutId) htop hroot (fun r hr hisRoot ↦ ?_)
    (h.parentsIn_new ht htree.parentsIn) fun r hr ↦ ?_⟩
  · rcases h.mem_new.mp hr with hr | ⟨i, hi, hnode⟩
    · exact (hstaying r hr).eq_root hr hisRoot
    · rcases h.written_parent ht hi hnode with ⟨rfl, -⟩ | ⟨p, -, -, hnot, -⟩
      · exact Option.some.inj (hnode.symm.trans (hwritten hi))
      · rw [hnot] at hisRoot
        cases hisRoot
  · rcases h.mem_new.mp hr with hr | ⟨i, hi, hnode⟩
    · have hbelow := (hstaying r hr).below_root r hr
      exact hbelow.mono fun q hq ↦ h.mem_new.mpr (Or.inl hq)
    · exact h.below_top ht htopId hstaying (h.lt_size hi) (hnode ▸ rfl)

theorem ofLayout_other (h : Rewrite layoutId t old new t' gone places) (hkeyed : Keyed old)
    {other : Int} (hne : other ≠ layoutId) (hparents : ParentsIn (ofLayout old other)) :
    ofLayout new other = ofLayout old other := by
  have hwritten : ofLayout (places.filterMap t'.node?) other = [] := by
    apply List.filter_eq_nil_iff.mpr
    intro r hr
    obtain ⟨i, hi, hnode⟩ := List.mem_filterMap.mp hr
    obtain ⟨n, id, -, hn⟩ := h.written i hi
    cases hnode.symm.trans hn
    simpa using hne.symm
  have hkept : outside (ofLayout old other) gone = ofLayout old other := by
    apply List.filter_eq_self.mpr
    intro r hr
    suffices hnot : r.id ∉ gone by simpa using hnot
    intro hgone
    obtain ⟨d, hd, hbelow⟩ := h.below_stored r.id hgone
    obtain ⟨hdrow, hdlayout⟩ := mem_ofLayout.mp hd
    have hinside :=
      hkeyed.below_part List.filter_sublist.subset hparents hr (hkeyed.pos d hdrow) hbelow
    obtain ⟨m, hm, hid⟩ := hparents.exists_of_below (hkeyed.pos d hdrow) ⟨r, hr, rfl⟩ hinside
    obtain rfl := hkeyed.eq_of_id_eq (mem_ofLayout.mp hm).1 hdrow hid
    exact hne ((mem_ofLayout.mp hm).2.symm.trans hdlayout)
  rw [h.new_eq, ofLayout_append, hwritten, List.append_nil, ofLayout_outside, hkept]

/-- Every layout keeps its rows or has rows that form one tree again. -/
theorem trees (h : Rewrite layoutId t old new t' gone places) (hkeyed : Keyed old)
    (ht : t.Rooted) {other : Int} (htree : EmptyOrTree (ofLayout old other)) :
    EmptyOrTree (ofLayout new other) := by
  by_cases hsame : other = layoutId
  · rw [hsame] at htree ⊢
    exact h.emptyOrTree hkeyed htree ht
  · rw [h.ofLayout_other hkeyed hsame htree.parentsIn]
    exact htree

end Rewrite

end AddressPlan.NodeTree
