import AddressPlan.NodeTree.Persist
import AddressPlan.Proofs.NodeTree.Preorder

/-!
# What a store has to be told about

A place is dirty if its node is flagged or not among the stored ids.  The topmost dirty
places are those that stand below no other one; they are listed once each, and every dirty
place stands under one of them.
-/

namespace AddressPlan.NodeTree

variable {t : NodeTree} {ids : List Int} {i j top : Nat}

/-- The node at the place is flagged or is not among the stored ids. -/
def Dirty (t : NodeTree) (ids : List Int) (i : Nat) : Prop :=
  ∃ n, t.node? i = some n ∧ (n.modified = true ∨ n.id ∉ ids)

/-- A dirty place that stands below no other one. -/
structure TopmostDirty (t : NodeTree) (ids : List Int) (i : Nat) : Prop where
  dirty : t.Dirty ids i
  clean_above : ∀ j, t.Under i j → j ≠ i → ¬ t.Dirty ids j

theorem isDirty_iff {n : Node} : isDirty ids n = true ↔ n.modified = true ∨ n.id ∉ ids := by
  simp [isDirty]

theorem Holds.dirty_iff {p : Placed} (h : t.Holds p) :
    t.Dirty ids p.place ↔ isDirty ids p.node = true := by
  rw [isDirty_iff, Dirty, show t.node? p.place = some p.node from h]
  simp

theorem Dirty.lt_size (h : t.Dirty ids i) : i < t.size := by
  obtain ⟨n, hn, -⟩ := h
  exact lt_size_iff.mpr ⟨n, hn⟩

theorem topmostDirty_congr {t' : NodeTree} {ids' : List Int}
    (hunder : ∀ j, t'.Under i j ↔ t.Under i j) (hdirty : ∀ j, t'.Dirty ids' j ↔ t.Dirty ids j) :
    t'.TopmostDirty ids' i ↔ t.TopmostDirty ids i := by
  constructor
  · rintro ⟨hi, hclean⟩
    refine ⟨(hdirty i).mp hi, fun j hj hne hjd ↦ ?_⟩
    apply hclean j ((hunder j).mpr hj) hne
    exact (hdirty j).mpr hjd
  · rintro ⟨hi, hclean⟩
    refine ⟨(hdirty i).mpr hi, fun j hj hne hjd ↦ ?_⟩
    apply hclean j ((hunder j).mp hj) hne
    exact (hdirty j).mp hjd

theorem TopmostDirty.eq_of_under (h : t.TopmostDirty ids i) (hj : t.Dirty ids j)
    (hunder : t.Under i j) : j = i := by
  by_contra hne
  exact h.clean_above j hunder hne hj

/-- Nothing stands under two topmost dirty places. -/
theorem TopmostDirty.eq_of_common {k : Nat} (hi : t.TopmostDirty ids i)
    (hj : t.TopmostDirty ids j) (hki : t.Under k i) (hkj : t.Under k j) : i = j := by
  rcases hki.total hkj with hij | hji
  · exact (hi.eq_of_under hj.dirty hij).symm
  · exact hj.eq_of_under hi.dirty hji

theorem Rooted.exists_topmostDirty (h : t.Rooted) (hi : t.Dirty ids i) :
    ∃ j, t.Under i j ∧ t.TopmostDirty ids j := by
  induction i using Nat.strongRecOn with
  | _ i ih =>
    by_cases habove : ∃ j, t.Under i j ∧ j ≠ i ∧ t.Dirty ids j
    · obtain ⟨j, hunder, hne, hj⟩ := habove
      have hle := h.le_of_under hunder
      obtain ⟨k, hk, htop⟩ := ih j (by omega) hj
      exact ⟨k, hunder.trans hk, htop⟩
    · exact ⟨i, Under.refl i, hi, fun j hunder hne hj ↦ habove ⟨j, hunder, hne, hj⟩⟩

/-! ## The list of topmost dirty places -/

theorem dirtyAmong_eq_flatMap (ids : List Int) (ts : List (Rose Placed)) :
    dirtyAmong ids ts = ts.flatMap (dirtyIn ids) := by
  induction ts with
  | nil => rfl
  | cons t ts ih => rw [dirtyAmong, ih, List.flatMap_cons]

theorem dirtyIn_branch (t : NodeTree) (ids : List Int) (p : Placed) :
    dirtyIn ids (t.branch p) =
      if isDirty ids p.node then [p]
      else (t.children p.place).flatMap fun c ↦ dirtyIn ids (t.branch c) := by
  rw [branch_eq, dirtyIn, dirtyAmong_eq_flatMap, List.flatMap_map]

theorem clean_above_child (hparent : t.parent? j = some i) (hi : ¬ t.Dirty ids i)
    (hclean : ∀ k, t.Under i k → k ≠ i → ¬ t.Dirty ids k) :
    ∀ k, t.Under j k → k ≠ j → ¬ t.Dirty ids k := by
  intro k hjk hne
  rcases under_iff.mp hjk with rfl | ⟨q, hq, hqk⟩
  · exact absurd rfl hne
  · cases hparent.symm.trans hq
    by_cases hki : k = i
    · exact hki ▸ hi
    · exact hclean k hqk hki

/-- Below a place with nothing dirty above it, exactly the topmost dirty ones are listed. -/
theorem Rooted.mem_dirtyIn (h : t.Rooted) {p x : Placed} (hp : t.Holds p)
    (hclean : ∀ j, t.Under p.place j → j ≠ p.place → ¬ t.Dirty ids j) :
    x ∈ dirtyIn ids (t.branch p) ↔
      t.Holds x ∧ t.Under x.place p.place ∧ t.TopmostDirty ids x.place := by
  induction p using branch_induction t with
  | h p ih =>
    rw [dirtyIn_branch]
    by_cases hdirty : isDirty ids p.node = true
    · have hpd : t.Dirty ids p.place := hp.dirty_iff.mpr hdirty
      rw [if_pos hdirty, List.mem_singleton]
      constructor
      · rintro rfl
        exact ⟨hp, Under.refl _, hpd, hclean⟩
      · rintro ⟨hx, hunder, htop⟩
        exact hx.eq_of_place_eq hp (htop.eq_of_under hpd hunder).symm
    · have hpc : ¬ t.Dirty ids p.place := fun hpd ↦ hdirty (hp.dirty_iff.mp hpd)
      rw [if_neg hdirty, List.mem_flatMap]
      constructor
      · rintro ⟨c, hc, hx⟩
        obtain ⟨hholds, hparent⟩ := h.mem_children.mp hc
        obtain ⟨hx, hunder, htop⟩ := (ih c hc hholds (clean_above_child hparent hpc hclean)).mp hx
        exact ⟨hx, hunder.trans (Under.of_parent hparent), htop⟩
      · rintro ⟨hx, hunder, htop⟩
        rcases hunder.cases_child with heq | ⟨i, hi, hparent⟩
        · exact absurd (heq ▸ htop.dirty) hpc
        · obtain ⟨n, hn⟩ := lt_size_iff.mp (lt_size_of_parent? hparent)
          have hc : ⟨i, n⟩ ∈ t.children p.place := h.mem_children.mpr ⟨hn, hparent⟩
          have hbelow := ih _ hc hn (clean_above_child hparent hpc hclean)
          exact ⟨_, hc, hbelow.mpr ⟨hx, hi, htop⟩⟩

mutual
theorem dirtyIn_sublist (ids : List Int) :
    ∀ r : Rose Placed, (dirtyIn ids r).Sublist r.preorder
  | .node p ts => by
    unfold dirtyIn Rose.preorder
    split
    · exact (List.nil_sublist _).cons_cons p
    · exact (dirtyAmong_sublist ids ts).cons p

theorem dirtyAmong_sublist (ids : List Int) :
    ∀ ts : List (Rose Placed), (dirtyAmong ids ts).Sublist (Rose.preorderAll ts)
  | [] => List.Sublist.refl _
  | t :: ts => (dirtyIn_sublist ids t).append (dirtyAmong_sublist ids ts)
end

theorem dirtyTops_eq (t : NodeTree) (ids : List Int) :
    t.dirtyTops ids = t.root?.toList.flatMap fun root ↦ dirtyIn ids (t.branch ⟨0, root⟩) := by
  rw [dirtyTops, branch?_toList, dirtyAmong_eq_flatMap, List.flatMap_map]

theorem Rooted.mem_dirtyTops (h : t.Rooted) {x : Placed} :
    x ∈ t.dirtyTops ids ↔ t.Holds x ∧ t.TopmostDirty ids x.place := by
  have hzero : ∀ {j}, t.Under 0 j → j = 0 := fun hj ↦ Nat.le_zero.mp (h.le_of_under hj)
  rw [dirtyTops_eq, List.mem_flatMap]
  constructor
  · rintro ⟨root, hroot, hx⟩
    rw [Option.mem_toList, root?_eq_node?] at hroot
    obtain ⟨hx, -, htop⟩ :=
      (h.mem_dirtyIn (p := ⟨0, root⟩) hroot fun j hj hne ↦ absurd (hzero hj) hne).mp hx
    exact ⟨hx, htop⟩
  · rintro ⟨hx, htop⟩
    have hsize := htop.dirty.lt_size
    obtain ⟨root, hroot⟩ := lt_size_iff.mp (Nat.zero_lt_of_lt hsize)
    refine ⟨root, by rwa [Option.mem_toList, root?_eq_node?], ?_⟩
    exact (h.mem_dirtyIn (p := ⟨0, root⟩) hroot fun j hj hne ↦ absurd (hzero hj) hne).mpr
      ⟨hx, h.under_zero hsize, htop⟩

theorem Rooted.dirtyTops_nodup (h : t.Rooted) (ids : List Int) :
    ((t.dirtyTops ids).map Placed.place).Nodup := by
  rw [dirtyTops_eq]
  cases hroot : t.root? with
  | none => exact List.nodup_nil
  | some root =>
    rw [root?_eq_node?] at hroot
    simp only [Option.toList_some, List.flatMap_cons, List.flatMap_nil, List.append_nil]
    exact (h.preorder_nodup (p := ⟨0, root⟩) hroot).sublist ((dirtyIn_sublist ids _).map _)

/-! ## Everything below a place -/

theorem placesBelow_congr {t' : NodeTree}
    (h : t'.slots.map Slot.parent = t.slots.map Slot.parent) (top : Nat) :
    t'.placesBelow top = t.placesBelow top := by
  have hfold : ∀ t : NodeTree, t.placesBelow top =
      (t.slots.map Slot.parent).zipIdx.foldl (fun places (parent, i) ↦
        if i = top ∨ parent.any (· ∈ places) then places ++ [i] else places) [] := by
    intro t
    rw [List.zipIdx_map, List.foldl_map]
    rfl
  rw [hfold, hfold, h]

def placesBelowTo (t : NodeTree) (top k : Nat) : List Nat :=
  (t.slots.zipIdx.take k).foldl
    (fun places (s, i) ↦
      if i = top ∨ s.parent.any (· ∈ places) then places ++ [i] else places) []

theorem placesBelowTo_size (t : NodeTree) (top : Nat) :
    t.placesBelowTo top t.size = t.placesBelow top := by
  rw [placesBelowTo, List.take_of_length_le (by simp [size])]
  rfl

theorem placesBelowTo_succ {k : Nat} {s : Slot} (hs : t.slots[k]? = some s) :
    t.placesBelowTo top (k + 1) =
      if k = top ∨ s.parent.any (· ∈ t.placesBelowTo top k) then t.placesBelowTo top k ++ [k]
      else t.placesBelowTo top k := by
  have hk : t.slots.zipIdx[k]? = some (s, k) := by simp [hs]
  rw [placesBelowTo, List.take_add_one, hk, List.foldl_append]
  rfl

/-- The test of one round looks at the parent only, which was listed before if it stands
under `top`. -/
theorem Rooted.test_iff_under (h : t.Rooted) {k : Nat} {s : Slot} (hs : t.slots[k]? = some s)
    (hlisted : ∀ {i}, i ∈ t.placesBelowTo top k ↔ i < k ∧ t.Under i top) :
    (k = top ∨ s.parent.any (· ∈ t.placesBelowTo top k)) ↔ t.Under k top := by
  rw [under_iff]
  apply or_congr_right
  have hparent : t.parent? k = s.parent := by simp [parent?, hs]
  cases hp : s.parent with
  | none => simp [hparent, hp]
  | some p =>
    have hlt := h.lt_of_parent? (hparent.trans hp)
    simp [hparent, hp, hlisted, hlt]

theorem Rooted.mem_placesBelowTo (h : t.Rooted) {k : Nat} (hk : k ≤ t.size) :
    i ∈ t.placesBelowTo top k ↔ i < k ∧ t.Under i top := by
  induction k generalizing i with
  | zero => simp [placesBelowTo]
  | succ k ih =>
    have hs := List.getElem?_eq_getElem hk
    have hunder := h.test_iff_under hs (ih (Nat.le_of_succ_le hk))
    rw [placesBelowTo_succ hs]
    by_cases hcond : t.Under k top
    · rw [if_pos (hunder.mpr hcond), List.mem_append, List.mem_singleton,
        ih (Nat.le_of_succ_le hk)]
      constructor
      · rintro (⟨hlt, hi⟩ | rfl)
        · exact ⟨by omega, hi⟩
        · exact ⟨by omega, hcond⟩
      · rintro ⟨hlt, hi⟩
        rcases Nat.lt_succ_iff_lt_or_eq.mp hlt with hlt | rfl
        · exact Or.inl ⟨hlt, hi⟩
        · exact Or.inr rfl
    · rw [if_neg fun hc ↦ hcond (hunder.mp hc), ih (Nat.le_of_succ_le hk)]
      constructor
      · rintro ⟨hlt, hi⟩
        exact ⟨by omega, hi⟩
      · rintro ⟨hlt, hi⟩
        rcases Nat.lt_succ_iff_lt_or_eq.mp hlt with hlt | rfl
        · exact ⟨hlt, hi⟩
        · exact absurd hi hcond

theorem Rooted.mem_placesBelow (h : t.Rooted) :
    i ∈ t.placesBelow top ↔ i < t.size ∧ t.Under i top := by
  rw [← placesBelowTo_size, h.mem_placesBelowTo (Nat.le_refl _)]

theorem Rooted.placesBelow_pairwise (h : t.Rooted) (top : Nat) :
    (t.placesBelow top).Pairwise (· < ·) := by
  suffices hto : ∀ k ≤ t.size, (t.placesBelowTo top k).Pairwise (· < ·) by
    exact placesBelowTo_size t top ▸ hto t.size (Nat.le_refl _)
  intro k hk
  induction k with
  | zero => simp [placesBelowTo]
  | succ k ih =>
    rw [placesBelowTo_succ (List.getElem?_eq_getElem hk)]
    split
    · rw [List.pairwise_append]
      refine ⟨ih (Nat.le_of_succ_le hk), List.pairwise_singleton _ _, fun a ha b hb ↦ ?_⟩
      rw [List.mem_singleton.mp hb]
      exact ((h.mem_placesBelowTo (Nat.le_of_succ_le hk)).mp ha).1
    · exact ih (Nat.le_of_succ_le hk)

theorem Rooted.placesBelow_zero (h : t.Rooted) : t.placesBelow 0 = List.range t.size := by
  refine List.Perm.eq_of_pairwise (fun a b _ _ hab hba ↦ absurd hab (Nat.lt_asymm hba))
    (h.placesBelow_pairwise 0) List.pairwise_lt_range ?_
  refine (List.perm_ext_iff_of_nodup ((h.placesBelow_pairwise 0).imp Nat.ne_of_lt)
    List.nodup_range).mpr fun i ↦ ?_
  rw [h.mem_placesBelow, List.mem_range]
  exact and_iff_left_of_imp h.under_zero

theorem Rooted.mem_placesBelow_zero (h : t.Rooted) {i : Nat} :
    i ∈ t.placesBelow 0 ↔ i < t.size := by
  rw [h.placesBelow_zero, List.mem_range]

end AddressPlan.NodeTree
