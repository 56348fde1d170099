import AddressPlan.Proofs.Layout.Update

/-!
# Rows that go and places that are written

For a layout whose rows are none or one tree the passes of an update come down to two
notions.  A row is removed if the root was replaced or if it is stored below a topmost dirty
node.  A place is rewritten if it or one above it is flagged or has no row left.
-/

namespace AddressPlan

namespace NodeTree

open Rows

/-- A stored root is not the root of the tree any more. -/
def RootReplaced (t : NodeTree) (stored : List Node) : Prop :=
  ∃ r ∈ stored, r.isRoot = true ∧ t.root?.map Node.id ≠ some r.id

/-- The row is stored at or below the row of a topmost dirty node. -/
def BelowTopmostDirty (t : NodeTree) (stored : List Node) (r : Node) : Prop :=
  ∃ i n, t.TopmostDirty (stored.map Node.id) i ∧ t.node? i = some n ∧
    n.id ∈ stored.map Node.id ∧ Below stored r.id n.id

/-- The row goes away when the rows are made to follow the tree. -/
def Removed (t : NodeTree) (stored : List Node) (r : Node) : Prop :=
  t.RootReplaced stored ∨ t.BelowTopmostDirty stored r

/-- The place is written anew: it or one above it is flagged or has no row left. -/
def Rewritten (t : NodeTree) (stored : List Node) (i : Nat) : Prop :=
  ∃ j n, t.Under i j ∧ t.node? j = some n ∧
    (n.modified = true ∨ ∀ r ∈ stored, r.id = n.id → t.Removed stored r)

/-- The rows of a layout were made to follow the tree `t`.  The rows under `gone` went away,
and `places` were written, after which the nodes of `t'` agree with their rows. -/
structure Rewrite (layoutId : Int) (t : NodeTree) (old new : List Node) (t' : NodeTree)
    (gone : List Int) (places : List Nat) : Prop where
  keyed : Keyed new
  new_eq : new = outside old gone ++ places.filterMap t'.node?
  mem_gone : ∀ r ∈ ofLayout old layoutId, r.id ∈ gone ↔ t.Removed (ofLayout old layoutId) r
  below_stored : ∀ i ∈ gone, ∃ d ∈ ofLayout old layoutId, Below old i d.id
  nodup : places.Nodup
  mem_places : ∀ i, i ∈ places ↔ t.Rewritten (ofLayout old layoutId) i
  parent? : ∀ i, t'.parent? i = t.parent? i
  kept : ∀ i, i ∉ places → t'.node? i = t.node? i
  written : ∀ i ∈ places, ∃ n id, t.node? i = some n ∧
    t'.node? i = some { n with id, layoutId, parentId := t'.parentIdAt i, modified := false }

variable {t t' : NodeTree} {ids ids' : List Int} {stored old new : List Node} {layoutId : Int}
  {gone : List Int} {places : List Nat}

theorem TopmostDirty.congr (hids : ∀ x, x ∈ ids ↔ x ∈ ids') {i : Nat} :
    t.TopmostDirty ids i ↔ t.TopmostDirty ids' i := by
  refine topmostDirty_congr (fun _ ↦ Iff.rfl) fun j ↦ ?_
  simp only [Dirty, hids]

theorem Removed.of_parent {r p : Node} (hr : r ∈ stored) (hid : p.id = r.parentId)
    (hp : t.Removed stored p) : t.Removed stored r := by
  rcases hp with hroot | ⟨i, n, htop, hn, hmem, hbelow⟩
  · exact Or.inl hroot
  · exact Or.inr ⟨i, n, htop, hn, hmem, (hid ▸ hbelow).of_mem hr⟩

theorem Rewritten.of_under {i j : Nat} (h : t.Rewritten stored i) (hunder : t.Under j i) :
    t.Rewritten stored j := by
  obtain ⟨k, n, hk, hrest⟩ := h
  exact ⟨k, n, hunder.trans hk, hrest⟩

namespace Relabelled

theorem rootReplaced_iff (h : Relabelled t t') :
    t'.RootReplaced stored ↔ t.RootReplaced stored := by
  have hroot : t'.root?.map Node.id = t.root?.map Node.id := by
    obtain ⟨cidr, value, hnode⟩ := h.node? 0
    rw [root?_eq_node?, root?_eq_node?, hnode, Option.map_map]
    rfl
  rw [RootReplaced, RootReplaced, hroot]

theorem belowTopmostDirty_iff (h : Relabelled t t') {r : Node} :
    t'.BelowTopmostDirty stored r ↔ t.BelowTopmostDirty stored r := by
  apply exists_congr
  intro i
  simp only [exists_and_left, h.topmostDirty_iff]
  exact and_congr_right fun _ ↦ h.exists_node_iff fun _ _ _ ↦ Iff.rfl

theorem removed_iff (h : Relabelled t t') {r : Node} :
    t'.Removed stored r ↔ t.Removed stored r :=
  or_congr h.rootReplaced_iff h.belowTopmostDirty_iff

theorem rewritten_iff (h : Relabelled t t') {i : Nat} :
    t'.Rewritten stored i ↔ t.Rewritten stored i := by
  apply exists_congr
  intro j
  simp only [exists_and_left, h.sameShape.under_iff, h.removed_iff]
  exact and_congr_right fun _ ↦ h.exists_node_iff fun _ _ _ ↦ Iff.rfl

end Relabelled

/-! ## What a rewrite leaves -/

namespace Rewrite

theorem mem_staying (h : Rewrite layoutId t old new t' gone places) {r : Node} :
    r ∈ outside (ofLayout old layoutId) gone ↔
      r ∈ ofLayout old layoutId ∧ ¬ t.Removed (ofLayout old layoutId) r := by
  rw [mem_outside]
  exact and_congr_right fun hr ↦ not_congr (h.mem_gone r hr)

theorem lt_size (h : Rewrite layoutId t old new t' gone places) {i : Nat} (hi : i ∈ places) :
    i < t.size := by
  obtain ⟨n, -, hn, -⟩ := h.written i hi
  exact lt_size_iff.mpr ⟨n, hn⟩

theorem ofLayout_new (h : Rewrite layoutId t old new t' gone places) :
    ofLayout new layoutId =
      outside (ofLayout old layoutId) gone ++ places.filterMap t'.node? := by
  have hwritten : ofLayout (places.filterMap t'.node?) layoutId = places.filterMap t'.node? := by
    apply List.filter_eq_self.mpr
    intro r hr
    obtain ⟨i, hi, hnode⟩ := List.mem_filterMap.mp hr
    obtain ⟨n, id, -, hn⟩ := h.written i hi
    cases hnode.symm.trans hn
    exact beq_self_eq_true layoutId
  rw [h.new_eq, ofLayout_append, ofLayout_outside, hwritten]

theorem mem_new (h : Rewrite layoutId t old new t' gone places) {r : Node} :
    r ∈ ofLayout new layoutId ↔
      r ∈ outside (ofLayout old layoutId) gone ∨ ∃ i ∈ places, t'.node? i = some r := by
  rw [h.ofLayout_new, List.mem_append, List.mem_filterMap]

/-- A row that was written is none that stayed. -/
theorem not_staying (h : Rewrite layoutId t old new t' gone places) {r : Node} {i : Nat}
    (hi : i ∈ places) (hnode : t'.node? i = some r) :
    r ∉ outside (ofLayout old layoutId) gone := by
  intro hr
  rw [← ofLayout_outside] at hr
  have hkeyed := h.keyed
  rw [h.new_eq] at hkeyed
  have hnodup := hkeyed.nodup
  rw [List.map_append, List.nodup_append] at hnodup
  exact hnodup.2.2 r.id (List.mem_map.mpr ⟨r, (mem_ofLayout.mp hr).1, rfl⟩) r.id
    (List.mem_map.mpr ⟨r, List.mem_filterMap.mpr ⟨i, hi, hnode⟩, rfl⟩) rfl

theorem old_or_written (h : Rewrite layoutId t old new t' gone places) {r : Node}
    (hr : r ∈ new) : r ∈ old ∨ r.layoutId = layoutId ∧ r.modified = false := by
  rw [h.new_eq, List.mem_append, List.mem_filterMap] at hr
  rcases hr with hr | ⟨i, hi, hnode⟩
  · exact Or.inl (List.mem_of_mem_filter hr)
  · obtain ⟨n, id, -, hn⟩ := h.written i hi
    cases hnode.symm.trans hn
    exact Or.inr ⟨rfl, rfl⟩

theorem sameShape (h : Rewrite layoutId t old new t' gone places) : SameShape t t' where
  parent? := h.parent?
  node? := by
    intro i
    by_cases hi : i ∈ places
    · obtain ⟨n, id, hn, hn'⟩ := h.written i hi
      exact iff_of_true ⟨_, hn'⟩ ⟨_, hn⟩
    · rw [h.kept i hi]

/-- A place that is not written still has its old row. -/
theorem exists_row (h : Rewrite layoutId t old new t' gone places) {i : Nat} {n : Node}
    (hi : i ∉ places) (hn : t.node? i = some n) :
    ∃ r ∈ outside (ofLayout old layoutId) gone, r.id = n.id := by
  by_contra hnone
  apply hi
  apply (h.mem_places i).mpr
  refine ⟨i, n, Under.refl i, hn, Or.inr fun r hr hid ↦ ?_⟩
  by_contra hstays
  exact hnone ⟨r, h.mem_staying.mpr ⟨hr, hstays⟩, hid⟩

end Rewrite

end NodeTree

namespace Layout

open Rows LawfulStore NodeTree

variable {old stored : List Node} {layoutId : Int} {t : NodeTree} {gone more : List Int}

theorem mem_inOrder {rows : List Node} {n : Node} : n ∈ inOrder rows ↔ n ∈ rows :=
  (Order.sortBy_perm _ rows).mem_iff

theorem mem_storedIds {x : Int} :
    x ∈ storedIds old layoutId ↔ x ∈ (ofLayout old layoutId).map Node.id := by
  simp only [storedIds, List.mem_map, mem_inOrder]

theorem mem_staleRoots {root : Option Int} {rows : List Node} {d : Int} :
    d ∈ staleRoots root (inOrder rows) ↔
      ∃ r ∈ rows, r.isRoot = true ∧ root ≠ some r.id ∧ r.id = d := by
  simp only [staleRoots, List.mem_map, List.mem_filter, mem_inOrder, Bool.and_eq_true,
    bne_iff_ne, ne_eq]
  constructor
  · rintro ⟨r, ⟨hr, hroot, hne⟩, rfl⟩
    exact ⟨r, hr, hroot, fun heq ↦ hne heq.symm, rfl⟩
  · rintro ⟨r, hr, hroot, hne, rfl⟩
    exact ⟨r, ⟨hr, hroot, fun heq ↦ hne heq.symm⟩, rfl⟩

variable {r : Node}

theorem mem_gone_of_rootReplaced (htree : EmptyOrTree (ofLayout old layoutId))
    (hstale : AreBelow old
      (staleRoots (t.root?.map Node.id) (inOrder (ofLayout old layoutId))) gone)
    (hreplaced : t.RootReplaced (ofLayout old layoutId)) (hr : r ∈ ofLayout old layoutId) :
    r.id ∈ gone := by
  obtain ⟨stale, hstored, hisRoot, hne⟩ := hreplaced
  rcases htree with hnil | ⟨root, hroot⟩
  · rw [hnil] at hr
    cases hr
  · obtain rfl := hroot.eq_root hstored hisRoot
    apply (hstale r.id).mpr
    refine ⟨⟨r, (mem_ofLayout.mp hr).1, rfl⟩, stale.id, ?_, ?_⟩
    · exact mem_staleRoots.mpr ⟨stale, hstored, hisRoot, hne, rfl⟩
    · exact (hroot.below_root r hr).mono List.filter_sublist.subset

theorem staleRoots_eq_nil (hkept : ¬ t.RootReplaced stored) :
    staleRoots (t.root?.map Node.id) (inOrder stored) = [] := by
  apply List.eq_nil_iff_forall_not_mem.mpr
  intro d hd
  obtain ⟨root, hroot, hisRoot, hne, -⟩ := mem_staleRoots.mp hd
  exact hkept ⟨root, hroot, hisRoot, hne⟩

/-- The rows that the second pass takes away if the first one took none. -/
theorem mem_more_iff {ids : List Int} (hkeyed : Keyed old)
    (hparents : ParentsIn (ofLayout old layoutId)) (ht : t.Rooted)
    (hids : ∀ x, x ∈ ids ↔ x ∈ (ofLayout old layoutId).map Node.id)
    (hdoomed : AreBelow old (t.doomedTops ids) more) (hr : r ∈ ofLayout old layoutId) :
    r.id ∈ more ↔ t.BelowTopmostDirty (ofLayout old layoutId) r := by
  have hrow : ∃ n ∈ old, n.id = r.id := ⟨r, (mem_ofLayout.mp hr).1, rfl⟩
  rw [hdoomed r.id, and_iff_right hrow]
  constructor
  · rintro ⟨d, hd, hbelow⟩
    obtain ⟨hstored, i, n, hn, rfl, htop⟩ := ht.mem_doomedTops.mp hd
    have hmem := (hids n.id).mp hstored
    obtain ⟨m, hm, hid⟩ := List.mem_map.mp hmem
    have hpos : 0 < n.id := hid ▸ hkeyed.pos m (mem_ofLayout.mp hm).1
    have hinside := hkeyed.below_part List.filter_sublist.subset hparents hr hpos hbelow
    exact ⟨i, n, (TopmostDirty.congr hids).mp htop, hn, hmem, hinside⟩
  · rintro ⟨i, n, htop, hn, hmem, hbelow⟩
    refine ⟨n.id, ht.mem_doomedTops.mpr ⟨(hids n.id).mpr hmem, i, n, hn, rfl, ?_⟩, ?_⟩
    · exact (TopmostDirty.congr hids).mpr htop
    · exact hbelow.mono List.filter_sublist.subset

theorem mem_gone_iff (hkeyed : Keyed old)
    (htree : EmptyOrTree (ofLayout old layoutId)) (ht : t.Rooted)
    (hstale : AreBelow old
      (staleRoots (t.root?.map Node.id) (inOrder (ofLayout old layoutId))) gone)
    (hdoomed : AreBelow (outside old gone)
      (t.doomedTops ((storedIds old layoutId).filter (!gone.contains ·))) more)
    (hr : r ∈ ofLayout old layoutId) :
    r.id ∈ gone ++ more ↔ t.Removed (ofLayout old layoutId) r := by
  by_cases hreplaced : t.RootReplaced (ofLayout old layoutId)
  · have hgone := mem_gone_of_rootReplaced htree hstale hreplaced hr
    exact iff_of_true (List.mem_append_left _ hgone) (Or.inl hreplaced)
  · rw [staleRoots_eq_nil hreplaced] at hstale
    obtain rfl := hstale.eq_nil
    rw [outside_nil] at hdoomed
    rw [List.nil_append, Removed, or_iff_right hreplaced]
    apply mem_more_iff hkeyed htree.parentsIn ht ?_ hdoomed hr
    intro x
    rw [← mem_storedIds]
    simp

variable {σ : Type} [Store σ] [LawfulStore σ]

theorem mem_live_iff {x : Int}
    (hgone : ∀ r ∈ ofLayout old layoutId,
      r.id ∈ gone ++ more ↔ t.Removed (ofLayout old layoutId) r) :
    x ∈ ((storedIds old layoutId).filter (!gone.contains ·)).filter (!more.contains ·) ↔
      ∃ r ∈ ofLayout old layoutId, r.id = x ∧ ¬ t.Removed (ofLayout old layoutId) r := by
  simp only [List.mem_filter, mem_storedIds, List.mem_map, List.contains_eq_mem,
    Bool.not_eq_true', decide_eq_false_iff_not]
  constructor
  · rintro ⟨⟨⟨r, hr, rfl⟩, hnotGone⟩, hnotMore⟩
    refine ⟨r, hr, rfl, fun hremoved ↦ ?_⟩
    rcases List.mem_append.mp ((hgone r hr).mpr hremoved) with h | h
    · exact hnotGone h
    · exact hnotMore h
  · rintro ⟨r, hr, rfl, hstays⟩
    have hnot : r.id ∉ gone ++ more := fun hmem ↦ hstays ((hgone r hr).mp hmem)
    rw [List.mem_append, not_or] at hnot
    exact ⟨⟨⟨r, hr, rfl⟩, hnot.1⟩, hnot.2⟩

theorem Passes.rewrite {before between : σ} {after : NodeTree × σ} {places : List Nat}
    (h : Passes layoutId t before between after gone more places)
    (hs : Sound before) (htree : EmptyOrTree (ofLayout (rows before) layoutId)) (ht : t.Rooted) :
    Rewrite layoutId t (rows before) (rows after.2) after.1 (gone ++ more) places where
  keyed := keyed h.wrote.sound
  new_eq := by rw [h.wrote.rows_eq, h.rows_between, outside_outside]
  mem_gone := fun r hr ↦ mem_gone_iff (keyed hs) htree ht h.stale h.doomed hr
  below_stored := by
    intro i hi
    rcases List.mem_append.mp hi with hi | hi
    · obtain ⟨-, d, hd, hbelow⟩ := (h.stale i).mp hi
      obtain ⟨r, hr, -, -, rfl⟩ := mem_staleRoots.mp hd
      exact ⟨r, hr, hbelow⟩
    · obtain ⟨-, d, hd, hbelow⟩ := (h.doomed i).mp hi
      obtain ⟨r, hr, rfl⟩ := List.mem_map.mp
        (mem_storedIds.mp (List.mem_of_mem_filter (ht.mem_doomedTops.mp hd).1))
      exact ⟨r, hr, hbelow.mono List.filter_sublist.subset⟩
  nodup := h.nodup
  mem_places := by
    intro i
    have hgone := fun r hr ↦ mem_gone_iff (keyed hs) htree ht h.stale h.doomed (r := r) hr
    rw [h.mem_places]
    constructor
    · rintro ⟨j, hunder, n, hn, hdirty⟩
      refine ⟨j, n, hunder, hn, hdirty.imp_right fun hlost r hr hid ↦ ?_⟩
      by_contra hstays
      exact hlost ((mem_live_iff hgone).mpr ⟨r, hr, hid, hstays⟩)
    · rintro ⟨j, n, hunder, hn, hdirty⟩
      refine ⟨j, hunder, n, hn, hdirty.imp_right fun hlost hlive ↦ ?_⟩
      obtain ⟨r, hr, hid, hstays⟩ := (mem_live_iff hgone).mp hlive
      exact hstays (hlost r hr hid)
  parent? := h.wrote.parent?
  kept := h.wrote.kept
  written := h.wrote.written

/-- An update that is carried out finds the plan, has one tree of nodes or none, and makes
the rows follow the tree of the request. -/
theorem exists_rewrite_of_update {l l' : Layout} {s s' : σ} (hs : Sound s)
    (htree : EmptyOrTree (ofLayout (rows s) l.header.id))
    (hrun : update.run (l, s) = (.ok (), (l', s'))) :
    ∃ plan s₀, (Store.plan? l.header.planId).run s = (.ok (some plan), s₀) ∧
      (l.nodes = [] ∨ l.dropTree.OneTree) ∧ Sound s' ∧
      ∃ t' gone places,
        Rewrite l.header.id (l.requestTree plan) (rows s) (rows s') t' gone places := by
  obtain ⟨plan, s₀, hplan, hok, between, after, gone, more, places, hpasses, hs', hrows⟩ :=
    run_update_eq_ok hs hrun
  refine ⟨plan, s₀, hplan, hok, hs', after.1, gone ++ more, places, ?_⟩
  rw [hrows]
  exact hpasses.rewrite hs htree (rooted_requestTree plan l)

end Layout

end AddressPlan
