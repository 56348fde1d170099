import AddressPlan.Proofs.Layout.Duplicates
import AddressPlan.Proofs.NodeTree.WrittenIds

/-!
# Reconciling rewrites what is flagged

Of the rows of a layout only those go away that are stored at or below a topmost dirty node.
What is inserted is new apart from the heads of the rewritten subtrees, which keep the ids
they were stored under.  A tree that is stored as it is makes no request to the store.
-/

namespace AddressPlan.NodeTree

open Rows LawfulStore LawfulHeaders Layout

variable {σ : Type} [Store σ] {layoutId : Int} {t t' : NodeTree} {stored live : List Int}
  {s s' : σ} {i : Nat} {n : Node}

/-- The place is written, but not the one that it hangs off. -/
def Heads (t : NodeTree) (written : List Nat) (i : Nat) : Prop :=
  i ∈ written ∧ ∀ p, t.parent? i = some p → p ∉ written

/-- The heads of what is written are the topmost dirty places, and those of them keep their ids
whose ids are stored. -/
theorem Rooted.mark_eq_true_iff (ht : t.Rooted) {keepId : Bool}
    (hmark : (i, keepId) ∈ t.markedBelow stored (t.dirtyTops live)) (hn : t.node? i = some n) :
    keepId = true ↔
      t.Heads ((t.markedBelow stored (t.dirtyTops live)).map Prod.fst) i ∧ n.id ∈ stored := by
  have hwritten : i ∈ (t.markedBelow stored (t.dirtyTops live)).map Prod.fst :=
    List.mem_map.mpr ⟨_, hmark, rfl⟩
  constructor
  · rintro rfl
    obtain ⟨q, hq, rfl, hstored⟩ := ht.exists_top_of_marked hmark rfl
    obtain ⟨hholds, htop⟩ := ht.mem_dirtyTops.mp hq
    cases hn.symm.trans (show t.node? q.place = some q.node from hholds)
    refine ⟨⟨hwritten, fun p hp hmem ↦ ?_⟩, hstored⟩
    obtain ⟨j, hunder, hdirty⟩ := ht.mem_places_markedBelow.mp hmem
    have hle := ht.le_of_under hunder
    have hlt := ht.lt_of_parent? hp
    exact htop.clean_above j ((Under.of_parent hp).trans hunder) (by omega) hdirty
  · rintro ⟨⟨-, hheads⟩, hstored⟩
    obtain ⟨q, hq, hmark⟩ := List.mem_flatMap.mp hmark
    obtain ⟨-, hunder, hkeep⟩ := (mem_marked ht).mp hmark
    obtain ⟨hholds, htop⟩ := ht.mem_dirtyTops.mp hq
    rcases under_iff.mp hunder with rfl | ⟨p, hp, hpq⟩
    · cases hn.symm.trans (show t.node? q.place = some q.node from hholds)
      refine hkeep.trans ?_
      rw [List.contains_iff_mem.mpr hstored, Bool.true_and, beq_iff_eq]
    · exact absurd (ht.mem_places_markedBelow.mpr ⟨q.place, hpq, htop.dirty⟩) (hheads p hp)

/-! ## Nothing to do -/

theorem Rooted.dirtyTops_eq_nil (ht : t.Rooted)
    (hclean : ∀ n ∈ t.flatten, n.modified = false ∧ n.id ∈ stored) : t.dirtyTops stored = [] := by
  refine List.eq_nil_iff_forall_not_mem.mpr fun q hq ↦ ?_
  obtain ⟨n, hn, hdirty⟩ := (ht.mem_dirtyTops.mp hq).2.dirty
  obtain ⟨hflag, hmem⟩ := hclean n (mem_flatten.mpr ⟨_, hn⟩)
  rcases hdirty with hflagged | hlost
  · cases hflag.symm.trans hflagged
  · exact hlost hmem

/-- A tree without flags whose ids are all stored is left to itself: whatever the store is, it
gets no request. -/
theorem Rooted.run_reconcile_of_clean (ht : t.Rooted)
    (hclean : ∀ n ∈ t.flatten, n.modified = false ∧ n.id ∈ stored) (s : σ) :
    (reconcile layoutId stored).run (t, s) = (.ok {}, (t, s)) := by
  have hnil := ht.dirtyTops_eq_nil hclean
  have hdelete : (deleteStored (σ := σ) stored (t.dirtyTops stored)).run (t, s) =
      (.ok stored, (t, s)) := by
    rw [hnil]
    rfl
  rw [reconcile, Step.run_bind_ok (Step.run_get _)]
  dsimp only
  rw [Step.run_bind_ok hdelete, hnil]
  rfl

/-! ## What is rewritten -/

variable [LawfulStore σ] [LawfulHeaders σ]

/-- From `p` to `p'` the rows of a layout were made to follow the tree: those under `gone` were
deleted, and the nodes at `written` inserted, which agree with their rows now. -/
structure Reconciled (layoutId : Int) (stored : List Int) (p p' : NodeTree × σ)
    (gone : List Int) (written : List Nat) : Prop where
  sound : Sound p'.2
  last_le : (last p.2).2 ≤ (last p'.2).2
  mem_gone : AreBelow (rows p.2) (p.1.doomedTops stored) gone
  rows_eq : rows p'.2 = outside (rows p.2) gone ++ written.filterMap p'.1.node?
  nodup : written.Nodup
  mem_written : ∀ i, i ∈ written ↔ p.1.BelowDirty (stored.filter (!gone.contains ·)) i
  unwritten : ∀ i, i ∉ written → p'.1.node? i = p.1.node? i
  written : ∀ i ∈ written, ∃ n id, p.1.node? i = some n ∧
    p'.1.node? i = some { n with id, layoutId, parentId := p'.1.parentIdAt i, modified := false } ∧
    (p.1.Heads written i → n.id ∈ stored → 0 < n.id → id = n.id) ∧
    (¬ (p.1.Heads written i ∧ n.id ∈ stored) → (last p.2).2 < id)

theorem last_le_of_deleteStored {p p' : NodeTree × σ} {tops : List Placed}
    (hrun : (deleteStored stored tops).run p = (.ok live, p')) :
    (last p.2).2 ≤ (last p'.2).2 := by
  have hkeeps := keeps_deleteStored (Q := fun s' : σ ↦ (last p.2).2 ≤ (last s').2)
    (fun d s₁ h₁ ↦ Int.le_trans h₁ (steady_deleteSubtree d s₁).2.2) stored tops
  exact hkeeps.of_run (Int.le_refl _) hrun

theorem exists_reconciled {p' : NodeTree × σ} {tally : Tally} (hs : Sound s) (ht : t.Rooted)
    (hrun : (reconcile layoutId stored).run (t, s) = (.ok tally, p')) :
    ∃ gone written, Reconciled layoutId stored (t, s) p' gone written ∧
      tally.inserted = written.length := by
  obtain ⟨live, s₁, hdelete, hwrite, rfl⟩ := run_reconcile_steps hrun
  have hlast : (last s).2 ≤ (last s₁).2 := last_le_of_deleteStored hdelete
  obtain ⟨-, hs₁, gone, hrows, rfl, hgone⟩ := run_deleteStored hs hdelete
  have hwritable := ht.writable_markedBelow stored (stored.filter (!gone.contains ·)) hs₁
  have hwrote := wrote_writeMarked hwritable hwrite
  have hids := renumbered_writeMarked hwritable hwrite
  refine ⟨gone, _, ?_, (List.length_map Prod.fst).symm⟩
  exact {
    sound := hwrote.sound
    last_le := Int.le_trans hlast hids.last_le
    mem_gone := hgone
    rows_eq := hrows ▸ hwrote.rows_eq
    nodup := List.pairwise_map.mpr (hwritable.follows.imp And.left)
    mem_written := fun i ↦ ht.mem_places_markedBelow
    unwritten := hwrote.kept
    written := fun i hi ↦ by
      obtain ⟨n, id, hn, hr⟩ := hwrote.written i hi
      obtain ⟨⟨_, keepId⟩, hmark, rfl⟩ := List.mem_map.mp hi
      have hiff := ht.mark_eq_true_iff hmark hn
      refine ⟨n, id, hn, hr, fun hheads hmem hpos ↦ ?_, fun hnot ↦ ?_⟩
      · obtain rfl := hiff.mpr ⟨hheads, hmem⟩
        exact hids.kept _ n _ hmark hn hr hpos
      · obtain rfl : keepId = false := Bool.eq_false_iff.mpr fun hkeep ↦ hnot (hiff.mp hkeep)
        exact Int.lt_of_le_of_lt hlast (hids.fresh _ _ hmark hr) }

theorem Reconciled.length_written {p p' : NodeTree × σ} {gone : List Int} {written : List Nat}
    (h : Reconciled layoutId stored p p' gone written) :
    (written.filterMap p'.1.node?).length = written.length := by
  rw [List.filterMap_length_eq_length]
  intro i hi
  obtain ⟨n, id, -, hr, -⟩ := h.written i hi
  simp [hr]

/-- If the layout is stored under the ids in `stored` and its rows are one tree or none, a
reconciliation that is carried out leaves every row of the layout that is not stored at or
below a topmost dirty node, which is a flagged one, as it is stored.  Of the rows that it
inserts and counts, those of the heads keep their ids if these are stored, and all others get
ids that were not in the store.  Without a flag and without a new id it does nothing. -/
theorem reconcile_rewrites_flagged (hs : Sound s) (ht : t.Rooted)
    (hstored : ∀ x, x ∈ stored ↔ ∃ r ∈ ofLayout (rows s) layoutId, r.id = x)
    (htree : EmptyOrTree (ofLayout (rows s) layoutId)) :
    (∀ tally t' s', (reconcile layoutId stored).run (t, s) = (.ok tally, (t', s')) →
      (∀ r ∈ ofLayout (rows s) layoutId,
        ¬ t.BelowTopmostDirty (ofLayout (rows s) layoutId) r → r ∈ rows s') ∧
      ∃ gone written,
        (∀ r ∈ ofLayout (rows s) layoutId,
          r.id ∈ gone ↔ t.BelowTopmostDirty (ofLayout (rows s) layoutId) r) ∧
        rows s' = outside (rows s) gone ++ written.filterMap t'.node? ∧
        tally.inserted = (written.filterMap t'.node?).length ∧
        (∀ i, i ∉ written → t'.node? i = t.node? i) ∧
        ∀ i ∈ written, ∃ n r, t.node? i = some n ∧ t'.node? i = some r ∧
          (t.Heads written i → n.id ∈ stored → r.id = n.id) ∧
          (¬ (t.Heads written i ∧ n.id ∈ stored) → ∀ m ∈ rows s, m.id ≠ r.id)) ∧
    ((∀ n ∈ t.flatten, n.modified = false ∧ n.id ∈ stored) →
      (reconcile layoutId stored).run (t, s) = (.ok {}, (t, s))) := by
  refine ⟨fun tally t' s' hrun ↦ ?_, fun hclean ↦ ht.run_reconcile_of_clean hclean s⟩
  obtain ⟨gone, written, h, htally⟩ := exists_reconciled hs ht hrun
  have hgone : ∀ r ∈ ofLayout (rows s) layoutId,
      r.id ∈ gone ↔ t.BelowTopmostDirty (ofLayout (rows s) layoutId) r := fun r hr ↦
    mem_more_iff (keyed hs) htree.parentsIn ht
      (fun x ↦ (hstored x).trans List.mem_map.symm) h.mem_gone hr
  refine ⟨fun r hr hnot ↦ ?_, gone, written, hgone, h.rows_eq, ?_, h.unwritten, fun i hi ↦ ?_⟩
  · have hstays : r ∈ outside (rows s) gone :=
      mem_outside.mpr ⟨(mem_ofLayout.mp hr).1, fun hmem ↦ hnot ((hgone r hr).mp hmem)⟩
    exact h.rows_eq ▸ List.mem_append_left _ hstays
  · exact htally.trans h.length_written.symm
  · obtain ⟨n, id, hn, hr, hkept, hfresh⟩ := h.written i hi
    refine ⟨n, _, hn, hr, fun hheads hmem ↦ hkept hheads hmem ?_, fun hnot m hm hid ↦ ?_⟩
    · obtain ⟨r, hr, hid⟩ := (hstored n.id).mp hmem
      exact hid ▸ (keyed hs).pos r (mem_ofLayout.mp hr).1
    · have hle := LawfulHeaders.rows_le hs m hm
      have hlt := hfresh hnot
      dsimp only at hid hlt
      omega

/-- The first child is flagged and the second one, which is not, is moved below it: two rows are
inserted, and the old row of the second one is left. -/
theorem reconcile_rewrites_flagged_movedBelow :
    let t := build [{ id := 1, name := "root" },
      { id := 2, parentId := 1, name := "a", sequence := 1, modified := true },
      { id := 3, parentId := 2, name := "b", sequence := 2 }]
    (∃ tally t' db', (reconcile 1 [1, 2, 3]).run (t, twoChildrenStored) = (.ok tally, (t', db')) ∧
      (∀ r ∈ ofLayout (rows twoChildrenStored) 1,
        ¬ t.BelowTopmostDirty (ofLayout (rows twoChildrenStored) 1) r → r ∈ rows db') ∧
      ∃ written, tally.inserted = (written.filterMap t'.node?).length ∧
        ∀ i ∈ written, ∃ n r, t.node? i = some n ∧ t'.node? i = some r ∧
          (t.Heads written i → n.id ∈ [1, 2, 3] → r.id = n.id) ∧
          (¬ (t.Heads written i ∧ n.id ∈ [1, 2, 3]) → ∀ m ∈ rows twoChildrenStored, m.id ≠ r.id)) ∧
    (reconcile 1 [1, 2, 3]).run (build twoChildren.nodes, twoChildrenStored) =
      (.ok {}, (build twoChildren.nodes, twoChildrenStored)) := by
  intro t
  have hids : (ofLayout (rows twoChildrenStored) 1).map Node.id = [1, 2, 3] := by decide +kernel
  have hstored : ∀ x, x ∈ [1, 2, 3] ↔ ∃ r ∈ ofLayout (rows twoChildrenStored) 1, r.id = x :=
    fun x ↦ hids ▸ List.mem_map
  constructor
  · have hrun := Step.run_eq_ok_of_fst (a := ⟨1, 2⟩) (m := reconcile (σ := Database) 1 [1, 2, 3])
      (p := (t, twoChildrenStored)) (by decide +kernel)
    obtain ⟨hframe, gone, written, -, -, hcount, -, hwritten⟩ := (reconcile_rewrites_flagged
      sound_twoChildrenStored (build_rooted _) hstored tree_twoChildrenStored).1 _ _ _ hrun
    exact ⟨_, _, _, hrun, hframe, written, hcount, hwritten⟩
  · exact (reconcile_rewrites_flagged sound_twoChildrenStored (build_rooted _) hstored
      tree_twoChildrenStored).2 (by decide +kernel)

end AddressPlan.NodeTree
