import AddressPlan.Proofs.NodeTree.Flagged

/-!
# Where rows come from

Saving and updating store a row either under an id that was never given before or under the
id of a row of the same layout.  An update keeps only ids of rows that it found in its layout,
so a client that names an id gets no row back under it.
-/

namespace AddressPlan

open Rows LawfulStore LawfulHeaders NodeTree

variable {σ : Type} [Store σ] [LawfulStore σ] [LawfulHeaders σ] {s s' s'' : σ}

/-- Every row of the later store has an id that had not been given before, or the id of a row
of the same layout that was there. -/
structure Continues (s s' : σ) : Prop where
  last_le : (last s).2 ≤ (last s').2
  origin : ∀ m ∈ rows s', (last s).2 < m.id ∨ ∃ n ∈ rows s, n.id = m.id ∧ n.layoutId = m.layoutId

namespace Continues

theorem of_subset (hlast : (last s).2 ≤ (last s').2) (hrows : rows s' ⊆ rows s) :
    Continues s s' :=
  ⟨hlast, fun m hm ↦ Or.inr ⟨m, hrows hm, rfl, rfl⟩⟩

theorem refl (s : σ) : Continues s s :=
  .of_subset (Int.le_refl _) (List.Subset.refl _)

theorem trans (h : Continues s s') (h' : Continues s' s'') : Continues s s'' := by
  refine ⟨Int.le_trans h.last_le h'.last_le, fun m hm ↦ ?_⟩
  rcases h'.origin m hm with hnew | ⟨n, hn, hid, hlayout⟩
  · exact Or.inl (Int.lt_of_le_of_lt h.last_le hnew)
  · rw [← hid, ← hlayout]
    exact h.origin n hn

/-- An id that is gone does not come back. -/
theorem absent (h : Continues s s') {id : Int} (hle : id ≤ (last s).2)
    (hgone : ∀ n ∈ rows s, n.id ≠ id) : ∀ m ∈ rows s', m.id ≠ id := by
  intro m hm hid
  rcases h.origin m hm with hnew | ⟨n, hn, hnid, -⟩
  · omega
  · exact hgone n hn (hnid.trans hid)

/-- An id that is there again or still is one of the same layout. -/
theorem layoutId_eq (h : Continues s s') (hs : Sound s) {n m : Node} (hn : n ∈ rows s)
    (hm : m ∈ rows s') (hid : m.id = n.id) : m.layoutId = n.layoutId := by
  rcases h.origin m hm with hnew | ⟨n', hn', hid', hlayout⟩
  · have hle := LawfulHeaders.rows_le hs n hn
    omega
  · rw [← hlayout, (keyed hs).eq_of_id_eq hn' hn (hid'.trans hid)]

end Continues

/-! ## Saving -/

section Saving

theorem keeps_continues_of_quiet {α : Type} {m : Step σ α} (hquiet : Step.Quiet rows Sound m)
    (hlast : ∀ s, (last s).2 ≤ (last (m.run s).2).2) :
    Step.Keeps (fun s' ↦ Sound s' ∧ Continues s s') m := by
  rintro s₁ ⟨hs₁, h₁⟩
  obtain ⟨hsound, hrows⟩ := hquiet s₁ hs₁
  exact ⟨hsound, h₁.trans (.of_subset (hlast s₁) (hrows ▸ List.Subset.refl _))⟩

theorem keeps_continues_insertNode {n : Node} (hn : n.id = 0) :
    Step.Keeps (fun s' ↦ Sound s' ∧ Continues s s') (Store.insertNode (σ := σ) n) := by
  rintro s₁ ⟨hs₁, h₁⟩
  have hlast := (steady_insertNode n s₁).2.2
  rcases hrun : (Store.insertNode n).run s₁ with ⟨r, s₂⟩
  rw [hrun] at hlast
  cases r with
  | error e =>
    obtain rfl := insertNode_refused hrun
    exact ⟨hs₁, h₁⟩
  | ok id =>
    obtain ⟨hsound, hrows, -⟩ := insertNode_run hs₁ hrun
    refine ⟨hsound, h₁.trans ⟨hlast, fun m hm ↦ ?_⟩⟩
    rw [hrows] at hm
    rcases List.mem_append.mp hm with hm | hm
    · exact Or.inr ⟨m, hm, rfl, rfl⟩
    · obtain rfl := List.mem_singleton.mp hm
      exact Or.inl (insertNode_fresh hs₁ hrun (Int.le_of_eq hn))

theorem last_le_of_createLayout (header : LayoutHeader) (s : σ) :
    (last s).2 ≤ (last ((Store.createLayout header).run s).2).2 := by
  rcases hrun : (Store.createLayout header).run s with ⟨r, s'⟩
  cases r with
  | error e =>
    obtain rfl := createLayout_refused hrun
    exact Int.le_refl _
  | ok id => exact (createLayout_run hrun).2.2.2

theorem continues_save (hs : Sound s) (l : Layout) :
    Continues s (Layout.save.run (l, s)).2.2 := by
  have hkeeps : Step.Keeps (fun p : Layout × σ ↦ Sound p.2 ∧ Continues s p.2) Layout.save :=
    Layout.keeps_save
      (fun id ↦ keeps_continues_of_quiet (quiet_plan? id) fun s₁ ↦ (steady_plan? id s₁).2.2)
      (fun header ↦ keeps_continues_of_quiet (quiet_createLayout header)
        (last_le_of_createLayout header))
      fun _ _ hn ↦ keeps_continues_insertNode hn
  exact (hkeeps (l, s) ⟨hs, .refl s⟩).2

end Saving

/-! ## Updating -/

theorem NodeTree.Reconciled.continues {layoutId : Int} {stored : List Int} {t : NodeTree}
    {p' : NodeTree × σ} {gone : List Int} {written : List Nat}
    (h : Reconciled layoutId stored (t, s) p' gone written) (hs : Sound s)
    (hstored : ∀ x ∈ stored, ∃ n ∈ rows s, n.id = x ∧ n.layoutId = layoutId) :
    Continues s p'.2 := by
  refine ⟨h.last_le, fun m hm ↦ ?_⟩
  rw [h.rows_eq] at hm
  rcases List.mem_append.mp hm with hm | hm
  · exact Or.inr ⟨m, List.mem_of_mem_filter hm, rfl, rfl⟩
  · obtain ⟨i, hi, hnode⟩ := List.mem_filterMap.mp hm
    obtain ⟨n, id, hn, hr, hkept, hfresh⟩ := h.written i hi
    cases hnode.symm.trans hr
    by_cases hhead : t.Heads written i ∧ n.id ∈ stored
    · obtain ⟨r, hr, hid, hlayout⟩ := hstored n.id hhead.2
      have hpos : 0 < n.id := hid ▸ (keyed hs).pos r hr
      exact Or.inr ⟨r, hr, hid.trans (hkept hhead.1 hhead.2 hpos).symm, hlayout⟩
    · exact Or.inl (hfresh hhead)

omit [LawfulHeaders σ] in
/-- The second pass of an update gets the ids of the rows that the first one has left. -/
theorem mem_rows_of_storedIds {layoutId : Int} {gone : List Int}
    (hrows : rows s' = outside (rows s) gone) :
    ∀ x ∈ (Layout.storedIds (rows s) layoutId).filter (!gone.contains ·),
      ∃ n ∈ rows s', n.id = x ∧ n.layoutId = layoutId := by
  intro x hx
  obtain ⟨hx, hkept⟩ := List.mem_filter.mp hx
  obtain ⟨n, hn, rfl⟩ := List.mem_map.mp (Layout.mem_storedIds.mp hx)
  obtain ⟨hn, hlayout⟩ := mem_ofLayout.mp hn
  refine ⟨n, ?_, rfl, hlayout⟩
  rw [hrows, mem_outside]
  exact ⟨hn, by simpa using hkept⟩

theorem continues_update {l l' : Layout} (hs : Sound s)
    (hrun : Layout.update.run (l, s) = (.ok (), (l', s'))) : Continues s s' := by
  obtain ⟨plan, s₁, gone, s₂, tally, after, shown, -, -, hsound₂, hlast₂, hrows₂, -, hreconcile,
    hshown⟩ := Layout.exists_reconcile_of_update (Q := fun s' ↦ (last s).2 ≤ (last s').2) hs
      (Int.le_refl _) (fun id s₁ h₁ ↦ Int.le_trans h₁ (steady_plan? id s₁).2.2)
      (fun header s₁ h₁ ↦ Int.le_trans h₁ (Int.le_of_eq (congrArg Prod.snd
        (updateHeader_ids header s₁).2.symm)))
      (fun id s₁ h₁ ↦ Int.le_trans h₁ (steady_nodes id s₁).2.2)
      (fun d s₁ h₁ ↦ Int.le_trans h₁ (steady_deleteSubtree d s₁).2.2) hrun
  have hthinned : Continues s s₂ := .of_subset hlast₂ (hrows₂ ▸ List.filter_subset_self _)
  obtain ⟨_, _, hreconciled, -⟩ :=
    exists_reconciled hsound₂ (Layout.rooted_requestTree plan l) hreconcile
  have hquiet := hshown ▸ quiet_nodes l.header.id after.2 hreconciled.sound
  have hsteady := hshown ▸ steady_nodes l.header.id after.2
  have hread : Continues after.2 s' := .of_subset hsteady.2.2 (hquiet.2 ▸ List.Subset.refl _)
  exact hthinned.trans ((hreconciled.continues hsound₂ (mem_rows_of_storedIds hrows₂)).trans hread)

end AddressPlan
