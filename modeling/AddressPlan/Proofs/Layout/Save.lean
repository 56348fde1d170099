import AddressPlan.Proofs.Layout.Trees

/-!
# What saving does to the rows

A new layout gets its header first and then a row for every node of its tree.  As no row was
stored for it before, this is a rewrite of all places.
-/

namespace AddressPlan.Layout

open Rows LawfulStore NodeTree

variable {σ : Type} [Store σ] [LawfulStore σ] {l l' : Layout} {s s' : σ}

/-- The tree at hand is one of distinct nodes, and shows none if there are none. -/
structure Ready (l : Layout) : Prop where
  rooted : l.tree.Rooted
  linked : l.tree.Linked
  empty : l.nodes = [] → l.tree = {}

omit [Store σ] [LawfulStore σ] in
theorem ready_of_tree_eq (htree : l.tree = build l.nodes) : l.Ready := by
  refine ⟨htree ▸ build_rooted l.nodes, htree ▸ build_linked l.nodes, fun hnil ↦ ?_⟩
  rw [htree, hnil]
  rfl

omit [Store σ] [LawfulStore σ] in
theorem ready_of_kept_none (h : l.kept = none) : l.Ready := by
  refine ready_of_tree_eq ?_
  rw [tree, h]
  rfl

omit [LawfulStore σ] in
/-- The steps of a save that is carried out.  The layout then shows the rows that were
written. -/
theorem run_save_steps (hrun : save.run (l, s) = (.ok (), (l', s'))) :
    ∃ plan checked prepared s₁ id s₂ tally,
      (fetchPlan l.header.planId).run s = (.ok plan, s₁) ∧
      (check plan).run l = (.ok (), checked) ∧
      (Layout.fill plan).run checked = (.ok (), prepared) ∧
      (Store.createLayout prepared.header).run s₁ = (.ok id, s₂) ∧
      (persistAll id).run (prepared.tree, s₂) = (.ok tally, (l'.tree, s')) ∧
      l'.header = { prepared.header with id } ∧ l'.nodes = l'.tree.flatten := by
  simp only [save, Step.run_bind_eq_ok_iff, Step.run_first_eq_ok_iff,
    Step.run_second_eq_ok_iff, Step.run_get, Step.run_modify, Prod.mk.injEq,
    Except.ok.injEq] at hrun
  obtain ⟨_, _, ⟨rfl, rfl⟩, plan, ⟨l, _⟩, ⟨hplan, hl⟩, _, ⟨checked, _⟩, ⟨hcheck, rfl⟩,
    _, ⟨_, s₁⟩, ⟨hfill, hs₁⟩, _, _, ⟨rfl, rfl⟩, hrun⟩ := hrun
  obtain ⟨id, ⟨prepared, _⟩, ⟨hcreate, hprepared⟩, _, ⟨headed, s₂⟩, ⟨⟨-, hheaded⟩, hs₂⟩,
    tally, ⟨written, s₃⟩, hpersist, ⟨-, hl'⟩, hs'⟩ := hrun
  dsimp only at *
  subst hl hs₁ hprepared hheaded hs₂ hs' hl'
  have htree : ({ written with nodes := written.tree.flatten } : Layout).tree = written.tree := by
    rw [tree, kept_of_run_onTreeAndStore hpersist]
    rfl
  obtain ⟨hpersist, hheader⟩ := run_onTreeAndStore_eq_ok hpersist
  refine ⟨plan, checked, prepared, s₁, id, s₂, tally, hplan, hcheck, hfill, hcreate, ?_,
    hheader, ?_⟩
  · rw [htree]
    exact hpersist
  · rw [htree]

/-- A save that is carried out finds the plan, stores the header and writes the tree. -/
theorem run_save_eq_ok (hs : Sound s) (hready : l.Ready)
    (hrun : save.run (l, s) = (.ok (), (l', s'))) :
    ∃ plan s₁ id s₂ tally, (Store.plan? l.header.planId).run s = (.ok (some plan), s₁) ∧
      (Store.createLayout l.header).run s₁ = (.ok id, s₂) ∧ Sound s₂ ∧ rows s₂ = rows s ∧
      (persistAll id).run (l.numberedTree plan, s₂) = (.ok tally, (l'.tree, s')) := by
  obtain ⟨plan, checked, prepared, s₁, id, s₂, tally, hplan, hcheck, hfill, hcreate, hpersist,
    -, -⟩ := run_save_steps hrun
  obtain ⟨hplan, hsound₁, hrows₁⟩ := run_fetchPlan_eq_ok hs hplan
  obtain ⟨hheader, hnumbered, -⟩ := run_check_fill_eq_ok hready.empty hcheck hfill
  obtain ⟨hsound₂, hrows₂⟩ := hcreate ▸ quiet_createLayout prepared.header _ hsound₁
  rw [hheader] at hcreate
  rw [hnumbered] at hpersist
  exact ⟨plan, s₁, id, s₂, tally, hplan, hcreate, hsound₂, hrows₂.trans hrows₁, hpersist⟩

/-- A save that is carried out numbers the tree if the layout asks for it. -/
theorem fill_of_save (hs : Sound s) (hready : l.Ready)
    (hrun : save.run (l, s) = (.ok (), (l', s'))) :
    ∃ plan s₀, (Store.plan? l.header.planId).run s = (.ok (some plan), s₀) ∧
      ∀ base, l.header.autoFill = true → plan.network = .ok base → base.family = .v6 →
        l.tree.fill base plan.maskLength = (.ok (), l.numberedTree plan) := by
  obtain ⟨plan, checked, prepared, s₁, id, s₂, tally, hplan, hcheck, hfill, -⟩ :=
    run_save_steps hrun
  exact ⟨plan, s₁, (run_fetchPlan_eq_ok hs hplan).1, fun base hauto hnetwork hfamily ↦
    fill_of_check_fill hready.empty hcheck hfill hauto hnetwork hfamily⟩

/-- Writing a tree for a layout without rows rewrites all of its places. -/
theorem rewrite_of_wrote {layoutId : Int} {t t' : NodeTree} (ht : t.Rooted)
    (hnone : ofLayout (rows s) layoutId = [])
    (h : Wrote layoutId (t, s) (t', s') (t.placesBelow 0)) :
    Rewrite layoutId t (rows s) (rows s') t' [] (t.placesBelow 0) where
  keyed := keyed h.sound
  new_eq := by rw [h.rows_eq, outside_nil]
  mem_gone := by
    intro r hr
    rw [hnone] at hr
    cases hr
  below_stored := fun i hi ↦ absurd hi List.not_mem_nil
  nodup := (ht.mayFollow_placesBelow 0).imp And.left
  mem_places := by
    intro i
    rw [ht.mem_placesBelow, hnone]
    constructor
    · rintro ⟨hi, -⟩
      obtain ⟨n, hn⟩ := lt_size_iff.mp hi
      exact ⟨i, n, Under.refl i, hn, Or.inr fun r hr ↦ absurd hr List.not_mem_nil⟩
    · rintro ⟨j, n, hunder, hn, -⟩
      have hi : i < t.size := by
        rcases under_iff.mp hunder with rfl | ⟨p, hp, -⟩
        · exact lt_size_iff.mpr ⟨n, hn⟩
        · exact lt_size_of_parent? hp
      exact ⟨hi, ht.under_zero hi⟩
  parent? := h.parent?
  kept := h.kept
  written := h.written

end AddressPlan.Layout
