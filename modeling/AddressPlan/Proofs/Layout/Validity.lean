import AddressPlan.Proofs.Layout.Contract
import AddressPlan.Proofs.Layout.Save
import AddressPlan.Proofs.NodeTree.Fits

/-!
# What an accepted request leaves behind

A request is checked in memory, and only parts of it are written.  If no row stays whose width,
literals or parent the request has changed, then the rows take up the same space as the nodes
that were checked, so they fit as well.  Rows that fit pass the check when they are loaded.
-/

namespace AddressPlan

namespace Plan

theorem exists_allowedBits {plan : Plan} (h : plan.check = .ok ()) :
    ∃ allowed, plan.allowedBits = .ok allowed := by
  unfold Plan.check checkFields at h
  cases hparse : Network.parse plan.cidr with
  | error e =>
    rw [hparse] at h
    cases h
  | ok network =>
    refine ⟨plan.maskLength - network.length, ?_⟩
    simp only [allowedBits, baseLength, Plan.network, hparse, Except.map]

end Plan

namespace NodeTree

open Rows

variable {layoutId : Int} {t t' : NodeTree} {old new : List Node} {gone : List Int}
  {places : List Nat} {allowed : Nat}

namespace Rewrite

/-- Rows that were written have the space of their nodes, and so have those that stay. -/
theorem sameSpace_image (h : Rewrite layoutId t old new t' gone places) (hkeyed : Keyed old)
    (ht : t.Linked) (hmatched : t.Matched Node.space (ofLayout old layoutId)) :
    t.SameSpace (t.imageOf t' (ofLayout old layoutId) places) where
  parent? := parent?_imageOf
  space := by
    intro i
    cases hn : t.node? i with
    | none =>
      rw [imageOf, node?_mapNodes, hn]
      rfl
    | some n =>
      obtain ⟨r, hr⟩ : ∃ r, (t.imageOf t' (ofLayout old layoutId) places).node? i = some r := by
        rw [imageOf, node?_mapNodes, hn]
        exact ⟨_, rfl⟩
      rw [hr, Option.map_some, Option.map_some, Option.some.injEq]
      by_cases hi : i ∈ places
      · obtain ⟨m, id, hm, hm'⟩ := h.written i hi
        cases hm.symm.trans hn
        rw [h.image_of_mem hi, hm'] at hr
        cases hr
        rfl
      · exact (h.kept_row hkeyed ht hmatched hi hn hr).2.2.2

/-- If the tree passes the check and no changed row stays, then the new rows fit. -/
theorem fits_new (h : Rewrite layoutId t old new t' gone places) (hkeyed : Keyed old)
    (ht : t.Linked) (hrooted : t.Rooted) (hparents : ParentsIn (ofLayout old layoutId))
    (hmatched : t.Matched Node.space (ofLayout old layoutId))
    (hcheck : t.check allowed false = .ok ()) : Fits allowed (ofLayout new layoutId) := by
  have hspace := h.sameSpace_image hkeyed ht hmatched
  have hlinked := h.image_linked hkeyed ht hrooted hparents hmatched
  have hperm := h.image_perm hkeyed ht hrooted hparents hmatched
  apply (hlinked.check_eq_ok_iff (hspace.sameShape.rooted hrooted) hperm).mp
  exact hspace.check_of_check hrooted hcheck

theorem image_of_all (h : Rewrite layoutId t old new t' gone places)
    (hall : ∀ i < t.size, i ∈ places) : t.imageOf t' (ofLayout old layoutId) places = t' := by
  apply eq_of_places
  · intro i
    by_cases hi : i < t.size
    · exact h.image_of_mem (hall i hi)
    · rw [h.kept i fun hmem ↦ hi (h.lt_size hmem), imageOf, node?_mapNodes]
      cases hn : t.node? i with
      | none => rfl
      | some n => exact absurd (lt_size_iff.mpr ⟨n, hn⟩) hi
  · intro i
    rw [parent?_imageOf, h.parent?]

theorem linked_of_all (h : Rewrite layoutId t old new t' gone places) (hkeyed : Keyed old)
    (ht : t.Linked) (hrooted : t.Rooted) (hnone : ofLayout old layoutId = [])
    (hall : ∀ i < t.size, i ∈ places) : t'.Linked := by
  rw [← h.image_of_all hall]
  have hmatched := hnone ▸ matched_nil Node.space t
  exact h.image_linked hkeyed ht hrooted (hnone ▸ parentsIn_nil) hmatched

end Rewrite

end NodeTree

namespace Layout

open Rows LawfulStore NodeTree

variable {plan : Plan} {l l' : Layout}

/-- A layout as it is loaded passes the check exactly if the plan does and the rows fit. -/
theorem run_check_loaded_iff (hkeyed : Keyed l.nodes) (htree : EmptyOrTree l.nodes)
    (hkept : l.kept = none) (hplan : plan.check = .ok ()) {allowed : Nat}
    (hallowed : plan.allowedBits = .ok allowed) :
    ((check plan).run l).1 = .ok () ↔ Fits allowed l.nodes := by
  rw [run_check_fst_eq_ok_iff, and_iff_right hplan]
  rcases htree with hnil | ⟨root, hroot⟩
  · rw [hnil]
    exact iff_of_true (Or.inl rfl) (fits_nil _)
  · have hbuilt : l.tree = build l.nodes := by
      rw [tree, hkept]
      rfl
    have hperm := build_perm_of_isTree hkeyed.nodup hroot
    have hone : l.OneTree := by
      refine ⟨by rw [hroot.roots]; rfl, ?_⟩
      rw [hbuilt, ← hperm.length_eq, flatten, List.length_map]
      rfl
    have hsome : l.nodes ≠ [] := List.ne_nil_of_mem hroot.root_mem
    rw [or_iff_right hsome, and_iff_right hone, hbuilt, hallowed,
      ← (build_linked l.nodes).check_eq_ok_iff (build_rooted l.nodes) hperm]
    simp

variable {σ : Type} [Store σ] [LawfulStore σ] {s s' : σ}

theorem exists_claims_of_check (hready : l.Ready) (hcheck : ((check plan).run l).1 = .ok ()) :
    ∃ claims, l.tree.claims = .ok claims := by
  obtain ⟨-, hnil | ⟨-, allowed, -, htree⟩⟩ := run_check_fst_eq_ok_iff.mp hcheck
  · rw [hready.empty hnil]
    exact ⟨[], rfl⟩
  · exact (hready.rooted.check_eq_ok_iff.mp htree).2

/-- The tree that is written passes the check if its layout did. -/
theorem check_numberedTree (hrooted : l.tree.Rooted) (hcheck : ((check plan).run l).1 = .ok ())
    {allowed : Nat} (hallowed : plan.allowedBits = .ok allowed)
    (hempty : l.nodes = [] → l.tree = {}) :
    (l.numberedTree plan).check allowed false = .ok () := by
  apply (relabelled_numberedTree plan l).sameSpace.check_of_check hrooted
  obtain ⟨-, hnil | ⟨-, allowed', hallowed', htree⟩⟩ := run_check_fst_eq_ok_iff.mp hcheck
  · rw [hempty hnil]
    rfl
  · cases hallowed.symm.trans hallowed'
    exact htree

/-- An update that flags every change of width, literals or parent leaves rows that fit. -/
theorem fits_of_update (hs : Sound s) (hstored : EmptyOrTree (ofLayout (rows s) l.header.id))
    (hflags : FlagsChanges Node.space l.nodes (ofLayout (rows s) l.header.id))
    (hrun : update.run (l, s) = (.ok (), (l', s'))) :
    ∃ plan s₀, (Store.plan? l.header.planId).run s = (.ok (some plan), s₀) ∧
      ∀ allowed, plan.allowedBits = .ok allowed →
        Fits allowed (ofLayout (rows s') l.header.id) := by
  obtain ⟨plan, s₀, hplan, hok, -, t', gone, places, hrewrite⟩ :=
    exists_rewrite_of_update hs hstored hrun
  obtain ⟨plan', checked, _, s₁, _, _, _, _, _, _, _, _, _, hfetch, hcheck, -⟩ :=
    run_update_steps hrun
  obtain ⟨hplan', -⟩ := run_fetchPlan_eq_ok hs hfetch
  cases hplan.symm.trans hplan'
  refine ⟨plan, s₀, hplan, fun allowed hallowed ↦ ?_⟩
  have hlabel := relabelled_requestTree plan l
  have hmatched := hflags.matched (fun _ _ _ ↦ rfl) (build_perm_of_checked hok) hlabel
  refine hrewrite.fits_new (keyed hs) (hlabel.linked (build_linked _))
    (hlabel.sameShape.rooted (build_rooted _)) hstored.parentsIn hmatched ?_
  have hready : l.dropTree.Ready := ready_of_kept_none rfl
  exact check_numberedTree hready.rooted (by rw [hcheck]) hallowed hready.empty

end Layout

end AddressPlan
