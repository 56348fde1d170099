import AddressPlan.Proofs.Layout.Keeps
import AddressPlan.Proofs.Layout.Save

/-!
# Consistent databases

Stored plans keep the rules and have blocks of their own, layouts belong to stored plans and
nodes to stored layouts, ids of nodes are distinct, and the rows of every layout are none or
form one tree.  Each change that the service makes keeps this, as long as the numbering of a
table is ahead of its rows.
-/

namespace AddressPlan.Database

open Rows NodeTree

structure Consistent (db : Database) : Prop where
  plans_checked : ∀ plan ∈ db.plans, plan.check = .ok ()
  blocks_nodup : (db.plans.map Plan.cidr).Nodup
  plan_stored : ∀ header ∈ db.headers, ∃ plan ∈ db.plans, plan.id = header.planId
  layout_stored : ∀ n ∈ db.nodes, ∃ header ∈ db.headers, header.id = n.layoutId
  keyed : Keyed db.nodes
  trees : ∀ header ∈ db.headers, EmptyOrTree (ofLayout db.nodes header.id)
  unflagged : ∀ n ∈ db.nodes, n.modified = false

/-- A consistent database whose numbering is ahead of its layouts and nodes. -/
structure Coherent (db : Database) : Prop extends Consistent db where
  numbered : NumberedTo db.nodes db.lastNode
  headers_le : ∀ header ∈ db.headers, header.id ≤ db.lastLayout

/-- What writing nodes leaves alone: the plans, the ids of the layouts and of their plans,
and the last number of a layout. -/
def frame (db : Database) : List Plan × List (Int × Int) × Int :=
  (db.plans, db.headers.map fun header ↦ (header.id, header.planId), db.lastLayout)

theorem exists_header_of_frame {db db' : Database} (h : db'.frame = db.frame)
    {header : LayoutHeader} (hheader : header ∈ db'.headers) :
    ∃ old ∈ db.headers, old.id = header.id ∧ old.planId = header.planId := by
  have hmem : (header.id, header.planId) ∈ db.headers.map fun old ↦ (old.id, old.planId) := by
    have hheaders : db'.headers.map (fun old ↦ (old.id, old.planId)) =
        db.headers.map fun old ↦ (old.id, old.planId) := congrArg (fun f ↦ f.2.1) h
    exact hheaders ▸ List.mem_map.mpr ⟨header, hheader, rfl⟩
  obtain ⟨old, hold, heq⟩ := List.mem_map.mp hmem
  exact ⟨old, hold, congrArg Prod.fst heq, congrArg Prod.snd heq⟩

/-- Taking away layouts as a whole leaves the others as they are. -/
theorem emptyOrTree_filter_layouts {rows : List Node} (keep : Int → Bool) {layoutId : Int}
    (h : EmptyOrTree (ofLayout rows layoutId)) :
    EmptyOrTree (ofLayout (rows.filter fun n ↦ keep n.layoutId) layoutId) := by
  have hfilter : ofLayout (rows.filter fun n ↦ keep n.layoutId) layoutId =
      (ofLayout rows layoutId).filter fun _ ↦ keep layoutId := by
    simp only [ofLayout, List.filter_filter]
    apply List.filter_congr
    intro n _
    by_cases hn : n.layoutId = layoutId
    · rw [hn]
      exact Bool.and_comm _ _
    · rw [beq_eq_false_iff_ne.mpr hn, Bool.false_and, Bool.and_false]
  rw [hfilter]
  cases keep layoutId with
  | true =>
    rw [List.filter_eq_self.mpr fun _ _ ↦ rfl]
    exact h
  | false =>
    rw [List.filter_eq_nil_iff.mpr fun _ _ ↦ Bool.false_ne_true]
    exact Or.inl rfl

theorem nodup_map_concat {α β : Type} {key : α → β} {as : List α} {b : α}
    (h : (as.map key).Nodup) (hnew : ∀ a ∈ as, key a ≠ key b) : ((as ++ [b]).map key).Nodup := by
  rw [List.map_append, List.nodup_append]
  refine ⟨h, List.nodup_singleton _, fun x hx y hy ↦ ?_⟩
  obtain ⟨a, ha, rfl⟩ := List.mem_map.mp hx
  rw [List.mem_singleton.mp hy]
  exact hnew a ha

theorem createPlan_eq_ok {db db' : Database} {r : PlanRequest} {plan : Plan}
    (h : db.createPlan r = .ok (plan, db')) :
    (∀ p ∈ db.plans, p.cidr ≠ r.cidr) ∧ ∃ new : Plan, new.id = db.lastPlan + 1 ∧
      new.cidr = r.cidr ∧ new.maskLength = r.maskLength ∧
      db' = { db with plans := db.plans ++ [new], lastPlan := new.id } := by
  simp only [createPlan, bind, Except.bind, pure, Except.pure, throw, throwThe,
    MonadExceptOf.throw] at h
  split at h
  · cases h
  · rename_i hfree
    split at h
    · cases h
    · rename_i hnext
      cases h
      refine ⟨fun p hp heq ↦ ?_, _, nextId_eq_ok hnext, rfl, rfl, rfl⟩
      cases hfound : db.plans.find? (·.cidr == r.cidr) with
      | none => exact absurd (beq_iff_eq.mpr heq) (List.find?_eq_none.mp hfound p hp)
      | some first => exact hfree first hfound

theorem deletePlan_eq_ok {db db' : Database} {id : Int} (h : db.deletePlan id = .ok db') :
    db' = { db with
      plans := db.plans.filter (·.id != id)
      headers := db.headers.filter (·.planId != id)
      nodes := db.nodes.filter fun n ↦
        !((db.headers.filter (·.planId == id)).map LayoutHeader.id).contains n.layoutId } := by
  unfold deletePlan at h
  split at h
  · cases h
    rfl
  · cases h

theorem deletePlan_eq_error {db : Database} {id : Int} {fault : StoreFault}
    (h : db.deletePlan id = .error fault) : ∀ plan ∈ db.plans, plan.id ≠ id := by
  unfold deletePlan at h
  split at h
  · cases h
  · rename_i hnone
    simpa using hnone

theorem deleteLayout_eq_ok {db db' : Database} {id : Int} (h : db.deleteLayout id = .ok db') :
    db' = { db with
      headers := db.headers.filter (·.id != id)
      nodes := db.nodes.filter (·.layoutId != id) } := by
  unfold deleteLayout at h
  split at h
  · cases h
    rfl
  · cases h

namespace Coherent

variable {db db' : Database}

theorem empty : Coherent {} where
  plans_checked := fun _ h ↦ absurd h List.not_mem_nil
  blocks_nodup := List.nodup_nil
  plan_stored := fun _ h ↦ absurd h List.not_mem_nil
  layout_stored := fun _ h ↦ absurd h List.not_mem_nil
  keyed := ⟨List.nodup_nil, fun _ h ↦ absurd h List.not_mem_nil⟩
  trees := fun _ h ↦ absurd h List.not_mem_nil
  unflagged := fun _ h ↦ absurd h List.not_mem_nil
  numbered := ⟨⟨List.nodup_nil, fun _ h ↦ absurd h List.not_mem_nil⟩,
    fun _ h ↦ absurd h List.not_mem_nil, Int.le_refl 0⟩
  headers_le := fun _ h ↦ absurd h List.not_mem_nil

/-! ## Plans -/

theorem createPlan (h : Coherent db) {r : PlanRequest} {plan : Plan} (hr : r.check = .ok ())
    (hcreate : db.createPlan r = .ok (plan, db')) : Coherent db' := by
  obtain ⟨hfree, new, -, hcidr, hmask, rfl⟩ := createPlan_eq_ok hcreate
  refine { h with
    plans_checked := fun p hp ↦ ?_
    blocks_nodup := ?_
    plan_stored := fun header hheader ↦ ?_ }
  · rcases List.mem_append.mp hp with hp | hp
    · exact h.plans_checked p hp
    · rw [List.mem_singleton.mp hp, Plan.check, hcidr, hmask]
      exact hr
  · exact nodup_map_concat h.blocks_nodup (hcidr ▸ hfree)
  · obtain ⟨p, hp, hid⟩ := h.plan_stored header hheader
    exact ⟨p, List.mem_append_left _ hp, hid⟩

theorem deletePlan (h : Coherent db) {id : Int} (hdelete : db.deletePlan id = .ok db') :
    Coherent db' := by
  obtain rfl := deletePlan_eq_ok hdelete
  refine
    { plans_checked := fun p hp ↦ h.plans_checked p (List.mem_of_mem_filter hp)
      blocks_nodup := h.blocks_nodup.sublist (List.filter_sublist.map _)
      plan_stored := fun header hheader ↦ ?_
      layout_stored := fun n hn ↦ ?_
      keyed := h.keyed.sublist List.filter_sublist
      trees := fun header hheader ↦ ?_
      unflagged := fun n hn ↦ h.unflagged n (List.mem_of_mem_filter hn)
      numbered := h.numbered.sublist List.filter_sublist
      headers_le := fun header hheader ↦ h.headers_le header (List.mem_of_mem_filter hheader) }
  · obtain ⟨hheader, hother⟩ := List.mem_filter.mp hheader
    obtain ⟨p, hp, hid⟩ := h.plan_stored header hheader
    exact ⟨p, List.mem_filter.mpr ⟨hp, by simpa [hid] using hother⟩, hid⟩
  · obtain ⟨hn, hkept⟩ := List.mem_filter.mp hn
    obtain ⟨header, hheader, hid⟩ := h.layout_stored n hn
    refine ⟨header, List.mem_filter.mpr ⟨hheader, ?_⟩, hid⟩
    by_contra hgone
    simp only [Bool.not_eq_true', List.contains_eq_mem, decide_eq_false_iff_not] at hkept
    exact hkept (List.mem_map.mpr
      ⟨header, List.mem_filter.mpr ⟨hheader, by simpa using hgone⟩, hid⟩)
  · exact emptyOrTree_filter_layouts (fun i ↦ !(List.map LayoutHeader.id _).contains i)
      (h.trees header (List.mem_of_mem_filter hheader))

/-! ## Layouts -/

theorem createLayout (h : Coherent db) {header : LayoutHeader} {id : Int}
    (hcreate : db.createLayout header = .ok (id, db')) :
    Coherent db' ∧ ofLayout db'.nodes id = [] ∧ ∃ new ∈ db'.headers, new.id = id := by
  obtain ⟨hplan, rfl, rfl⟩ := createLayout_eq_ok hcreate
  have hnone : ofLayout db.nodes (db.lastLayout + 1) = [] := by
    apply List.filter_eq_nil_iff.mpr
    intro n hn heq
    obtain ⟨old, hold, hid⟩ := h.layout_stored n hn
    have hle := h.headers_le old hold
    rw [hid, beq_iff_eq.mp heq] at hle
    omega
  refine ⟨{ h with
    plan_stored := fun old hold ↦ ?_
    layout_stored := fun n hn ↦ ?_
    trees := fun old hold ↦ ?_
    headers_le := fun old hold ↦ ?_ }, hnone, _, List.mem_append_right _ List.mem_cons_self, rfl⟩
  · rcases List.mem_append.mp hold with hold | hold
    · exact h.plan_stored old hold
    · rw [List.mem_singleton.mp hold]
      exact hplan
  · obtain ⟨old, hold, hid⟩ := h.layout_stored n hn
    exact ⟨old, List.mem_append_left _ hold, hid⟩
  · rcases List.mem_append.mp hold with hold | hold
    · exact h.trees old hold
    · rw [List.mem_singleton.mp hold]
      exact Or.inl hnone
  · rcases List.mem_append.mp hold with hold | hold
    · exact Int.le_trans (h.headers_le old hold) (Int.le_add_of_nonneg_right Int.one_nonneg)
    · obtain rfl := List.mem_singleton.mp hold
      exact Int.le_refl _

theorem deleteLayout (h : Coherent db) {id : Int} (hdelete : db.deleteLayout id = .ok db') :
    Coherent db' := by
  obtain rfl := deleteLayout_eq_ok hdelete
  refine { h with
    plan_stored := fun header hheader ↦ h.plan_stored header (List.mem_of_mem_filter hheader)
    layout_stored := fun n hn ↦ ?_
    keyed := h.keyed.sublist List.filter_sublist
    trees := fun header hheader ↦ ?_
    unflagged := fun n hn ↦ h.unflagged n (List.mem_of_mem_filter hn)
    numbered := h.numbered.sublist List.filter_sublist
    headers_le := fun header hheader ↦ h.headers_le header (List.mem_of_mem_filter hheader) }
  · obtain ⟨hn, hkept⟩ := List.mem_filter.mp hn
    obtain ⟨header, hheader, hid⟩ := h.layout_stored n hn
    exact ⟨header, List.mem_filter.mpr ⟨hheader, hid ▸ hkept⟩, hid⟩
  · exact emptyOrTree_filter_layouts (· != id) (h.trees header (List.mem_of_mem_filter hheader))

/-- Making the rows of one layout follow a tree keeps a database coherent. -/
theorem rewrite (h : Coherent db) (hframe : db'.frame = db.frame) {layoutId : Int}
    {t t' : NodeTree} {gone : List Int} {places : List Nat}
    (hheader : ∃ header ∈ db.headers, header.id = layoutId)
    (hnumbered : NumberedTo db'.nodes db'.lastNode) (ht : t.Rooted)
    (hrewrite : Rewrite layoutId t db.nodes db'.nodes t' gone places) : Coherent db' := by
  have hplans : db'.plans = db.plans := congrArg Prod.fst hframe
  have hlast : db'.lastLayout = db.lastLayout := congrArg (fun f ↦ f.2.2) hframe
  exact {
    plans_checked := hplans ▸ h.plans_checked
    blocks_nodup := hplans ▸ h.blocks_nodup
    plan_stored := by
      intro header hheader'
      obtain ⟨old, hold, -, hplan⟩ := exists_header_of_frame hframe hheader'
      rw [hplans, ← hplan]
      exact h.plan_stored old hold
    layout_stored := by
      intro n hn
      have hstored : ∃ header ∈ db.headers, header.id = n.layoutId := by
        rcases hrewrite.old_or_written hn with hn | ⟨hlayout, -⟩
        · exact h.layout_stored n hn
        · exact hlayout ▸ hheader
      obtain ⟨header, hmem, hid⟩ := hstored
      obtain ⟨new, hnew, hid', -⟩ := exists_header_of_frame hframe.symm hmem
      exact ⟨new, hnew, hid'.trans hid⟩
    keyed := hnumbered.keyed
    trees := by
      intro header hheader'
      obtain ⟨old, hold, hid, -⟩ := exists_header_of_frame hframe hheader'
      exact hid ▸ hrewrite.trees h.keyed ht (h.trees old hold)
    unflagged := by
      intro n hn
      rcases hrewrite.old_or_written hn with hn | ⟨-, hunflagged⟩
      · exact h.unflagged n hn
      · exact hunflagged
    numbered := hnumbered
    headers_le := by
      intro header hheader'
      obtain ⟨old, hold, hid, -⟩ := exists_header_of_frame hframe hheader'
      rw [← hid, hlast]
      exact h.headers_le old hold }

end Coherent

end AddressPlan.Database
