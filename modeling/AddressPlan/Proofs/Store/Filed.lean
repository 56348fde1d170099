import AddressPlan.Proofs.Layout.Keeps
import AddressPlan.Proofs.Store.Consistent
import Mathlib.Data.Int.Order.Basic
import Mathlib.Order.Basic

/-!
# Stores with headers

Both stores also keep the headers of layouts, and number layouts and nodes ahead of all that
were ever stored.  So whatever was saved, updated and deleted, and whether it was carried out
or broke off, no row is stored for a layout that is still to come, and no id comes twice.
-/

namespace AddressPlan

open Rows LawfulStore

/-- A step that leaves the headers alone and takes back no number. -/
def Step.Steady {σ α : Type} (headers : σ → List LayoutHeader) (last : σ → Int × Int)
    (m : Step σ α) : Prop :=
  ∀ s, headers (m.run s).2 = headers s ∧ last s ≤ last (m.run s).2

class LawfulHeaders (σ : Type) [Store σ] [LawfulStore σ] where
  headers : σ → List LayoutHeader
  /-- No larger ids were given to a layout and to a node. -/
  last : σ → Int × Int
  rows_le {s : σ} (h : Sound s) : ∀ n ∈ rows s, n.id ≤ (last s).2
  steady_plan? (id : Int) : Step.Steady headers last (Store.plan? (σ := σ) id)
  header?_run (id : Int) (s : σ) : (Store.header? id).run s =
    (.ok ((headers s).find? (·.id == id)), ((Store.header? id).run s).2)
  quiet_header? (id : Int) :
    Step.Quiet (rows (σ := σ)) Sound (Store.header? (σ := σ) id)
  steady_header? (id : Int) : Step.Steady headers last (Store.header? (σ := σ) id)
  steady_nodes (id : Int) : Step.Steady headers last (Store.nodes (σ := σ) id)
  createLayout_run {header : LayoutHeader} {s s' : σ} {id : Int}
    (hrun : (Store.createLayout header).run s = (.ok id, s')) :
    headers s' = headers s ++ [{ header with id }] ∧ (last s).1 < id ∧ id ≤ (last s').1 ∧
      (last s).2 ≤ (last s').2
  createLayout_refused {header : LayoutHeader} {s s' : σ} {e : PlanError}
    (hrun : (Store.createLayout header).run s = (.error e, s')) : s' = s
  updateHeader_ids (header : LayoutHeader) (s : σ) :
    (headers ((Store.updateHeader header).run s).2).map LayoutHeader.id =
      (headers s).map LayoutHeader.id ∧
    last ((Store.updateHeader header).run s).2 = last s
  updateHeader_found {header : LayoutHeader} {s s' : σ}
    (hrun : (Store.updateHeader header).run s = (.ok (), s')) :
    ∃ old ∈ headers s, old.id = header.id
  deleteLayout_run (id : Int) (s : σ) :
    (Sound s → Sound ((Store.deleteLayout id).run s).2) ∧
    (rows ((Store.deleteLayout id).run s).2).Sublist (rows s) ∧
    (headers ((Store.deleteLayout id).run s).2).Sublist (headers s) ∧
    last ((Store.deleteLayout id).run s).2 = last s
  steady_insertNode (n : Node) : Step.Steady headers last (Store.insertNode (σ := σ) n)
  insertNode_refused {n : Node} {s s' : σ} {e : PlanError}
    (hrun : (Store.insertNode n).run s = (.error e, s')) : s' = s
  insertNode_fresh {n : Node} {s s' : σ} {id : Int} (h : Sound s)
    (hrun : (Store.insertNode n).run s = (.ok id, s')) (hn : n.id ≤ 0) : (last s).2 < id
  steady_deleteSubtree (d : Int) :
    Step.Steady headers last (Store.deleteSubtree (σ := σ) d)
  deleteSubtree_carried (d : Int) (s : σ) :
    ∃ removed, ((Store.deleteSubtree d).run s).1 = .ok removed

/-! ## The two stores -/

namespace Database

theorem run_change_eq_error {α : Type} {f : Database → Except StoreFault (α × Database)}
    {db db' : Database} {e : PlanError} (h : (change f).run db = (.error e, db')) : db' = db := by
  unfold Step.run change at h
  split at h
  · cases h
  · cases h
    rfl

theorem map_id_updateHeader (headers : List LayoutHeader) (header : LayoutHeader) :
    (headers.map fun old ↦
      if old.id == header.id then { header with planId := old.planId } else old).map
        LayoutHeader.id = headers.map LayoutHeader.id := by
  rw [List.map_map]
  refine List.map_congr_left fun old _ ↦ ?_
  rw [Function.comp_apply]
  split
  · rename_i hid
    exact (beq_iff_eq.mp hid).symm
  · rfl

instance : LawfulHeaders Database where
  headers := Database.headers
  last db := (db.lastLayout, db.lastNode)
  rows_le h := h.le_last
  steady_plan? _ _ := ⟨rfl, le_refl _⟩
  header?_run _ _ := rfl
  quiet_header? _ _ h := ⟨h, rfl⟩
  steady_header? _ _ := ⟨rfl, le_refl _⟩
  steady_nodes _ _ := ⟨rfl, le_refl _⟩
  createLayout_run hrun := by
    obtain ⟨-, rfl, rfl⟩ := createLayout_eq_ok (run_change_eq_ok_iff.mp hrun)
    exact ⟨rfl, Int.lt_succ _, Int.le_refl _, Int.le_refl _⟩
  createLayout_refused hrun := run_change_eq_error hrun
  updateHeader_ids header db := by
    refine keeps_change (P := fun db' ↦ db'.headers.map LayoutHeader.id =
      db.headers.map LayoutHeader.id ∧
        (db'.lastLayout, db'.lastNode) = (db.lastLayout, db.lastNode))
      (fun db₁ _ db₂ h₁ hrun ↦ ?_) db ⟨rfl, rfl⟩
    obtain ⟨-, rfl⟩ := updateHeader_eq_ok (map_mk_eq_ok_iff.mp hrun)
    exact ⟨(map_id_updateHeader _ _).trans h₁.1, h₁.2⟩
  updateHeader_found hrun :=
    (updateHeader_eq_ok (map_mk_eq_ok_iff.mp (run_change_eq_ok_iff.mp hrun))).1
  deleteLayout_run id db := by
    refine keeps_change (P := fun db' ↦
      (NumberedTo db.nodes db.lastNode → NumberedTo db'.nodes db'.lastNode) ∧
        db'.nodes.Sublist db.nodes ∧ db'.headers.Sublist db.headers ∧
        (db'.lastLayout, db'.lastNode) = (db.lastLayout, db.lastNode))
      (fun db₁ _ db₂ h₁ hrun ↦ ?_) db
      ⟨fun h ↦ h, List.Sublist.refl _, List.Sublist.refl _, rfl⟩
    obtain rfl := deleteLayout_eq_ok (map_mk_eq_ok_iff.mp hrun)
    obtain ⟨hsound, hrows, hheaders, hlast⟩ := h₁
    exact ⟨fun h ↦ (hsound h).sublist List.filter_sublist, List.filter_sublist.trans hrows,
      List.filter_sublist.trans hheaders, hlast⟩
  steady_insertNode n db := by
    refine keeps_change (P := fun db' ↦ db'.headers = db.headers ∧
      (db.lastLayout, db.lastNode) ≤ (db'.lastLayout, db'.lastNode))
      (fun db₁ id db₂ h₁ hrun ↦ ?_) db ⟨rfl, le_refl _⟩
    obtain ⟨-, -, rfl⟩ := insertNode_eq_ok hrun
    exact ⟨h₁.1, h₁.2.1, Int.le_trans h₁.2.2 (Int.le_max_left _ _)⟩
  insertNode_refused hrun := run_change_eq_error hrun
  insertNode_fresh {n db db' id} _ hrun hn := by
    obtain ⟨hid, -, -⟩ := insertNode_eq_ok (run_change_eq_ok_iff.mp hrun)
    change db.lastNode < id
    omega
  steady_deleteSubtree _ _ := ⟨rfl, le_refl _⟩
  deleteSubtree_carried d db := ⟨(db.deleteSubtree d).1, rfl⟩

end Database

namespace Recording

theorem run_insertNode_eq_error {n : Node} {s s' : Recording} {e : PlanError}
    (h : (insertNode n).run s = (.error e, s')) : s' = s := by
  simp only [Step.run, insertNode] at h
  split at h
  · cases h
    rfl
  · split at h
    · cases h
      rfl
    · cases h

instance : LawfulHeaders Recording where
  headers := Recording.headers
  last s := (s.lastId, s.lastId)
  rows_le h := h.le_last
  steady_plan? _ _ := ⟨rfl, le_refl _⟩
  header?_run _ _ := rfl
  quiet_header? _ _ h := ⟨h, rfl⟩
  steady_header? _ _ := ⟨rfl, le_refl _⟩
  steady_nodes _ _ := ⟨rfl, le_refl _⟩
  createLayout_run {header s s' id} hrun := by
    change (createLayout header).run s = _ at hrun
    unfold Step.run createLayout at hrun
    cases hrun
    exact ⟨rfl, Int.lt_succ _, Int.le_refl _, Int.le_of_lt (Int.lt_succ _)⟩
  createLayout_refused hrun := by cases hrun
  updateHeader_ids header s := by
    have hlast := (updateHeader_snd header s).2
    refine ⟨?_, congrArg (fun last ↦ (last, last)) hlast⟩
    change ((updateHeader header s).2.headers).map LayoutHeader.id = _
    dsimp only [updateHeader]
    split
    · exact Database.map_id_updateHeader _ _
    · rfl
  updateHeader_found {header s s'} hrun := by
    change updateHeader header s = _ at hrun
    dsimp only [updateHeader] at hrun
    split at hrun
    · rename_i hfound
      exact Database.any_id_eq_true.mp hfound
    · cases hrun
  deleteLayout_run _ _ :=
    ⟨fun h ↦ h.sublist List.filter_sublist, List.filter_sublist, List.filter_sublist, rfl⟩
  steady_insertNode n s := by
    change (insertNode n s).2.headers = _ ∧
      (s.lastId, s.lastId) ≤ ((insertNode n s).2.lastId, (insertNode n s).2.lastId)
    unfold insertNode
    split
    · exact ⟨rfl, le_refl _⟩
    · split
      · exact ⟨rfl, le_refl _⟩
      · exact ⟨rfl, Int.le_max_left _ _, Int.le_max_left _ _⟩
  insertNode_refused hrun := run_insertNode_eq_error hrun
  insertNode_fresh {n s s' id} _ hrun hn := by
    obtain ⟨hid, -⟩ := run_insertNode_eq_ok hrun
    change s.lastId < id
    omega
  steady_deleteSubtree _ _ := ⟨rfl, le_refl _⟩
  deleteSubtree_carried _ _ := ⟨_, rfl⟩

end Recording

/-! ## Rows stay behind the numbering -/

open LawfulHeaders

variable {σ : Type} [Store σ] [LawfulStore σ] [LawfulHeaders σ] {s₀ s s' : σ}
  {bound : Int × Int}

/-- The numbering is ahead of `bound`, and that of layouts of all headers and of what any row
belongs to. -/
structure FiledTo (bound : Int × Int) (s : σ) : Prop where
  sound : Sound s
  le_last : bound ≤ last s
  headers_le : ∀ header ∈ headers s, header.id ≤ (last s).1
  rows_le : ∀ n ∈ rows s, n.layoutId ≤ (last s).1

theorem FiledTo.mono {bound' : Int × Int} (h : FiledTo bound s) (hle : bound' ≤ bound) :
    FiledTo bound' s :=
  { h with le_last := le_trans hle h.le_last }

theorem FiledTo.of_le (h : FiledTo bound s) (hsound : Sound s') (hlast : last s ≤ last s')
    (hheaders : ∀ header ∈ headers s', ∃ old ∈ headers s, old.id = header.id)
    (hrows : rows s' ⊆ rows s) : FiledTo bound s' where
  sound := hsound
  le_last := le_trans h.le_last hlast
  headers_le := fun header hheader ↦ by
    obtain ⟨old, hold, hid⟩ := hheaders header hheader
    exact hid ▸ Int.le_trans (h.headers_le old hold) hlast.1
  rows_le := fun n hn ↦ Int.le_trans (h.rows_le n (hrows hn)) hlast.1

theorem keeps_filedTo_of_quiet {α : Type} {m : Step σ α} (hquiet : Step.Quiet rows Sound m)
    (hsteady : Step.Steady headers last m) : Step.Keeps (FiledTo bound) m := by
  intro s hs
  obtain ⟨hsound, hrows⟩ := hquiet s hs.sound
  obtain ⟨hheaders, hlast⟩ := hsteady s
  exact hs.of_le hsound hlast (fun header hheader ↦ ⟨header, hheaders ▸ hheader, rfl⟩)
    (hrows ▸ List.Subset.refl _)

theorem keeps_filedTo_insertNode {n : Node} (hn : n.layoutId ≤ bound.1) :
    Step.Keeps (FiledTo bound) (Store.insertNode (σ := σ) n) := by
  intro s hs
  obtain ⟨hheaders, hlast⟩ := steady_insertNode n s
  rcases hrun : (Store.insertNode n).run s with ⟨r, s'⟩
  rw [hrun] at hheaders hlast
  cases r with
  | error e =>
    obtain rfl := insertNode_refused hrun
    exact hs
  | ok id =>
    obtain ⟨hsound, hrows, -⟩ := insertNode_run hs.sound hrun
    refine ⟨hsound, le_trans hs.le_last hlast, fun header hheader ↦ ?_, fun r hr ↦ ?_⟩
    · exact Int.le_trans (hs.headers_le header (hheaders ▸ hheader)) hlast.1
    · rw [hrows] at hr
      rcases List.mem_append.mp hr with hr | hr
      · exact Int.le_trans (hs.rows_le r hr) hlast.1
      · obtain rfl := List.mem_singleton.mp hr
        exact Int.le_trans hn (le_trans hs.le_last hlast).1

theorem keeps_filedTo_deleteSubtree (d : Int) :
    Step.Keeps (FiledTo bound) (Store.deleteSubtree (σ := σ) d) := by
  intro s hs
  obtain ⟨hheaders, hlast⟩ := steady_deleteSubtree d s
  obtain ⟨removed, hok⟩ := deleteSubtree_carried d s
  obtain ⟨hsound, hrows, -⟩ := deleteSubtree_run hs.sound (Prod.ext hok rfl)
  exact hs.of_le hsound hlast (fun header hheader ↦ ⟨header, hheaders ▸ hheader, rfl⟩)
    (hrows ▸ List.filter_subset_self _)

/-- The new layout gets an id of its own, which no row belongs to. -/
theorem FiledTo.createLayout (h : FiledTo bound s) {header : LayoutHeader} {id : Int}
    (hrun : (Store.createLayout header).run s = (.ok id, s')) :
    FiledTo (id, bound.2) s' ∧ bound.1 ≤ id := by
  obtain ⟨hheaders, hlt, hle, hnode⟩ := createLayout_run hrun
  obtain ⟨hsound, hrows⟩ := hrun ▸ quiet_createLayout header s h.sound
  refine ⟨⟨hsound, ⟨hle, Int.le_trans h.le_last.2 hnode⟩, fun new hnew ↦ ?_, fun n hn ↦ ?_⟩,
    Int.le_trans h.le_last.1 (Int.le_of_lt hlt)⟩
  · rw [hheaders] at hnew
    rcases List.mem_append.mp hnew with hold | hnew
    · have hbehind := h.headers_le new hold
      omega
    · obtain rfl := List.mem_singleton.mp hnew
      exact hle
  · have hbehind := h.rows_le n (hrows ▸ hn)
    omega

theorem keeps_filedTo_createLayout (header : LayoutHeader) :
    Step.Keeps (FiledTo bound) (Store.createLayout (σ := σ) header) := by
  intro s hs
  rcases hrun : (Store.createLayout header).run s with ⟨r, s'⟩
  cases r with
  | error e =>
    obtain rfl := createLayout_refused hrun
    exact hs
  | ok id =>
    obtain ⟨hcreated, hle⟩ := hs.createLayout hrun
    exact hcreated.mono ⟨hle, Int.le_refl _⟩

theorem keeps_filedTo_updateHeader (header : LayoutHeader) :
    Step.Keeps (FiledTo bound) (Store.updateHeader (σ := σ) header) := by
  intro s hs
  obtain ⟨hids, hlast⟩ := updateHeader_ids header s
  obtain ⟨hsound, hrows⟩ := quiet_updateHeader header s hs.sound
  refine hs.of_le hsound (le_of_eq hlast.symm) (fun new hnew ↦ ?_) (hrows ▸ List.Subset.refl _)
  exact List.mem_map.mp (hids ▸ List.mem_map_of_mem hnew)

theorem keeps_filedTo_fetchPlan (id : Int) :
    Step.Keeps (FiledTo bound) (Layout.fetchPlan (σ := σ) id) :=
  Layout.keeps_fetchPlan (fun id ↦ keeps_filedTo_of_quiet (quiet_plan? id) (steady_plan? id)) id

theorem keeps_filedTo_save :
    Step.Keeps (fun p : Layout × σ ↦ FiledTo bound p.2) Layout.save := by
  refine Step.Keeps.get.bind fun p ↦ ?_
  refine (Step.Keeps.second (keeps_filedTo_fetchPlan _)).bind fun plan ↦ ?_
  refine (Step.Keeps.first _).bind fun _ ↦ (Step.Keeps.first _).bind fun _ ↦ ?_
  refine Step.Keeps.get.bind fun q ↦ ?_
  refine (Step.Keeps.second (keeps_filedTo_createLayout _)).bind_of fun q id q' hq hrun ↦ ?_
  obtain ⟨hcreated, hle⟩ := hq.createLayout (Step.run_second_eq_ok_iff.mp hrun).1
  -- What follows writes rows of the new layout only.
  have hrest : Step.Keeps (fun p : Layout × σ ↦ FiledTo (id, bound.2) p.2) (do
      Step.first (Step.modify fun l ↦ { l with header := { l.header with id } })
      let _ ← Layout.onTreeAndStore (NodeTree.persistAll id)
      Step.first (Step.modify fun l ↦ { l with nodes := l.tree.flatten })) := by
    refine (Step.Keeps.first _).bind fun _ ↦ ?_
    refine (Layout.keeps_onTreeAndStore (NodeTree.keeps_persistAll ?_)).bind fun _ ↦ .first _
    exact fun n hlayout _ _ ↦ keeps_filedTo_insertNode (Int.le_of_eq hlayout)
  exact (hrest q' hcreated).mono ⟨hle, Int.le_refl _⟩

theorem keeps_filedTo_update :
    Step.Keeps (fun p : Layout × σ ↦ FiledTo bound p.2) Layout.update := by
  refine Step.Keeps.get.bind fun p ↦ ?_
  refine (Step.Keeps.second (keeps_filedTo_fetchPlan _)).bind fun plan ↦ ?_
  refine (Step.Keeps.first _).bind fun _ ↦ (Step.Keeps.first _).bind fun _ ↦
    (Step.Keeps.first _).bind fun _ ↦ ?_
  refine Step.Keeps.get.bind fun ⟨l, _⟩ ↦ ?_
  refine (Step.Keeps.second (keeps_filedTo_updateHeader _)).bind_of fun q _ q' hq hrun ↦ ?_
  have hupdate := (Step.run_second_eq_ok_iff.mp hrun).1
  have hfound : FiledTo (max bound.1 l.header.id, bound.2) q'.2 := by
    obtain ⟨old, hold, hid⟩ := updateHeader_found hupdate
    have hle : l.header.id ≤ (last q.2).1 := hid ▸ hq.headers_le old hold
    have hahead : FiledTo (max bound.1 l.header.id, bound.2) q.2 :=
      { hq with le_last := ⟨Int.max_le.mpr ⟨hq.le_last.1, hle⟩, hq.le_last.2⟩ }
    have hkept := keeps_filedTo_updateHeader l.header q.2 hahead
    rwa [hupdate] at hkept
  -- What follows deletes rows and writes rows of the layout that was found.
  have hrest : Step.Keeps
      (fun p : Layout × σ ↦ FiledTo (max bound.1 l.header.id, bound.2) p.2) (do
      let rows ← Step.second (Store.nodes l.header.id)
      Step.first (Step.modify Layout.keepTree)
      let live ← Layout.deleteStaleRoots (l.tree.root?.map Node.id) rows
      let _ ← Layout.onTreeAndStore (NodeTree.reconcile l.header.id live)
      let nodes ← Step.second (Store.nodes l.header.id)
      Step.first (Step.modify fun l ↦ { l with nodes, kept := none })) := by
    have hnodes : Step.Keeps
        (fun p : Layout × σ ↦ FiledTo (max bound.1 l.header.id, bound.2) p.2)
        (Step.second (Store.nodes l.header.id)) :=
      .second (keeps_filedTo_of_quiet (quiet_nodes l.header.id) (steady_nodes l.header.id))
    refine hnodes.bind fun rows ↦ (Step.Keeps.first _).bind fun _ ↦ ?_
    refine (Layout.keeps_deleteStaleRoots keeps_filedTo_deleteSubtree _ rows).bind fun live ↦ ?_
    refine (Layout.keeps_onTreeAndStore (NodeTree.keeps_reconcile ?_
      keeps_filedTo_deleteSubtree live)).bind fun _ ↦ hnodes.bind fun _ ↦ .first _
    exact fun n hlayout _ ↦ keeps_filedTo_insertNode (hlayout ▸ Int.le_max_right _ _)
  exact (hrest q' hfound).mono ⟨Int.le_max_left _ _, Int.le_refl _⟩

theorem keeps_filedTo_load (id : Int) :
    Step.Keeps (FiledTo bound) (Layout.load (σ := σ) id) :=
  Layout.keeps_load (fun id ↦ keeps_filedTo_of_quiet (quiet_header? id) (steady_header? id))
    (fun id ↦ keeps_filedTo_of_quiet (quiet_nodes id) (steady_nodes id)) id

theorem keeps_filedTo_delete (l : Layout) :
    Step.Keeps (FiledTo bound) (Layout.delete (σ := σ) l) := by
  intro s hs
  obtain ⟨hsound, hrows, hheaders, hlast⟩ := deleteLayout_run l.header.id s
  exact hs.of_le (hsound hs.sound) (le_of_eq hlast.symm)
    (fun header hheader ↦ ⟨header, hheaders.subset hheader, rfl⟩) hrows.subset

/-! ## Histories -/

/-- No layout is stored yet. -/
structure Blank (s : σ) : Prop where
  sound : Sound s
  rows_eq : rows s = []
  headers_eq : headers s = []

theorem Rows.numberedTo_zero_nil : NumberedTo [] 0 where
  keyed := ⟨List.nodup_nil, fun _ hn ↦ absurd hn List.not_mem_nil⟩
  le_last := fun _ hn ↦ absurd hn List.not_mem_nil
  last_nonneg := Int.le_refl 0

theorem Database.blank_of_plans (plans : List Plan) (lastPlan : Int) :
    Blank ({ plans, lastPlan } : Database) :=
  ⟨Rows.numberedTo_zero_nil, rfl, rfl⟩

theorem Recording.blank_of_plans (plans : List Plan) : Blank ({ plans } : Recording) :=
  ⟨Rows.numberedTo_zero_nil, rfl, rfl⟩

/-- From `s₀` layouts were saved, loaded, updated and deleted in any order, and whether that was
carried out or broke off. -/
inductive Reaches (s₀ : σ) : σ → Prop where
  | refl : Reaches s₀ s₀
  | save {s : σ} (h : Reaches s₀ s) (l : Layout) : Reaches s₀ (Layout.save.run (l, s)).2.2
  | load {s : σ} (h : Reaches s₀ s) (id : Int) : Reaches s₀ ((Layout.load id).run s).2
  | update {s : σ} (h : Reaches s₀ s) (l : Layout) : Reaches s₀ (Layout.update.run (l, s)).2.2
  | delete {s : σ} (h : Reaches s₀ s) (l : Layout) : Reaches s₀ ((Layout.delete l).run s).2

theorem Blank.filedTo (h : Blank s) : FiledTo (last s) s where
  sound := h.sound
  le_last := le_refl _
  headers_le := fun _ hheader ↦ by
    rw [h.headers_eq] at hheader
    cases hheader
  rows_le := fun _ hn ↦ by
    rw [h.rows_eq] at hn
    cases hn

theorem Reaches.filedTo (h : Reaches s₀ s) (hstart : FiledTo bound s₀) : FiledTo bound s := by
  induction h with
  | refl => exact hstart
  | save _ l ih => exact keeps_filedTo_save (l, _) ih
  | load _ id ih => exact keeps_filedTo_load id _ ih
  | update _ l ih => exact keeps_filedTo_update (l, _) ih
  | delete _ l ih => exact keeps_filedTo_delete l _ ih

end AddressPlan
