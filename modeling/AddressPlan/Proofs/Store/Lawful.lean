import AddressPlan.Proofs.Rows.Closure
import AddressPlan.Proofs.StepRuns

/-!
# Lawful stores

What the operations of a store do to its node rows.  An insertion adds one row, under the
id it brings if that is positive; a deletion takes away the row under an id and all rows
below it, and tells their ids; nothing else touches a row.  Both stores keep these laws.
-/

namespace AddressPlan

open Rows

def Rows.inOrder (rows : List Node) : List Node :=
  Order.sortBy (fun a b ↦ Order.lexLe (a.sequence, a.id) (b.sequence, b.id)) rows

/-- A step that leaves the rows alone. -/
def Step.Quiet {σ α : Type} (rows : σ → List Node) (Sound : σ → Prop) (m : Step σ α) : Prop :=
  ∀ s, Sound s → Sound (m.run s).2 ∧ rows (m.run s).2 = rows s

class LawfulStore (σ : Type) [Store σ] where
  rows : σ → List Node
  /-- The numbering is ahead of all rows. -/
  Sound : σ → Prop
  keyed {s : σ} : Sound s → Keyed (rows s)
  quiet_plan? (id : Int) : Step.Quiet rows Sound (Store.plan? (σ := σ) id)
  quiet_createLayout (header : LayoutHeader) :
    Step.Quiet rows Sound (Store.createLayout (σ := σ) header)
  quiet_updateHeader (header : LayoutHeader) :
    Step.Quiet rows Sound (Store.updateHeader (σ := σ) header)
  nodes_run (id : Int) (s : σ) :
    (Store.nodes id).run s = (.ok (inOrder (ofLayout (rows s) id)), ((Store.nodes id).run s).2)
  quiet_nodes (id : Int) : Step.Quiet rows Sound (Store.nodes (σ := σ) id)
  insertNode_run {n : Node} {s s' : σ} {id : Int} (h : Sound s)
    (hrun : (Store.insertNode n).run s = (.ok id, s')) :
    Sound s' ∧ rows s' = rows s ++ [{ n with id }] ∧ (0 < n.id → id = n.id)
  deleteSubtree_run {d : Int} {s s' : σ} {removed : List Int} (h : Sound s)
    (hrun : (Store.deleteSubtree d).run s = (.ok removed, s')) :
    Sound s' ∧ rows s' = outside (rows s) removed ∧
      ∀ i, i ∈ removed ↔ (∃ n ∈ rows s, n.id = i) ∧ Below (rows s) i d

/-! ## The relational store -/

namespace Database

theorem nextId_eq_ok {last id : Int} {fault : StoreFault} (h : nextId last fault = .ok id) :
    id = last + 1 := by
  unfold nextId at h
  split at h
  · cases h
    rfl
  · cases h

theorem any_id_eq_true {headers : List LayoutHeader} {id : Int} :
    headers.any (·.id == id) = true ↔ ∃ header ∈ headers, header.id = id := by
  simp

theorem insertNode_eq_ok {db db' : Database} {n : Node} {id : Int}
    (h : db.insertNode n = .ok (id, db')) :
    (0 < n.id ∧ id = n.id ∧ (∀ m ∈ db.nodes, m.id ≠ n.id) ∨ n.id ≤ 0 ∧ id = db.lastNode + 1) ∧
      (∃ header ∈ db.headers, header.id = n.layoutId) ∧
      db' = { db with nodes := db.nodes ++ [{ n with id }], lastNode := max db.lastNode id } := by
  simp only [insertNode, bind, Except.bind, pure, Except.pure, throw, throwThe,
    MonadExceptOf.throw] at h
  by_cases hpos : 0 < n.id
  · simp only [hpos, if_true, true_and] at h
    split at h
    · cases h
    · rename_i hfree
      split at h
      · cases h
      · rename_i hheader
        cases h
        refine ⟨Or.inl ⟨hpos, rfl, ?_⟩, any_id_eq_true.mp (by simpa using hheader), rfl⟩
        simpa using hfree
  · simp only [hpos, if_false, false_and] at h
    split at h
    · cases h
    · rename_i hnext
      split at h
      · cases h
      · rename_i hheader
        cases h
        exact ⟨Or.inr ⟨by omega, nextId_eq_ok hnext⟩,
          any_id_eq_true.mp (by simpa using hheader), rfl⟩

theorem mem_deleteSubtree {db : Database} {d i : Int} :
    i ∈ (db.deleteSubtree d).1 ↔ (∃ n ∈ db.nodes, n.id = i) ∧ Below db.nodes i d := by
  simp only [deleteSubtree, List.mem_map, List.mem_filter, List.contains_eq_mem,
    decide_eq_true_eq, rowsById, (Order.sortBy_perm _ db.nodes).mem_iff, mem_subtreeIds]
  constructor
  · rintro ⟨n, ⟨hn, hbelow⟩, rfl⟩
    exact ⟨⟨n, hn, rfl⟩, hbelow⟩
  · rintro ⟨⟨n, hn, rfl⟩, hbelow⟩
    exact ⟨n, ⟨hn, hbelow⟩, rfl⟩

theorem deleteSubtree_snd (db : Database) (d : Int) :
    (db.deleteSubtree d).2 =
      { db with nodes := outside db.nodes (db.deleteSubtree d).1 } := by
  have hrows : db.nodes.filter (fun n ↦ !(subtreeIds db.nodes d).contains n.id) =
      outside db.nodes (db.deleteSubtree d).1 := by
    apply List.filter_congr
    intro n hn
    have hiff : n.id ∈ subtreeIds db.nodes d ↔ n.id ∈ (db.deleteSubtree d).1 := by
      rw [mem_subtreeIds, mem_deleteSubtree, and_iff_right ⟨n, hn, rfl⟩]
    simp only [List.contains_eq_mem, hiff]
  rw [← hrows]
  rfl

/-! Operations that may be refused leave a refused database as it is. -/

section Change

variable {α : Type} {f : Database → Except StoreFault (α × Database)} {db db' : Database}

theorem run_change_eq_ok_iff {a : α} :
    (change f).run db = (.ok a, db') ↔ f db = .ok (a, db') := by
  unfold Step.run change
  rcases f db with fault | ⟨a', db''⟩
  · simp
  · simp

theorem keeps_change {P : Database → Prop}
    (h : ∀ db a db', P db → f db = .ok (a, db') → P db') : Step.Keeps P (change f) := by
  intro db hdb
  unfold Step.run change
  rcases hf : f db with fault | ⟨a, db'⟩
  · exact hdb
  · exact h db a db' hdb hf

theorem quiet_change
    (h : ∀ db a db', f db = .ok (a, db') → db'.nodes = db.nodes ∧ db'.lastNode = db.lastNode) :
    Step.Quiet Database.nodes (fun db ↦ NumberedTo db.nodes db.lastNode) (change f) := by
  intro db hdb
  refine keeps_change (P := fun db' ↦ NumberedTo db'.nodes db'.lastNode ∧ db'.nodes = db.nodes)
    (fun db₁ a db' h₁ hrun ↦ ?_) db ⟨hdb, rfl⟩
  obtain ⟨hnodes, hlast⟩ := h db₁ a db' hrun
  rwa [hnodes, hlast]

theorem map_mk_eq_ok_iff {r : Except StoreFault Database} {db : Database} :
    r.map (Prod.mk ()) = .ok ((), db) ↔ r = .ok db := by
  cases r with
  | ok db' => simp [Except.map]
  | error fault => simp [Except.map]

end Change

theorem createLayout_eq_ok {db db' : Database} {header : LayoutHeader} {id : Int}
    (h : db.createLayout header = .ok (id, db')) :
    (∃ plan ∈ db.plans, plan.id = header.planId) ∧ id = db.lastLayout + 1 ∧
      db' = { db with headers := db.headers ++ [{ header with id }], lastLayout := id } := by
  simp only [createLayout, bind, Except.bind, pure, Except.pure, throw, throwThe,
    MonadExceptOf.throw] at h
  split at h
  · cases h
  · rename_i hplan
    split at h
    · cases h
    · rename_i hnext
      cases h
      exact ⟨by simpa using hplan, nextId_eq_ok hnext, rfl⟩

theorem createLayout_of_room {db : Database} {header : LayoutHeader}
    (hplan : ∃ plan ∈ db.plans, plan.id = header.planId) (hroom : db.lastLayout < largestId) :
    db.createLayout header = .ok (db.lastLayout + 1, { db with
      headers := db.headers ++ [{ header with id := db.lastLayout + 1 }]
      lastLayout := db.lastLayout + 1 }) := by
  have hany : db.plans.any (·.id == header.planId) = true := by simpa using hplan
  simp [createLayout, nextId, hany, hroom, bind, Except.bind, pure, Except.pure]

theorem updateHeader_eq_ok {db db' : Database} {header : LayoutHeader}
    (h : db.updateHeader header = .ok db') :
    (∃ old ∈ db.headers, old.id = header.id) ∧
      db' = { db with headers := db.headers.map fun old ↦
        if old.id == header.id then { header with planId := old.planId } else old } := by
  unfold updateHeader at h
  split at h
  · rename_i hheader
    cases h
    exact ⟨any_id_eq_true.mp hheader, rfl⟩
  · cases h

instance : LawfulStore Database where
  rows := Database.nodes
  Sound db := NumberedTo db.nodes db.lastNode
  keyed := NumberedTo.keyed
  quiet_plan? _ _ h := ⟨h, rfl⟩
  quiet_createLayout header := quiet_change fun db id db' hrun ↦ by
    obtain ⟨-, -, rfl⟩ := createLayout_eq_ok hrun
    exact ⟨rfl, rfl⟩
  quiet_updateHeader header := quiet_change fun db _ db' hrun ↦ by
    obtain ⟨-, rfl⟩ := updateHeader_eq_ok (map_mk_eq_ok_iff.mp hrun)
    exact ⟨rfl, rfl⟩
  nodes_run _ _ := rfl
  quiet_nodes _ _ h := ⟨h, rfl⟩
  insertNode_run h hrun := by
    obtain ⟨hid, -, rfl⟩ := insertNode_eq_ok (run_change_eq_ok_iff.mp hrun)
    exact ⟨h.append_row hid, rfl, fun hpos ↦ by omega⟩
  deleteSubtree_run {d db db' removed} h hrun := by
    have hok : (Except.ok (db.deleteSubtree d).1, (db.deleteSubtree d).2) = (.ok removed, db') :=
      hrun
    cases hok
    rw [deleteSubtree_snd]
    exact ⟨h.sublist List.filter_sublist, rfl, fun _ ↦ mem_deleteSubtree⟩

end Database

/-! ## The recording store -/

namespace Recording

theorem run_insertNode_eq_ok {n : Node} {s s' : Recording} {id : Int}
    (h : (insertNode n).run s = (.ok id, s')) :
    (0 < n.id ∧ id = n.id ∧ (∀ m ∈ s.nodes, m.id ≠ n.id) ∨ n.id ≤ 0 ∧ id = s.lastId + 1) ∧
      s' = { s with
        lastId := max s.lastId id
        nodes := s.nodes ++ [{ n with id }]
        inserted := s.inserted + 1
        calls := s.calls ++ [.insertNode id] } := by
  simp only [Step.run, insertNode] at h
  split at h
  · cases h
  · split at h
    · cases h
    · rename_i hfree
      cases h
      refine ⟨?_, rfl⟩
      by_cases hpos : 0 < n.id
      · refine Or.inl ⟨hpos, if_pos hpos, ?_⟩
        simpa [hpos] using hfree
      · exact Or.inr ⟨by omega, if_neg hpos⟩

theorem updateHeader_snd (header : LayoutHeader) (s : Recording) :
    (updateHeader header s).2.nodes = s.nodes ∧ (updateHeader header s).2.lastId = s.lastId := by
  dsimp only [updateHeader]
  split
  · exact ⟨rfl, rfl⟩
  · exact ⟨rfl, rfl⟩

theorem mem_removed {s : Recording} {d i : Int} :
    i ∈ (doomed s.nodes d).filter (fun id ↦ s.nodes.any (·.id == id)) ↔
      (∃ n ∈ s.nodes, n.id = i) ∧ Below s.nodes i d := by
  rw [List.mem_filter, mem_doomed, and_comm]
  simp

instance : LawfulStore Recording where
  rows := Recording.nodes
  Sound s := NumberedTo s.nodes s.lastId
  keyed := NumberedTo.keyed
  quiet_plan? _ _ h := ⟨h, rfl⟩
  quiet_createLayout _ _ h := ⟨h.succ, rfl⟩
  quiet_updateHeader header s h := by
    obtain ⟨hnodes, hlast⟩ := updateHeader_snd header s
    change NumberedTo (updateHeader header s).2.nodes (updateHeader header s).2.lastId ∧
      (updateHeader header s).2.nodes = s.nodes
    rw [hnodes, hlast]
    exact ⟨h, rfl⟩
  nodes_run _ _ := rfl
  quiet_nodes _ _ h := ⟨h, rfl⟩
  insertNode_run h hrun := by
    obtain ⟨hid, rfl⟩ := run_insertNode_eq_ok hrun
    exact ⟨h.append_row hid, rfl, fun hpos ↦ by omega⟩
  deleteSubtree_run {d s s' removed} h hrun := by
    have hok : (deleteSubtree d).run s = (.ok removed, s') := hrun
    unfold Step.run deleteSubtree at hok
    cases hok
    exact ⟨h.sublist List.filter_sublist, rfl, fun _ ↦ mem_removed⟩

end Recording

end AddressPlan
