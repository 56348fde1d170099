import AddressPlan.Proofs.NodeTree.Matching
import AddressPlan.Proofs.Store.Deletions
import Mathlib.Algebra.Order.Group.Int

/-!
# The two stores side by side

The recording store gives layouts and nodes ids from one counter, the relational store from two.
Their tables are parallel if they hold the same rows in the same order, under ids that correspond
and that were given in the same order.  Every operation on parallel tables, with ids that
correspond, has the same outcome and leaves the tables parallel.
-/

namespace AddressPlan

open List Relator Rows

variable {P L : Int → Int → Prop} {a a' b b' last last' : Int}

/-- The ids that two counters gave, in pairs.  Zero, which no counter gives, stands for itself. -/
structure PairedTo (P : Int → Int → Prop) (last last' : Int) : Prop where
  zero : P 0 0
  lt_iff : ∀ {a a' b b'}, P a a' → P b b' → (a < b ↔ a' < b')
  nonneg : ∀ {a a'}, P a a' → 0 ≤ a ∧ 0 ≤ a'
  le_last : ∀ {a a'}, P a a' → a ≤ last ∧ a' ≤ last'

namespace PairedTo

theorem biUnique (h : PairedTo P last last') : BiUnique P := by
  constructor
  · intro a b c ha hb
    have hab := h.lt_iff ha hb
    have hba := h.lt_iff hb ha
    omega
  · intro a b c hb hc
    have hbc := h.lt_iff hb hc
    have hcb := h.lt_iff hc hb
    omega

theorem le_iff (h : PairedTo P last last') (ha : P a a') (hb : P b b') : a ≤ b ↔ a' ≤ b' := by
  have hba := h.lt_iff hb ha
  omega

theorem eq_iff (h : PairedTo P last last') (ha : P a a') (hb : P b b') : a = b ↔ a' = b' :=
  rel_eq h.biUnique ha hb

theorem mono {later later' : Int} (h : PairedTo P last last') (hle : last ≤ later)
    (hle' : last' ≤ later') : PairedTo P later later' :=
  { h with le_last := fun ha ↦
      ⟨Int.le_trans (h.le_last ha).1 hle, Int.le_trans (h.le_last ha).2 hle'⟩ }

end PairedTo

/-- The next ids of both counters make a pair, too. -/
def Extended (P : Int → Int → Prop) (id id' : Int) (a a' : Int) : Prop :=
  P a a' ∨ a = id ∧ a' = id'

theorem le_extended (P : Int → Int → Prop) (id id' : Int) : P ≤ Extended P id id' :=
  fun _ _ ↦ Or.inl

theorem PairedTo.extended {id id' : Int} (h : PairedTo P last last') (hid : last < id)
    (hid' : last' < id') : PairedTo (Extended P id id') id id' where
  zero := Or.inl h.zero
  lt_iff := by
    rintro a a' b b' (ha | ⟨rfl, rfl⟩) (hb | ⟨rfl, rfl⟩)
    · exact h.lt_iff ha hb
    · have hle := h.le_last ha
      omega
    · have hle := h.le_last hb
      omega
    · omega
  nonneg := by
    have hzero := h.le_last h.zero
    rintro a a' (ha | ⟨rfl, rfl⟩)
    · exact h.nonneg ha
    · omega
  le_last := by
    rintro a a' (ha | ⟨rfl, rfl⟩)
    · have hle := h.le_last ha
      omega
    · omega

/-! ## Tables -/

structure LayoutHeader.Matches (L : Int → Int → Prop) (h h' : LayoutHeader) : Prop where
  id : L h.id h'.id
  rest : h' = { h with id := h'.id }

/-- The rows match, and so do the layouts that they belong to. -/
structure Node.RowMatches (P L : Int → Int → Prop) (n n' : Node) : Prop
    extends n.Matches P n' where
  layoutId : L n.layoutId n'.layoutId

structure Parallel (P L : Int → Int → Prop) (s : Recording) (db : Database) : Prop where
  ids : PairedTo P s.lastId db.lastNode
  layoutIds : PairedTo L s.lastId db.lastLayout
  plans : db.plans = s.plans
  headers : Forall₂ (LayoutHeader.Matches L) s.headers db.headers
  nodes : Forall₂ (Node.RowMatches P L) s.nodes db.nodes
  sound : NumberedTo s.nodes s.lastId
  unfailing : s.failAfter = none

/-- How many ids were given to layouts and nodes. -/
def Database.given (db : Database) : Int :=
  db.lastLayout + db.lastNode

/-- What a store counts of a plan does not matter. -/
def SamePlan (plan plan' : Plan) : Prop :=
  plan' = { plan with layoutCount := plan'.layoutCount }

theorem Node.RowMatches.mono {Q M : Int → Int → Prop} {n n' : Node} (h : n.RowMatches P L n')
    (hP : P ≤ Q) (hL : L ≤ M) : n.RowMatches Q M n' :=
  { h.toMatches.mono hP with layoutId := hL _ _ h.layoutId }

theorem LayoutHeader.Matches.mono {M : Int → Int → Prop} {h h' : LayoutHeader}
    (hh : h.Matches L h') (hL : L ≤ M) : h.Matches M h' :=
  { hh with id := hL _ _ hh.id }

/-! ## Reading -/

theorem below_of_matches (hP : BiUnique P) {rows rows' : List Node}
    (h : Forall₂ (Node.Matches P) rows rows') {d d' : Int} (hd : P d d')
    (hbelow : Below rows a d) (ha : P a a') : Below rows' a' d' := by
  induction hbelow using Relation.ReflTransGen.head_induction_on generalizing a' with
  | refl => exact (hP.2 hd ha) ▸ Below.refl _
  | head hlink _ ih =>
    obtain ⟨n, hn, rfl, rfl⟩ := hlink
    obtain ⟨n', hn', hmatch⟩ := exists_right_of_forall₂ h hn
    obtain rfl := hP.2 ha hmatch.id
    exact (ih hmatch.parentId).of_mem hn'

theorem stored_below_of_matches (hP : BiUnique P) {rows rows' : List Node}
    (h : Forall₂ (Node.Matches P) rows rows') {d d' : Int} (hd : P d d') (ha : P a a')
    (hbelow : (∃ n ∈ rows, n.id = a) ∧ Below rows a d) :
    (∃ n ∈ rows', n.id = a') ∧ Below rows' a' d' := by
  obtain ⟨⟨n, hn, rfl⟩, hbelow⟩ := hbelow
  obtain ⟨n', hn', hmatch⟩ := exists_right_of_forall₂ h hn
  exact ⟨⟨n', hn', hP.2 hmatch.id ha⟩, below_of_matches hP h hd hbelow ha⟩

/-- Parents correspond, and so does what stands below an id. -/
theorem stored_below_iff_of_matches (hP : BiUnique P) {rows rows' : List Node}
    (h : Forall₂ (Node.Matches P) rows rows') {d d' : Int} (hd : P d d') (ha : P a a') :
    (∃ n ∈ rows, n.id = a) ∧ Below rows a d ↔ (∃ n ∈ rows', n.id = a') ∧ Below rows' a' d' := by
  have hback : Forall₂ (Node.Matches (flip P)) rows' rows :=
    (h.imp fun _ _ hn ↦ hn.flip).flip
  exact ⟨stored_below_of_matches hP h hd ha,
    stored_below_of_matches (biUnique_flip hP) hback hd ha⟩

/-! ## Insertions that are carried out -/

theorem Recording.run_insertNode_new {s : Recording} {n : Node} (hunfailing : s.failAfter = none)
    (hn : n.id = 0) : (Store.insertNode n).run s = (.ok (s.lastId + 1), { s with
      lastId := s.lastId + 1
      nodes := s.nodes ++ [{ n with id := s.lastId + 1 }]
      inserted := s.inserted + 1
      calls := s.calls ++ [.insertNode (s.lastId + 1)] }) := by
  change Recording.insertNode n s = _
  simp [Recording.insertNode, hunfailing, hn]

theorem Recording.run_insertNode_kept {s : Recording} {n : Node} (hunfailing : s.failAfter = none)
    (hn : 0 < n.id) (hfree : ∀ m ∈ s.nodes, m.id ≠ n.id) (hle : n.id ≤ s.lastId) :
    (Store.insertNode n).run s = (.ok n.id, { s with
      nodes := s.nodes ++ [n]
      inserted := s.inserted + 1
      calls := s.calls ++ [.insertNode n.id] }) := by
  have hany : ¬ ∃ m ∈ s.nodes, m.id = n.id := fun ⟨m, hm, hid⟩ ↦ hfree m hm hid
  change Recording.insertNode n s = _
  simp [Recording.insertNode, hunfailing, hn, hany, Int.max_eq_left hle]

theorem Database.insertNode_new {db : Database} {n : Node} (hn : n.id = 0)
    (hstored : ∃ header ∈ db.headers, header.id = n.layoutId) (hroom : db.lastNode < largestId) :
    db.insertNode n = .ok (db.lastNode + 1, { db with
      nodes := db.nodes ++ [{ n with id := db.lastNode + 1 }]
      lastNode := db.lastNode + 1 }) := by
  have hany := any_id_eq_true.mpr hstored
  simp [insertNode, nextId, hn, hroom, hany, bind, Except.bind, pure, Except.pure]

theorem Database.insertNode_kept {db : Database} {n : Node} (hn : 0 < n.id)
    (hfree : ∀ m ∈ db.nodes, m.id ≠ n.id) (hle : n.id ≤ db.lastNode)
    (hstored : ∃ header ∈ db.headers, header.id = n.layoutId) :
    db.insertNode n = .ok (n.id, { db with nodes := db.nodes ++ [n] }) := by
  have hnone : ¬ ∃ m ∈ db.nodes, m.id = n.id := fun ⟨m, hm, hid⟩ ↦ hfree m hm hid
  have hany := any_id_eq_true.mpr hstored
  simp [insertNode, hn, hnone, hany, Int.max_eq_left hle, bind, Except.bind, pure, Except.pure]

namespace Parallel

variable {s : Recording} {db : Database} {id id' : Int}

theorem stored_iff (h : Parallel P L s db) (hid : P id id') :
    (∃ n ∈ s.nodes, n.id = id) ↔ ∃ n ∈ db.nodes, n.id = id' := by
  have hids : Forall₂ P (s.nodes.map Node.id) (db.nodes.map Node.id) :=
    rel_map (fun _ _ hn ↦ hn.id) h.nodes
  rw [← List.mem_map, ← List.mem_map]
  exact rel_mem h.ids.biUnique hid hids

theorem header_stored_iff (h : Parallel P L s db) (hid : L id id') :
    (∃ header ∈ s.headers, header.id = id) ↔ ∃ header ∈ db.headers, header.id = id' := by
  have hids : Forall₂ L (s.headers.map LayoutHeader.id) (db.headers.map LayoutHeader.id) :=
    rel_map (fun _ _ hn ↦ hn.id) h.headers
  rw [← List.mem_map, ← List.mem_map]
  exact rel_mem h.layoutIds.biUnique hid hids

theorem last_le_given (h : Parallel P L s db) :
    db.lastLayout ≤ db.given ∧ db.lastNode ≤ db.given := by
  have hlayout := (h.layoutIds.le_last h.layoutIds.zero).2
  have hnode := (h.ids.le_last h.ids.zero).2
  unfold Database.given
  omega

/-- The relational store numbers its rows as soundly as the recording one. -/
theorem sound_database (h : Parallel P L s db) : NumberedTo db.nodes db.lastNode where
  keyed := by
    have hids : Forall₂ P (s.nodes.map Node.id) (db.nodes.map Node.id) :=
      rel_map (fun _ _ hn ↦ hn.id) h.nodes
    refine ⟨(rel_nodup h.ids.biUnique hids).mp h.sound.keyed.nodup, fun n' hn' ↦ ?_⟩
    obtain ⟨n, hn, hmatch⟩ := exists_right_of_forall₂ h.nodes.flip hn'
    exact (h.ids.lt_iff h.ids.zero hmatch.id).mp (h.sound.keyed.pos n hn)
  le_last := fun n' hn' ↦ by
    obtain ⟨n, -, hmatch⟩ := exists_right_of_forall₂ h.nodes.flip hn'
    exact (h.ids.le_last hmatch.id).2
  last_nonneg := (h.ids.le_last h.ids.zero).2

/-- What is fetched of a layout corresponds in whatever way the tables do. -/
theorem forall₂_inOrder (h : Parallel P L s db) (hid : L id id') {R : Node → Node → Prop}
    (hR : Forall₂ R s.nodes db.nodes) :
    Forall₂ R (inOrder (ofLayout s.nodes id)) (inOrder (ofLayout db.nodes id')) := by
  have hlayout : Forall₂ (fun n n' ↦ n.RowMatches P L n' ∧ R n n') (ofLayout s.nodes id)
      (ofLayout db.nodes id') :=
    forall₂_filter (fun n n' hn ↦ beq_eq_of_pairs h.layoutIds.biUnique hn.1.layoutId hid)
      (forall₂_both h.nodes hR)
  refine (Order.forall₂_sortBy (fun n n' m m' hn hm ↦ ?_) hlayout).imp fun _ _ hn ↦ hn.2
  have hle := h.ids.le_iff hn.1.id hm.1.id
  rw [Order.lexLe, Order.lexLe, hn.1.sequence_eq, hm.1.sequence_eq, decide_eq_decide.mpr hle]

/-! ## Operations -/

section Operations

open Step

variable {σ τ : Type} {refused : Recording → Database → Prop}

theorem record (h : Parallel P L s db) (call : Call) : Parallel P L (s.record call) db :=
  { h with }

theorem together_plan? (h : Parallel P L s db) (id : Int) :
    Together (Store.plan? id) (Store.plan? id)
      (fun plan s' plan' db' ↦ Option.Rel SamePlan plan plan' ∧
        s.record (.fetchPlan id) = s' ∧ db = db') refused s db := by
  refine .carried rfl rfl ⟨?_, rfl, rfl⟩
  change Option.Rel SamePlan (s.plans.find? _) ((db.plans.find? _).map db.withCount)
  rw [h.plans]
  cases s.plans.find? (·.id == id) with
  | none => exact .none
  | some plan => exact .some rfl

theorem together_header? (h : Parallel P L s db) (hid : L id id') :
    Together (Store.header? id) (Store.header? id')
      (fun header s' header' db' ↦ Option.Rel (LayoutHeader.Matches L) header header' ∧
        s.record (.fetchHeader id) = s' ∧ db = db') refused s db :=
  .carried rfl rfl ⟨forall₂_find? (fun _ _ hh ↦ beq_eq_of_pairs h.layoutIds.biUnique hh.id hid)
    h.headers, rfl, rfl⟩

theorem together_nodes (h : Parallel P L s db) (hid : L id id') {R : Node → Node → Prop}
    (hR : Forall₂ R s.nodes db.nodes) :
    Together (Store.nodes id) (Store.nodes id')
      (fun rows s' rows' db' ↦ Forall₂ R rows rows' ∧ s.record (.fetchNodes id) = s' ∧ db = db')
      refused s db :=
  .carried rfl rfl ⟨h.forall₂_inOrder hid hR, rfl, rfl⟩

theorem together_createLayout (h : Parallel P L s db) {header header' : LayoutHeader}
    (hrest : header' = { header with id := header'.id })
    (hplan : ∃ plan ∈ db.plans, plan.id = header.planId)
    (hroom : db.given < Database.largestId) :
    Together (Store.createLayout header) (Store.createLayout header')
      (fun id s' id' db' ↦ db'.given = db.given + 1 ∧ (∃ header ∈ s'.headers, header.id = id) ∧
        ∃ L' ≥ L, L' id id' ∧ Parallel P L' s' db')
      refused s db := by
  have hlast := h.last_le_given.1
  have hleft : db.lastLayout < Database.largestId := Int.lt_of_le_of_lt hlast hroom
  have hplan' : ∃ plan ∈ db.plans, plan.id = header'.planId := by
    rwa [hrest]
  have hcreate := Database.createLayout_of_room hplan' hleft
  refine .carried rfl (Database.run_change_eq_ok_iff.mpr hcreate)
    ⟨by simp only [Database.given]; omega, ⟨_, List.mem_append_right _ List.mem_cons_self, rfl⟩, _,
      le_extended L (s.lastId + 1) (db.lastLayout + 1), Or.inr ⟨rfl, rfl⟩, ?_⟩
  have hmatch : LayoutHeader.Matches (Extended L (s.lastId + 1) (db.lastLayout + 1))
      { header with id := s.lastId + 1 } { header' with id := db.lastLayout + 1 } :=
    ⟨Or.inr ⟨rfl, rfl⟩, by rw [hrest]⟩
  have hle := le_extended L (s.lastId + 1) (db.lastLayout + 1)
  exact { h with
    ids := h.ids.mono (Int.le_of_lt (Int.lt_succ _)) (Int.le_refl _)
    layoutIds := h.layoutIds.extended (Int.lt_succ _) (Int.lt_succ _)
    sound := h.sound.succ
    headers := rel_append (h.headers.imp fun _ _ hh ↦ hh.mono hle) (.cons hmatch .nil)
    nodes := h.nodes.imp fun _ _ hn ↦ hn.mono (fun _ _ hP ↦ hP) hle }

theorem together_updateHeader (h : Parallel P L s db) {header header' : LayoutHeader}
    (hmatch : header.Matches L header') (hstored : ∃ old ∈ s.headers, old.id = header.id) :
    Together (Store.updateHeader header) (Store.updateHeader header')
      (fun _ s' _ db' ↦ s'.nodes = s.nodes ∧ db'.nodes = db.nodes ∧ db'.given = db.given ∧
        (∃ old ∈ s'.headers, old.id = header.id) ∧ Parallel P L s' db')
      refused s db := by
  have hany := Database.any_id_eq_true.mpr hstored
  have hany' := Database.any_id_eq_true.mpr ((h.header_stored_iff hmatch.id).mp hstored)
  have hrun : (Store.updateHeader header).run s = (.ok (), { s.record (.updateHeader header.id) with
      headers := s.headers.map fun old ↦
        if old.id == header.id then { header with planId := old.planId } else old }) := by
    change Recording.updateHeader header s = _
    simp only [Recording.updateHeader, Recording.record, hany, if_true]
  have hupdate : db.updateHeader header' = .ok { db with
      headers := db.headers.map fun old ↦
        if old.id == header'.id then { header' with planId := old.planId } else old } := by
    rw [Database.updateHeader, if_pos hany']
  have hheaders : Forall₂ (LayoutHeader.Matches L)
      (s.headers.map fun old ↦
        if old.id == header.id then { header with planId := old.planId } else old)
      (db.headers.map fun old ↦
        if old.id == header'.id then { header' with planId := old.planId } else old) := by
    refine rel_map (fun old old' hold ↦ ?_) h.headers
    rw [beq_eq_of_pairs h.layoutIds.biUnique hold.id hmatch.id]
    split
    · refine ⟨hmatch.id, ?_⟩
      rw [hmatch.rest, hold.rest]
    · exact hold
  refine .carried hrun (Database.run_change_eq_ok_iff.mpr (Database.map_mk_eq_ok_iff.mpr hupdate))
    ⟨rfl, rfl, rfl, ?_, { h with headers := hheaders }⟩
  obtain ⟨old, hold, hid⟩ := hstored
  refine ⟨_, List.mem_map_of_mem hold, ?_⟩
  rw [if_pos (beq_iff_eq.mpr hid)]

theorem together_deleteLayout (h : Parallel P L s db) (hid : L id id')
    (hstored : ∃ old ∈ s.headers, old.id = id) :
    Together (Store.deleteLayout id) (Store.deleteLayout id')
      (fun _ s' _ db' ↦ db'.given = db.given ∧ Parallel P L s' db') refused s db := by
  have hany := Database.any_id_eq_true.mpr ((h.header_stored_iff hid).mp hstored)
  have hdelete : db.deleteLayout id' = .ok { db with
      headers := db.headers.filter (·.id != id')
      nodes := db.nodes.filter (·.layoutId != id') } := by
    rw [Database.deleteLayout, if_pos hany]
  have hbne : ∀ {a a'}, L a a' → (a' != id') = (a != id) := fun ha ↦
    congrArg not (beq_eq_of_pairs h.layoutIds.biUnique ha hid)
  refine .carried rfl (Database.run_change_eq_ok_iff.mpr (Database.map_mk_eq_ok_iff.mpr hdelete))
    ⟨rfl, { h with
      headers := forall₂_filter (fun _ _ hh ↦ hbne hh.id) h.headers
      nodes := forall₂_filter (fun _ _ hn ↦ hbne hn.layoutId) h.nodes
      sound := h.sound.sublist filter_sublist }⟩

theorem together_deleteSubtree (h : Parallel P L s db) {d d' : Int} (hd : P d d') :
    Together (Store.deleteSubtree d) (Store.deleteSubtree d')
      (fun removed s' removed' db' ↦ (∀ a a', P a a' → removed'.contains a' = removed.contains a) ∧
        s'.headers = s.headers ∧ db'.given = db.given ∧ Parallel P L s' db')
      refused s db := by
  have hrows : Forall₂ (Node.Matches P) s.nodes db.nodes := h.nodes.imp fun _ _ hn ↦ hn.toMatches
  have hremoved : ∀ a a', P a a' → (db.deleteSubtree d').1.contains a' =
      ((Recording.doomed s.nodes d).filter fun id ↦ s.nodes.any (·.id == id)).contains a := by
    intro a a' ha
    rw [Bool.eq_iff_iff, contains_iff_mem, contains_iff_mem, Database.mem_deleteSubtree,
      Recording.mem_removed]
    exact (stored_below_iff_of_matches h.ids.biUnique hrows hd ha).symm
  have hrun : (Store.deleteSubtree d').run db = (.ok (db.deleteSubtree d').1,
      { db with nodes := outside db.nodes (db.deleteSubtree d').1 }) :=
    Prod.ext rfl (Database.deleteSubtree_snd db d')
  exact .carried rfl hrun ⟨hremoved, rfl, rfl, { h with
    nodes := forall₂_filter (fun n n' hn ↦ congrArg not (hremoved _ _ hn.id)) h.nodes
    sound := h.sound.sublist filter_sublist }⟩

/-- A row is inserted under a new id, or under an id that is free. -/
theorem together_insertNode (h : Parallel P L s db) {n n' : Node} (hmatch : n.RowMatches P L n')
    (hfree : n.id = 0 ∨ 0 < n.id ∧ ∀ m ∈ s.nodes, m.id ≠ n.id)
    (hstored : ∃ header ∈ s.headers, header.id = n.layoutId)
    (hroom : db.given < Database.largestId) :
    Together (Store.insertNode n) (Store.insertNode n')
      (fun id s' id' db' ↦ (id = n.id ∨ s.lastId < id) ∧ s'.nodes = s.nodes ++ [{ n with id }] ∧
        s'.headers = s.headers ∧ db'.given ≤ db.given + 1 ∧
        ∃ P' ≥ P, P' id id' ∧ Parallel P' L s' db')
      refused s db := by
  have hheader := (h.header_stored_iff hmatch.layoutId).mp hstored
  rcases hfree with hn | ⟨hn, hfree⟩
  · have hn' : n'.id = 0 := hn ▸ (h.ids.eq_iff hmatch.id h.ids.zero).mp hn
    have hlast := h.last_le_given.2
    have hleft : db.lastNode < Database.largestId := Int.lt_of_le_of_lt hlast hroom
    have hgiven : db.lastLayout + (db.lastNode + 1) ≤ db.given + 1 := by
      rw [Database.given]
      omega
    have hle := le_extended P (s.lastId + 1) (db.lastNode + 1)
    have hrow : Node.RowMatches (Extended P (s.lastId + 1) (db.lastNode + 1)) L
        { n with id := s.lastId + 1 } { n' with id := db.lastNode + 1 } :=
      { id := Or.inr ⟨rfl, rfl⟩
        parentId := hle _ _ hmatch.parentId
        layoutId := hmatch.layoutId
        rest := by rw [hmatch.rest] }
    refine .carried (Recording.run_insertNode_new h.unfailing hn)
      (Database.run_change_eq_ok_iff.mpr (Database.insertNode_new hn' hheader hleft))
      ⟨Or.inr (Int.lt_succ _), rfl, rfl, hgiven, _, hle, Or.inr ⟨rfl, rfl⟩,
        { h with
          ids := h.ids.extended (Int.lt_succ _) (Int.lt_succ _)
          layoutIds := h.layoutIds.mono (Int.le_of_lt (Int.lt_succ _)) (Int.le_refl _)
          nodes := rel_append (h.nodes.imp fun _ _ hm ↦ hm.mono hle fun _ _ hL ↦ hL)
            (.cons hrow .nil)
          sound := ?_ }⟩
    have happend := h.sound.append_row (Or.inr ⟨Int.le_of_eq hn, rfl⟩)
    rwa [Int.max_eq_right (Int.le_of_lt (Int.lt_succ _))] at happend
  · have hn' : 0 < n'.id := (h.ids.lt_iff h.ids.zero hmatch.id).mp hn
    have hfree' : ∀ m ∈ db.nodes, m.id ≠ n'.id := fun m hm heq ↦ by
      obtain ⟨m, hm, hid⟩ := (h.stored_iff hmatch.id).mpr ⟨m, hm, heq⟩
      exact hfree m hm hid
    obtain ⟨hle, hle'⟩ := h.ids.le_last hmatch.id
    refine .carried (Recording.run_insertNode_kept h.unfailing hn hfree hle)
      (Database.run_change_eq_ok_iff.mpr (Database.insertNode_kept hn' hfree' hle' hheader))
      ⟨Or.inl rfl, rfl, rfl, Int.le_of_lt (Int.lt_succ _), P, fun _ _ hP ↦ hP, hmatch.id,
        { h with
          nodes := rel_append h.nodes (.cons hmatch .nil)
          sound := ?_ }⟩
    have happend := h.sound.append_row (Or.inl ⟨hn, rfl, hfree⟩)
    rwa [Int.max_eq_left hle] at happend

end Operations

end Parallel

end AddressPlan
