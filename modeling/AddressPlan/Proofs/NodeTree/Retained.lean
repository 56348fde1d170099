import AddressPlan.Proofs.Layout.ValidatedFirst
import AddressPlan.Proofs.NodeTree.Flagged

/-!
# Reconciling loses no node

An id that is kept is set free before the first insertion, and whatever id the store gives is
ahead of it.  So no row comes under an id that is taken, although rows of clean nodes may go
away with a branch that they were moved out of.  Afterwards every node of the tree is stored.
-/

namespace AddressPlan.NodeTree

open Rows LawfulStore LawfulHeaders

variable {σ : Type} [Store σ] {layoutId : Int} {t t' : NodeTree} {stored gone : List Int}
  {marks : List (Nat × Bool)} {s s' : σ} {p p' : NodeTree × σ}

/-- The ids under which the marked places are written. -/
def keptIds (t : NodeTree) (marks : List (Nat × Bool)) : List Int :=
  marks.filterMap fun x ↦ if x.2 then (t.node? x.1).map Node.id else none

theorem mem_keptIds {id : Int} :
    id ∈ t.keptIds marks ↔ ∃ i n, (i, true) ∈ marks ∧ t.node? i = some n ∧ n.id = id := by
  simp only [keptIds, List.mem_filterMap, Prod.exists]
  constructor
  · rintro ⟨i, keepId, hmem, hid⟩
    cases keepId with
    | false => cases hid
    | true =>
      obtain ⟨n, hn, rfl⟩ := Option.map_eq_some_iff.mp hid
      exact ⟨i, n, hmem, hn, rfl⟩
  · rintro ⟨i, n, hmem, hn, rfl⟩
    exact ⟨i, true, hmem, by rw [if_pos rfl, hn, Option.map_some]⟩

theorem keptIds_cons {x : Nat × Bool} {n : Node} (hn : t.node? x.1 = some n) :
    t.keptIds (x :: marks) = if x.2 then n.id :: t.keptIds marks else t.keptIds marks := by
  obtain ⟨i, keepId⟩ := x
  dsimp only at hn
  cases keepId <;> simp [keptIds, hn]

/-! ## Ids that are free -/

variable [LawfulStore σ] {g : Guarded σ}

theorem clashes_insertAt {keepId : Bool} {i : Nat} {n : Node} (hn : t.node? i = some n)
    (hfree : keepId = true → ∀ r ∈ rows g.store, r.id ≠ n.id) :
    ((insertAt layoutId keepId i).run (t, g)).2.2.clashes = g.clashes := by
  obtain ⟨slot, hslot, rfl⟩ := node?_eq_some_iff.mp hn
  obtain ⟨row, hrow⟩ : ∃ row : Node, row = { slot.node with
      layoutId
      parentId := t.parentIdAt i
      modified := false
      id := if keepId then slot.node.id else 0 } := ⟨_, rfl⟩
  have hclashes : ((Store.insertNode row).run g).2.clashes = g.clashes := by
    refine Guarded.clashes_insertNode fun hpos ↦ ?_
    cases keepId with
    | false =>
      rw [hrow] at hpos
      exact absurd hpos (Int.lt_irrefl 0)
    | true =>
      rw [hrow]
      exact hfree rfl
  rw [insertAt, Step.run_bind_ok (Step.run_get _)]
  dsimp only
  rw [hslot]
  simp only [Step.run_bind, Step.run_first, Step.run_second, Step.run_modify, ← hrow]
  rcases hinsert : (Store.insertNode row).run g with ⟨r, g₁⟩
  rw [hinsert] at hclashes
  cases r with
  | ok id => exact hclashes
  | error e => exact hclashes

variable [LawfulHeaders σ]

/-- No row is stored under these ids, and none will come under an id that the store gives. -/
structure Reserved (s : σ) (ids : List Int) : Prop where
  nodup : ids.Nodup
  free : ∀ id ∈ ids, ∀ r ∈ rows s, r.id ≠ id
  le_last : ∀ id ∈ ids, id ≤ (last s).2

theorem Reserved.sublist {ids ids' : List Int} (h : Reserved s ids) (hsub : ids'.Sublist ids) :
    Reserved s ids' where
  nodup := h.nodup.sublist hsub
  free := fun id hid ↦ h.free id (hsub.subset hid)
  le_last := fun id hid ↦ h.le_last id (hsub.subset hid)

theorem Reserved.insertNode {ids : List Int} {row : Node} {id : Int} (h : Reserved s ids)
    (hs : Sound s) (hrow : 0 < row.id → row.id ∉ ids)
    (hinsert : (Store.insertNode row).run s = (.ok id, s')) : Reserved s' ids := by
  obtain ⟨-, hrows, hid⟩ := insertNode_run hs hinsert
  have hlast := (hinsert ▸ steady_insertNode row s).2.2
  have hnew : id ∉ ids := by
    by_cases hpos : 0 < row.id
    · rw [hid hpos]
      exact hrow hpos
    · intro hmem
      have hfresh := insertNode_fresh hs hinsert (Int.not_lt.mp hpos)
      have hle := h.le_last id hmem
      omega
  refine ⟨h.nodup, fun a ha r hr ↦ ?_, fun a ha ↦ Int.le_trans (h.le_last a ha) hlast⟩
  rw [hrows] at hr
  rcases List.mem_append.mp hr with hr | hr
  · exact h.free a ha r hr
  · rw [List.mem_singleton.mp hr]
    rintro rfl
    exact hnew ha

/-- If the ids that are kept are free, then no row comes under an id that is taken. -/
theorem clashes_writeMarked (h : Writable (t, g.store) marks)
    (hids : Reserved g.store (t.keptIds marks)) :
    ((writeMarked layoutId marks).run (t, g)).2.2.clashes = g.clashes := by
  induction marks generalizing t g with
  | nil => rfl
  | cons x marks ih =>
    obtain ⟨n, hn⟩ := lt_size_iff.mp (h.lt_size x List.mem_cons_self)
    have hn : t.node? x.1 = some n := hn
    rw [keptIds_cons hn] at hids
    have hclashes : ((insertAt layoutId x.2 x.1).run (t, g)).2.2.clashes = g.clashes := by
      refine clashes_insertAt hn fun hkeep ↦ hids.free n.id ?_
      rw [if_pos hkeep]
      exact List.mem_cons_self
    change ((insertAt layoutId x.2 x.1 >>= fun _ ↦ writeMarked layoutId marks).run
      (t, g)).2.2.clashes = _
    rcases hinsert : (insertAt layoutId x.2 x.1).run (t, g) with ⟨r, t₁, g₁⟩
    rw [hinsert] at hclashes
    cases r with
    | error e => rwa [Step.run_bind_error hinsert]
    | ok _ =>
      rw [Step.run_bind_ok hinsert]
      have hrun : (insertAt layoutId x.2 x.1).run (t, g.store) = (.ok (), (t₁, g₁.store)) :=
        (maps_insertAt Guarded.maps_store layoutId x.2 x.1).of_run hinsert
      obtain ⟨hwrote, hrest⟩ := h.wrote_first hrun
      obtain ⟨row, id, hrow, hstore, -⟩ := run_insertAt_eq_ok hn hrun
      have hid : row.id = if x.2 then n.id else 0 := by rw [hrow]
      refine (ih hrest ?_).trans hclashes
      -- The places that are left show what they did.
      have hsame : t₁.keptIds marks = t.keptIds marks := by
        refine List.filterMap_congr fun y hy ↦ ?_
        have hkept : t₁.node? y.1 = t.node? y.1 := hwrote.kept y.1 fun hmem ↦
          ((List.pairwise_cons.mp h.follows).1 y hy).1 (List.mem_singleton.mp hmem).symm
        rw [hkept]
      rw [hsame]
      split at hids
      · rename_i hkeep
        refine (hids.sublist (List.sublist_cons_self _ _)).insertNode h.sound (fun _ ↦ ?_) hstore
        rw [hid, if_pos hkeep]
        exact (List.nodup_cons.mp hids.nodup).1
      · rename_i hkeep
        refine hids.insertNode h.sound (fun hpos ↦ ?_) hstore
        rw [hid, if_neg hkeep] at hpos
        omega

/-- When the second pass begins, no row is left under an id that it keeps. -/
theorem Rooted.reserved_markedBelow (ht : t.Rooted) (hlinked : t.Linked) (hs : Sound s)
    (hstored : ∀ x ∈ stored, ∃ r ∈ ofLayout (rows s) layoutId, r.id = x)
    (hrows : rows s' = outside (rows s) gone) (hlast : (last s).2 ≤ (last s').2)
    (hgone : AreBelow (rows s) (t.doomedTops stored) gone) :
    Reserved s' (t.keptIds
      (t.markedBelow stored (t.dirtyTops (stored.filter (!gone.contains ·))))) := by
  have htop : ∀ id ∈ t.keptIds
      (t.markedBelow stored (t.dirtyTops (stored.filter (!gone.contains ·)))),
      ∃ q ∈ t.dirtyTops (stored.filter (!gone.contains ·)), q.node.id = id ∧ id ∈ stored := by
    intro id hid
    obtain ⟨i, n, hmark, hn, rfl⟩ := mem_keptIds.mp hid
    obtain ⟨q, hq, rfl, hmem⟩ := ht.exists_top_of_marked hmark rfl
    cases (show t.node? q.place = some q.node from (ht.mem_dirtyTops.mp hq).1).symm.trans hn
    exact ⟨q, hq, rfl, hmem⟩
  refine ⟨?_, fun id hid r hr ↦ ?_, fun id hid ↦ ?_⟩
  · refine (ht.follows_markedBelow (ht.apart_dirtyTops _)).filterMap _ ?_
    intro x y hxy a ha b hb hab
    have hplaces : ∀ (z : Nat × Bool) (c : Int),
        (if z.2 then (t.node? z.1).map Node.id else none) = some c →
          ∃ n, t.node? z.1 = some n ∧ n.id = c := by
      intro z c hc
      split at hc
      · exact Option.map_eq_some_iff.mp hc
      · cases hc
    obtain ⟨n, hn, rfl⟩ := hplaces x a ha
    obtain ⟨m, hm, rfl⟩ := hplaces y b hb
    exact hxy.1 (hlinked.place_eq hn hm hab)
  · obtain ⟨q, hq, rfl, hmem⟩ := htop id hid
    exact ht.free_of_top hgone hq hmem r (hrows ▸ hr)
  · obtain ⟨q, -, -, hmem⟩ := htop id hid
    obtain ⟨r, hr, rfl⟩ := hstored id hmem
    exact Int.le_trans (LawfulHeaders.rows_le hs r (mem_ofLayout.mp hr).1) hlast

/-- Whether it is carried out or not, a reconciliation inserts no row under an id that is
taken. -/
theorem clashes_reconcile (ht : t.Rooted) (hlinked : t.Linked) (hs : Sound s)
    (hstored : ∀ x ∈ stored, ∃ r ∈ ofLayout (rows s) layoutId, r.id = x) :
    ((reconcile layoutId stored).run (t, ({ store := s } : Guarded σ))).2.2.clashes = [] := by
  rcases hdelete : (deleteStored stored (t.dirtyTops stored)).run
    (t, ({ store := s } : Guarded σ)) with ⟨r, t₁, g₁⟩
  have hkeeps : Step.Keeps (fun p : NodeTree × Guarded σ ↦ p.2.clashes = [])
      (deleteStored stored (t.dirtyTops stored)) :=
    keeps_deleteStored (Q := fun g : Guarded σ ↦ g.clashes = []) (fun d g hg ↦ hg) _ _
  have hclashes : g₁.clashes = [] := hkeeps.of_run rfl hdelete
  rw [reconcile, Step.run_bind_ok (Step.run_get _)]
  dsimp only
  cases r with
  | error e => rwa [Step.run_bind_error hdelete]
  | ok live =>
    obtain rfl : t₁ = t := tree_of_deleteStored hdelete
    have hrun : (deleteStored stored (t₁.dirtyTops stored)).run (t₁, s) =
        (.ok live, (t₁, g₁.store)) := (maps_deleteStored Guarded.maps_store _ _).of_run hdelete
    obtain ⟨-, hs₁, gone, hrows, rfl, hgone⟩ := run_deleteStored hs hrun
    have hwrite : ((writeMarked layoutId (t₁.markedBelow stored
        (t₁.dirtyTops (stored.filter (!gone.contains ·))))).run (t₁, g₁)).2.2.clashes = [] :=
      (clashes_writeMarked (ht.writable_markedBelow stored _ hs₁) (ht.reserved_markedBelow
        hlinked hs hstored hrows (last_le_of_deleteStored hrun) hgone)).trans hclashes
    rw [Step.run_bind_ok hdelete, run_replaceEach rfl, Step.run_bind]
    rcases hrun : (writeMarked layoutId (t₁.markedBelow stored
      (t₁.dirtyTops (stored.filter (!gone.contains ·))))).run (t₁, g₁) with ⟨r, t₂, g₂⟩
    rw [hrun] at hwrite
    cases r with
    | ok _ => exact hwrite
    | error e => exact hwrite

/-! ## Nodes and their rows -/

omit [Store σ] [LawfulStore σ] [LawfulHeaders σ] in
theorem nodup_ids_of_places
    (h : ∀ i j n m, t.node? i = some n → t.node? j = some m → n.id = m.id → i = j) :
    (t.flatten.map Node.id).Nodup := by
  refine List.pairwise_iff_getElem.mpr fun i j hi hj hlt heq ↦ Nat.ne_of_lt hlt ?_
  rw [List.length_map] at hi hj
  have hnode : ∀ k (hk : k < t.flatten.length), t.node? k = some t.flatten[k] := fun k hk ↦
    (getElem?_flatten t k).symm.trans (List.getElem?_eq_getElem hk)
  rw [List.getElem_map, List.getElem_map] at heq
  exact h i j _ _ (hnode i hi) (hnode j hj) heq

omit [LawfulStore σ] [LawfulHeaders σ] in
theorem parents_of_reconcile {tally : Tally}
    (hrun : (reconcile layoutId stored).run (t, s) = (.ok tally, p')) (i : Nat) :
    p'.1.parent? i = t.parent? i := by
  obtain ⟨live, s₁, -, hwrite, -⟩ := run_reconcile_steps hrun
  exact parent?_congr (parents_of_writeMarked hwrite) i

namespace Reconciled

variable {written : List Nat} {i j : Nat} {n m : Node}
  (h : Reconciled layoutId stored p p' gone written)

include h

theorem mem_rows (hi : i ∈ written) (hn : p'.1.node? i = some n) : n ∈ rows p'.2 :=
  h.rows_eq ▸ List.mem_append_right _ (List.mem_filterMap.mpr ⟨i, hi, hn⟩)

/-- A node that is not written has an id that is stored and is not gone. -/
theorem id_stays (hi : i ∉ written) (hn : p'.1.node? i = some n) :
    p.1.node? i = some n ∧ n.id ∈ stored ∧ n.id ∉ gone := by
  have hsame : p.1.node? i = some n := (h.unwritten i hi).symm.trans hn
  have hlive : n.id ∈ stored.filter (!gone.contains ·) := by
    by_contra hnot
    exact hi ((h.mem_written i).mpr ⟨i, Under.refl i, n, hsame, Or.inr hnot⟩)
  obtain ⟨hmem, hstays⟩ := List.mem_filter.mp hlive
  exact ⟨hsame, hmem, by simpa using hstays⟩

/-- Every node is stored for the layout under its id. -/
theorem exists_row (hstored : ∀ x ∈ stored, ∃ r ∈ ofLayout (rows p.2) layoutId, r.id = x)
    (hn : p'.1.node? i = some n) : ∃ r ∈ ofLayout (rows p'.2) layoutId, r.id = n.id := by
  by_cases hi : i ∈ written
  · obtain ⟨m, id, -, hr, -⟩ := h.written i hi
    cases hn.symm.trans hr
    exact ⟨_, mem_ofLayout.mpr ⟨h.mem_rows hi hn, rfl⟩, rfl⟩
  · obtain ⟨-, hmem, hstays⟩ := h.id_stays hi hn
    obtain ⟨r, hr, hid⟩ := hstored n.id hmem
    obtain ⟨hr, hlayout⟩ := mem_ofLayout.mp hr
    have houtside : r ∈ outside (rows p.2) gone := mem_outside.mpr ⟨hr, hid ▸ hstays⟩
    exact ⟨r, mem_ofLayout.mpr ⟨h.rows_eq ▸ List.mem_append_left _ houtside, hlayout⟩, hid⟩

theorem ids_nodup : (((outside (rows p.2) gone).map Node.id) ++
    (written.filterMap p'.1.node?).map Node.id).Nodup := by
  have hnodup := (keyed h.sound).nodup
  rwa [h.rows_eq, List.map_append] at hnodup

/-- Two nodes that were written have different ids, as their rows do. -/
theorem written_place_eq (hi : i ∈ written) (hj : j ∈ written) (hn : p'.1.node? i = some n)
    (hm : p'.1.node? j = some m) (hid : n.id = m.id) : i = j := by
  have hids : (written.filterMap p'.1.node?).map Node.id =
      written.map fun k ↦ ((p'.1.node? k).map Node.id).getD 0 := by
    rw [List.map_filterMap, ← List.filterMap_eq_map]
    refine List.filterMap_congr fun k hk ↦ ?_
    obtain ⟨_, _, -, hr, -⟩ := h.written k hk
    simp [hr]
  refine List.inj_on_of_nodup_map (hids ▸ (List.nodup_append.mp h.ids_nodup).2.1) hi hj ?_
  simp [hn, hm, hid]

theorem unwritten_ne (hstored : ∀ x ∈ stored, ∃ r ∈ ofLayout (rows p.2) layoutId, r.id = x)
    (hi : i ∈ written) (hj : j ∉ written) (hn : p'.1.node? i = some n)
    (hm : p'.1.node? j = some m) : n.id ≠ m.id := by
  obtain ⟨-, hmem, hstays⟩ := h.id_stays hj hm
  obtain ⟨r, hr, hid⟩ := hstored m.id hmem
  have houtside : r ∈ outside (rows p.2) gone :=
    mem_outside.mpr ⟨(mem_ofLayout.mp hr).1, hid ▸ hstays⟩
  have hwritten : n ∈ written.filterMap p'.1.node? := List.mem_filterMap.mpr ⟨i, hi, hn⟩
  have hne := (List.nodup_append.mp h.ids_nodup).2.2 _ (List.mem_map_of_mem houtside) _
    (List.mem_map_of_mem hwritten)
  exact fun heq ↦ hne (hid.trans heq.symm)

theorem place_eq (hlinked : p.1.Linked)
    (hstored : ∀ x ∈ stored, ∃ r ∈ ofLayout (rows p.2) layoutId, r.id = x)
    (hn : p'.1.node? i = some n) (hm : p'.1.node? j = some m) (hid : n.id = m.id) : i = j := by
  by_cases hi : i ∈ written
  · by_cases hj : j ∈ written
    · exact h.written_place_eq hi hj hn hm hid
    · exact absurd hid (h.unwritten_ne hstored hi hj hn hm)
  · by_cases hj : j ∈ written
    · exact absurd hid.symm (h.unwritten_ne hstored hj hi hm hn)
    · exact hlinked.place_eq (h.id_stays hi hn).1 (h.id_stays hj hm).1 hid

end Reconciled

/-- What a reconciliation that is carried out leaves of a tree: every node is stored for the
layout under an id of its own, and those at `written` as they are, below the rows of their
parents. -/
structure Retained (layoutId : Int) (p p' : NodeTree × σ) (gone : List Int) (written : List Nat) :
    Prop where
  parent? : ∀ i, p'.1.parent? i = p.1.parent? i
  stored : ∀ n ∈ p'.1.flatten, ∃ r ∈ ofLayout (rows p'.2) layoutId, r.id = n.id
  ids_nodup : (p'.1.flatten.map Node.id).Nodup
  rows_eq : rows p'.2 = outside (rows p.2) gone ++ written.filterMap p'.1.node?
  unwritten : ∀ i, i ∉ written → p'.1.node? i = p.1.node? i
  written : ∀ i ∈ written, ∃ n r, p.1.node? i = some n ∧ p'.1.node? i = some r ∧
    r ∈ ofLayout (rows p'.2) layoutId ∧
    r = { n with id := r.id, layoutId, parentId := r.parentId, modified := false } ∧
    (p.1.parent? i = none → r.parentId = 0) ∧
    ∀ q m, p.1.parent? i = some q → p'.1.node? q = some m → r.parentId = m.id

/-- Whether it is carried out or not, a reconciliation inserts no row under an id that is taken.
If it is carried out, it loses no node. -/
theorem reconcile_retains {nodes : List Node} (hs : Sound s)
    (hlabel : Relabelled (build nodes) t)
    (hstored : ∀ x, x ∈ stored ↔ ∃ r ∈ ofLayout (rows s) layoutId, r.id = x) :
    (∃ r t' g, (reconcile layoutId stored).run (t, ({ store := s } : Guarded σ)) = (r, (t', g)) ∧
      (reconcile layoutId stored).run (t, s) = (r, (t', g.store)) ∧ g.clashes = []) ∧
    ∀ tally p', (reconcile layoutId stored).run (t, s) = (.ok tally, p') →
      ∃ gone written, tally.inserted = written.length ∧
        Retained layoutId (t, s) p' gone written := by
  have ht := hlabel.sameShape.rooted (build_rooted nodes)
  have hlinked := hlabel.linked (build_linked nodes)
  have hrows : ∀ x ∈ stored, ∃ r ∈ ofLayout (rows s) layoutId, r.id = x :=
    fun x ↦ (hstored x).mp
  constructor
  · have hclashes := clashes_reconcile ht hlinked hs hrows
    rcases hrun : (reconcile layoutId stored).run (t, ({ store := s } : Guarded σ)) with ⟨r, t', g⟩
    rw [hrun] at hclashes
    exact ⟨r, t', g, rfl, (maps_reconcile Guarded.maps_store layoutId stored).of_run hrun, hclashes⟩
  · intro tally p' hrun
    have hparents := parents_of_reconcile hrun
    obtain ⟨gone, written, h, htally⟩ := exists_reconciled hs ht hrun
    refine ⟨gone, written, htally, hparents, fun n hn ↦ ?_, ?_, h.rows_eq, h.unwritten,
      fun i hi ↦ ?_⟩
    · obtain ⟨i, hi⟩ := mem_flatten.mp hn
      exact h.exists_row hrows hi
    · exact nodup_ids_of_places fun i j n m ↦ h.place_eq hlinked hrows
    · obtain ⟨n, id, hn, hr, -⟩ := h.written i hi
      refine ⟨n, _, hn, hr, mem_ofLayout.mpr ⟨h.mem_rows hi hr, rfl⟩, rfl, fun hnone ↦ ?_,
        fun q m hq hm ↦ ?_⟩
      · exact parentIdAt_of_none ((hparents i).trans hnone)
      · dsimp only
        rw [parentIdAt_of_some ((hparents i).trans hq), hm]
        rfl

/-- Two branches below a root, and a node below the first one. -/
def branchStored (failAfter : Option Nat) : Recording where
  nodes := [{ id := 1, layoutId := 1, name := "root" },
    { id := 2, layoutId := 1, parentId := 1, name := "a", sequence := 1 },
    { id := 3, layoutId := 1, parentId := 2, name := "x", sequence := 1 },
    { id := 4, layoutId := 1, parentId := 1, name := "b", sequence := 2 }]
  failAfter := failAfter
  lastId := 4

/-- The first branch is flagged, and the node below it moves to the second one. -/
def movedOut : NodeTree :=
  build [{ id := 1, name := "root" },
    { id := 2, parentId := 1, name := "a", sequence := 1, modified := true },
    { id := 3, parentId := 4, name := "x", sequence := 1 },
    { id := 4, parentId := 1, name := "b", sequence := 2 }]

/-- The row of the node goes away with the branch and comes back under its id.  It does not
clash either if the device fails behind the first insertion. -/
theorem reconcile_retains_movedOut :
    (∃ p' gone written,
      (reconcile 1 [1, 2, 3, 4]).run (movedOut, branchStored none) =
        (.ok ⟨2, written.length⟩, p') ∧
      p'.1.flatten.map (fun n ↦ (n.id, n.parentId)) = [(1, 0), (2, 1), (4, 1), (3, 4)] ∧
      Retained 1 (movedOut, branchStored none) p' gone written) ∧
    ∃ r t' g, (reconcile 1 [1, 2, 3, 4]).run
        (movedOut, ({ store := branchStored (some 1) } : Guarded Recording)) = (r, (t', g)) ∧
      r = .error (.storeFailure .device) ∧ g.clashes = [] := by
  have hnumbered : NumberedTo (branchStored none).nodes 4 :=
    ⟨⟨by decide, by decide⟩, by decide, by decide⟩
  have hsound : ∀ failAfter, Sound (branchStored failAfter) := fun _ ↦ hnumbered
  have hstored : ∀ failAfter x, x ∈ [1, 2, 3, 4] ↔
      ∃ r ∈ ofLayout (rows (branchStored failAfter)) 1, r.id = x := by
    intro failAfter x
    have hids : (ofLayout (rows (branchStored failAfter)) 1).map Node.id = [1, 2, 3, 4] := rfl
    exact hids ▸ List.mem_map
  constructor
  · have hrun := Step.run_eq_ok_of_fst (a := ⟨2, 2⟩)
      (m := reconcile (σ := Recording) 1 [1, 2, 3, 4]) (p := (movedOut, branchStored none))
      (by decide +kernel)
    obtain ⟨gone, written, htally, hretained⟩ :=
      (reconcile_retains (hsound none) (.refl _) (hstored none)).2 _ _ hrun
    refine ⟨_, gone, written, ?_, ?_, hretained⟩
    · exact htally ▸ hrun
    · decide +kernel
  · have hfails : ((reconcile 1 [1, 2, 3, 4]).run (movedOut, branchStored (some 1))).1 =
        .error (.storeFailure .device) := by decide +kernel
    obtain ⟨r, t', g, hguarded, hrun, hclashes⟩ :=
      (reconcile_retains (hsound (some 1)) (.refl movedOut) (hstored (some 1))).1
    rw [hrun] at hfails
    exact ⟨r, t', g, hguarded, hfails, hclashes⟩

end AddressPlan.NodeTree
