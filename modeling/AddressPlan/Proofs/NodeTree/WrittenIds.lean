import AddressPlan.Proofs.Store.Filed
import AddressPlan.Proofs.NodeTree.Reconcile

/-!
# Ids of written places

A place that is marked keeps a positive id.  Every other place that is written gets an id that
is larger than all that were given before, so it is new however the places are arranged.
-/

namespace AddressPlan.NodeTree

open Rows LawfulStore LawfulHeaders

variable {σ : Type} [Store σ] [LawfulStore σ] [LawfulHeaders σ] {layoutId : Int}
  {p p' p'' : NodeTree × σ} {marks marks' : List (Nat × Bool)}

/-- From `p` to `p'` these places were written, and of them only the marked ones kept their
ids. -/
structure Renumbered (p p' : NodeTree × σ) (marks : List (Nat × Bool)) : Prop where
  last_le : (last p.2).2 ≤ (last p'.2).2
  kept : ∀ i n r, (i, true) ∈ marks → p.1.node? i = some n → p'.1.node? i = some r →
    0 < n.id → r.id = n.id
  fresh : ∀ i r, (i, false) ∈ marks → p'.1.node? i = some r → (last p.2).2 < r.id

theorem Renumbered.nil (p : NodeTree × σ) : Renumbered p p [] where
  last_le := Int.le_refl _
  kept := fun _ _ _ hi ↦ absurd hi List.not_mem_nil
  fresh := fun _ _ hi ↦ absurd hi List.not_mem_nil

theorem Renumbered.append (h : Renumbered p p' marks) (h' : Renumbered p' p'' marks')
    (hwrote : Wrote layoutId p p' (marks.map Prod.fst))
    (hwrote' : Wrote layoutId p' p'' (marks'.map Prod.fst))
    (hne : ∀ x ∈ marks, ∀ y ∈ marks', x.1 ≠ y.1) : Renumbered p p'' (marks ++ marks') := by
  have hlater : ∀ x ∈ marks, p''.1.node? x.1 = p'.1.node? x.1 := by
    refine fun x hx ↦ hwrote'.kept x.1 fun hmem ↦ ?_
    obtain ⟨y, hy, hxy⟩ := List.mem_map.mp hmem
    exact hne x hx y hy hxy.symm
  have hbefore : ∀ y ∈ marks', p'.1.node? y.1 = p.1.node? y.1 := by
    refine fun y hy ↦ hwrote.kept y.1 fun hmem ↦ ?_
    obtain ⟨x, hx, hxy⟩ := List.mem_map.mp hmem
    exact hne x hx y hy hxy
  refine ⟨Int.le_trans h.last_le h'.last_le, fun i n r hi hn hr ↦ ?_, fun i r hi hr ↦ ?_⟩
  · rcases List.mem_append.mp hi with hi | hi
    · exact h.kept i n r hi hn (hlater _ hi ▸ hr)
    · exact h'.kept i n r hi ((hbefore _ hi).trans hn) hr
  · rcases List.mem_append.mp hi with hi | hi
    · exact h.fresh i r hi (hlater _ hi ▸ hr)
    · exact Int.lt_of_le_of_lt h.last_le (h'.fresh i r hi hr)

theorem renumbered_insertAt {keepId : Bool} {i : Nat} {n : Node} (hs : Sound p.2)
    (hn : p.1.node? i = some n) (hrun : (insertAt layoutId keepId i).run p = (.ok (), p')) :
    Renumbered p p' [(i, keepId)] := by
  obtain ⟨row, id, hrow, hinsert, ht⟩ := run_insertAt_eq_ok hn hrun
  obtain ⟨-, -, hid⟩ := insertNode_run hs hinsert
  have hlast := (hinsert ▸ steady_insertNode row p.2).2.2
  have hnode : p'.1.node? i = some { row with id } := by
    rw [ht, node?_written, if_pos rfl, hn]
    rfl
  refine ⟨hlast, fun j m r hj hm hr hpos ↦ ?_, fun j r hj hr ↦ ?_⟩
  · cases List.mem_singleton.mp hj
    cases hm.symm.trans hn
    cases hr.symm.trans hnode
    have hrowId : row.id = n.id := by rw [hrow]; rfl
    exact (hid (hrowId ▸ hpos)).trans hrowId
  · cases List.mem_singleton.mp hj
    cases hr.symm.trans hnode
    have hrowId : row.id = 0 := by rw [hrow]; rfl
    exact insertNode_fresh hs hinsert (Int.le_of_eq hrowId)

theorem renumbered_writeMarked (h : Writable p marks)
    (hrun : (writeMarked layoutId marks).run p = (.ok (), p')) : Renumbered p p' marks := by
  induction marks generalizing p with
  | nil =>
    cases hrun
    exact .nil _
  | cons x marks ih =>
    obtain ⟨p₁, hinsert, hrun, hfirst, hrest⟩ := h.exists_first hrun
    obtain ⟨n, hn⟩ := lt_size_iff.mp (h.lt_size x List.mem_cons_self)
    refine (renumbered_insertAt h.sound hn hinsert).append (ih hrest hrun) hfirst
      (wrote_writeMarked hrest hrun) fun y hy z hz ↦ ?_
    rw [List.mem_singleton.mp hy]
    exact ((List.pairwise_cons.mp h.follows).1 z hz).1

end AddressPlan.NodeTree
