import AddressPlan.Proofs.NodeTree.Tops
import AddressPlan.Proofs.Store.Lawful

/-!
# Writing places to a store

Inserting the node at a place adds its row to the store and makes the node agree with it.
As long as parents are written in front of their children, the rows written for a list of
places name the ids that their parents ended up with.
-/

namespace AddressPlan.NodeTree

open Rows

theorem parentIdAt_of_none {t : NodeTree} {i : Nat} (h : t.parent? i = none) :
    t.parentIdAt i = Node.rootParent := by
  unfold parentIdAt
  rw [show t.slots[i]?.bind Slot.parent = none from h]

theorem parentIdAt_of_some {t : NodeTree} {i p : Nat} (h : t.parent? i = some p) :
    t.parentIdAt i = ((t.node? p).map Node.id).getD Node.rootParent := by
  unfold parentIdAt
  rw [show t.slots[i]?.bind Slot.parent = some p from h, node?, Option.map_map]
  rfl

/-- The place shows the row that was inserted, and the others what they did. -/
theorem node?_written (t : NodeTree) (i : Nat) (row : Node) (id : Int) (j : Nat) :
    ((t.update i fun _ ↦ row).update i fun n ↦ { n with id }).node? j =
      if i = j then (t.node? j).map fun _ ↦ { row with id } else t.node? j := by
  rw [node?_update, node?_update]
  split
  · rw [Option.map_map]
    rfl
  · rfl

variable {σ : Type} [Store σ] [LawfulStore σ] {layoutId : Int}

open LawfulStore

/-- From `p` to `p'` the nodes at `places` were written as rows of a layout, one for each
in this order, and nothing else changed. -/
structure Wrote (layoutId : Int) (p p' : NodeTree × σ) (places : List Nat) : Prop where
  sound : Sound p'.2
  rows_eq : rows p'.2 = rows p.2 ++ places.filterMap p'.1.node?
  parent? : ∀ i, p'.1.parent? i = p.1.parent? i
  kept : ∀ i, i ∉ places → p'.1.node? i = p.1.node? i
  written : ∀ i ∈ places, ∃ n id, p.1.node? i = some n ∧
    p'.1.node? i = some { n with id, layoutId, parentId := p'.1.parentIdAt i, modified := false }

/-- The second place is another one and is not the parent of the first one, so that it may
be written later. -/
def MayFollow (t : NodeTree) (i j : Nat) : Prop :=
  i ≠ j ∧ t.parent? i ≠ some j

/-- The parent of a place is not written with it or behind it. -/
theorem Rooted.not_mem_of_parent? {t : NodeTree} (ht : t.Rooted) {i j : Nat} {places : List Nat}
    (hfollows : (i :: places).Pairwise t.MayFollow) (hparent : t.parent? i = some j) :
    j ∉ i :: places := by
  intro hj
  rcases List.mem_cons.mp hj with rfl | hj
  · exact Nat.lt_irrefl _ (ht.lt_of_parent? hparent)
  · exact ((List.pairwise_cons.mp hfollows).1 _ hj).2 hparent

namespace Wrote

variable {p p' p'' : NodeTree × σ} {ps qs : List Nat}

theorem nil (h : Sound p.2) : Wrote layoutId p p [] where
  sound := h
  rows_eq := (List.append_nil _).symm
  parent? := fun _ ↦ rfl
  kept := fun _ _ ↦ rfl
  written := fun _ hi ↦ absurd hi List.not_mem_nil

theorem sameShape (h : Wrote layoutId p p' ps) : SameShape p.1 p'.1 where
  parent? := h.parent?
  node? := by
    intro i
    by_cases hi : i ∈ ps
    · obtain ⟨n, id, hn, hn'⟩ := h.written i hi
      exact iff_of_true ⟨_, hn'⟩ ⟨_, hn⟩
    · rw [h.kept i hi]

theorem parentIdAt_of_not_mem (h : Wrote layoutId p p' ps) {i : Nat}
    (hi : ∀ j ∈ ps, p.1.parent? i ≠ some j) : p'.1.parentIdAt i = p.1.parentIdAt i := by
  cases hp : p.1.parent? i with
  | none => rw [parentIdAt_of_none hp, parentIdAt_of_none ((h.parent? i).trans hp)]
  | some j =>
    rw [parentIdAt_of_some hp, parentIdAt_of_some ((h.parent? i).trans hp),
      h.kept j fun hj ↦ hi j hj hp]

theorem append (h : Wrote layoutId p p' ps) (h' : Wrote layoutId p' p'' qs)
    (hfollow : ∀ i ∈ ps, ∀ j ∈ qs, p.1.MayFollow i j) :
    Wrote layoutId p p'' (ps ++ qs) where
  sound := h'.sound
  rows_eq := by
    have hps : ps.filterMap p'.1.node? = ps.filterMap p''.1.node? := by
      refine List.filterMap_congr fun i hi ↦ (h'.kept i fun hj ↦ ?_).symm
      exact (hfollow i hi i hj).1 rfl
    rw [h'.rows_eq, h.rows_eq, List.filterMap_append, hps, List.append_assoc]
  parent? := fun i ↦ (h'.parent? i).trans (h.parent? i)
  kept := fun i hi ↦ by
    rw [List.mem_append, not_or] at hi
    exact (h'.kept i hi.2).trans (h.kept i hi.1)
  written := fun i hi ↦ by
    by_cases hps : i ∈ ps
    · obtain ⟨n, id, hn, hn'⟩ := h.written i hps
      have hparent : p''.1.parentIdAt i = p'.1.parentIdAt i :=
        h'.parentIdAt_of_not_mem fun j hj ↦ h.parent? i ▸ (hfollow i hps j hj).2
      refine ⟨n, id, hn, ?_⟩
      rw [h'.kept i fun hj ↦ (hfollow i hps i hj).1 rfl, hn', hparent]
    · have hqs : i ∈ qs := (List.mem_append.mp hi).resolve_left hps
      obtain ⟨n, id, hn, hn'⟩ := h'.written i hqs
      exact ⟨n, id, h.kept i hps ▸ hn, hn'⟩

end Wrote

omit [LawfulStore σ] in
theorem run_insertAt_eq_ok {keepId : Bool} {i : Nat} {n : Node} {p p' : NodeTree × σ}
    (hn : p.1.node? i = some n) (hrun : (insertAt layoutId keepId i).run p = (.ok (), p')) :
    ∃ row id, row = { n with
        layoutId
        parentId := p.1.parentIdAt i
        modified := false
        id := if keepId then n.id else 0 } ∧
      (Store.insertNode row).run p.2 = (.ok id, p'.2) ∧
      p'.1 = (p.1.update i fun _ ↦ row).update i fun n ↦ { n with id } := by
  obtain ⟨t, s⟩ := p
  obtain ⟨slot, hslot, rfl⟩ := node?_eq_some_iff.mp hn
  simp only [insertAt, Step.run_bind_eq_ok_iff, Step.run_get, Prod.mk.injEq,
    Except.ok.injEq] at hrun
  obtain ⟨_, _, ⟨rfl, rfl⟩, hrun⟩ := hrun
  dsimp only at hrun hslot
  rw [hslot] at hrun
  simp only [Step.run_bind_eq_ok_iff, Step.run_first_eq_ok_iff, Step.run_second_eq_ok_iff,
    Step.run_modify, Prod.mk.injEq, true_and] at hrun
  obtain ⟨-, ⟨t₁, s₁⟩, ⟨ht₁, rfl⟩, id, ⟨t₂, s₂⟩, ⟨hinsert, rfl⟩, ht₂, hs₂⟩ := hrun
  dsimp only at ht₁ hinsert ht₂ hs₂
  subst ht₁ hs₂
  exact ⟨_, id, rfl, hinsert, ht₂.symm⟩

theorem wrote_insertAt {keepId : Bool} {i : Nat} {p p' : NodeTree × σ} (hs : Sound p.2)
    (hi : i < p.1.size) (hloop : p.1.parent? i ≠ some i)
    (hrun : (insertAt layoutId keepId i).run p = (.ok (), p')) : Wrote layoutId p p' [i] := by
  obtain ⟨n, hn⟩ := lt_size_iff.mp hi
  obtain ⟨row, id, rfl, hinsert, ht⟩ := run_insertAt_eq_ok hn hrun
  obtain ⟨hsound, hrows, -⟩ := insertNode_run hs hinsert
  have hparent? : ∀ j, p'.1.parent? j = p.1.parent? j := by
    intro j
    rw [ht, parent?_update, parent?_update]
  have hkept : ∀ j, j ∉ [i] → p'.1.node? j = p.1.node? j := by
    intro j hj
    rw [ht, node?_written, if_neg fun hij ↦ hj (List.mem_singleton.mpr hij.symm)]
  have hparent : p'.1.parentIdAt i = p.1.parentIdAt i := by
    cases hp : p.1.parent? i with
    | none => rw [parentIdAt_of_none hp, parentIdAt_of_none ((hparent? i).trans hp)]
    | some j =>
      rw [parentIdAt_of_some hp, parentIdAt_of_some ((hparent? i).trans hp), hkept j fun hj ↦ ?_]
      exact hloop (List.mem_singleton.mp hj ▸ hp)
  have hnode : p'.1.node? i =
      some { n with id, layoutId, parentId := p.1.parentIdAt i, modified := false } := by
    rw [ht, node?_written, if_pos rfl, hn]
    rfl
  refine ⟨hsound, ?_, hparent?, hkept, fun j hj ↦ ?_⟩
  · rw [hrows, List.filterMap_cons_some hnode]
    rfl
  · obtain rfl := List.mem_singleton.mp hj
    exact ⟨n, id, hn, hparent ▸ hnode⟩

end AddressPlan.NodeTree
