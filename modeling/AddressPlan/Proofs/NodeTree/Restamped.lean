import AddressPlan.Proofs.NodeTree.Alike
import AddressPlan.Proofs.NodeTree.Reconcile

/-!
# Trees that were written in part

Writing a node puts a stamp on it: its ids, its layout and a cleared flag.  A write that breaks
off leaves a tree with the stamps of two attempts.  Writing all of it once more overwrites every
stamp before it is looked at, so the store gets the rows that it would get from a fresh tree.
-/

namespace AddressPlan

open List Step

/-- The second node is the first one under another stamp. -/
def Node.Restamped (n n' : Node) : Prop :=
  n' = { n with
    id := n'.id
    layoutId := n'.layoutId
    parentId := n'.parentId
    modified := n'.modified }

namespace Node.Restamped

variable {n n' n'' : Node}

theorem refl (n : Node) : n.Restamped n := rfl

theorem trans (h : n.Restamped n') (h' : n'.Restamped n'') : n.Restamped n'' := by
  rw [Restamped, h', h]

theorem alike (h : n.Restamped n') : n.Alike n' where
  name_eq := by rw [h]
  bitWidth_eq := by rw [h]
  literals_eq := by rw [h]

end Node.Restamped

namespace NodeTree

variable {σ : Type} [Store σ] {layoutId : Int} {t₀ t t' : NodeTree} {i : Nat}

theorem Related.alike_of_restamped (h : t.Related Node.Restamped t') : t.Related Node.Alike t' :=
  h.mono fun _ _ hn ↦ hn.alike

theorem fill_restamped (h : t.Related Node.Restamped t') (base : Network) (maskLength : Nat) :
    (t.fill base maskLength).2.Related Node.Restamped (t'.fill base maskLength).2 := by
  refine fill_related (fun _ _ hn ↦ hn.alike) (fun n n' cidr number hn ↦ ?_) h base maskLength
  rw [Node.Restamped, hn]

/-- Shows a row at a place and stores it, and then shows the id that it got. -/
def writeRow (i : Nat) (row : Node) : Step (NodeTree × σ) Unit := do
  Step.first (Step.modify fun t ↦ t.update i fun _ ↦ row)
  let id ← Step.second (Store.insertNode row)
  Step.first (Step.modify fun t ↦ t.update i fun n ↦ { n with id })

theorem run_insertAt (layoutId : Int) (keepId : Bool) (i : Nat) (p : NodeTree × σ) :
    (insertAt layoutId keepId i).run p =
      match p.1.node? i with
      | none => (.ok (), p)
      | some n => (writeRow i { n with
          layoutId
          parentId := p.1.parentIdAt i
          modified := false
          id := if keepId then n.id else 0 }).run p := by
  rw [insertAt, run_bind, run_get, node?]
  dsimp only
  cases p.1.slots[i]? <;> rfl

/-! ## Writing only stamps -/

theorem keeps_restamped_insertAt (t₀ : NodeTree) (layoutId : Int) (keepId : Bool) (i : Nat) :
    Keeps (fun p : NodeTree × σ ↦ t₀.Related Node.Restamped p.1) (insertAt layoutId keepId i) := by
  intro p hp
  rw [run_insertAt]
  cases hn : p.1.node? i with
  | none => exact hp
  | some n =>
    have hstored : ∀ row, Keeps (fun p : NodeTree × σ ↦ t₀.Related Node.Restamped p.1) (do
        let id ← Step.second (Store.insertNode row)
        Step.first (Step.modify fun t ↦ t.update i fun n ↦ { n with id })) := fun row ↦
      (Keeps.second_fst _).bind fun id ↦ Keeps.first_fst <| .modify fun t ht ↦
        ht.update_right fun _ _ _ hm ↦ hm.trans rfl
    refine hstored _ (p.1.update i _, p.2) (hp.update_right fun m m' hm' hm ↦ ?_)
    cases hn.symm.trans hm'
    exact hm.trans rfl

/-- Whatever comes of it, writing a tree changes nothing but stamps. -/
theorem keeps_restamped_persistAll (t₀ : NodeTree) (layoutId : Int) :
    Keeps (fun p : NodeTree × σ ↦ t₀.Related Node.Restamped p.1) (persistAll layoutId) := by
  refine Keeps.get.bind fun p ↦ ?_
  dsimp only
  split
  · exact .pure _
  · exact Keeps.get.bind fun _ ↦
      (Keeps.forM (fun i ↦ keeps_restamped_insertAt t₀ layoutId _ i) _).bind fun _ ↦ .pure _

/-! ## Writing over stamps -/

/-- The places in `todo` are still to be written, parents first.  At all others the trees show
the same, and so do the stores. -/
structure Settling (t₀ : NodeTree) (todo : List Nat) (p q : NodeTree × σ) : Prop where
  stores : q.2 = p.2
  trees : p.1.Related Node.Restamped q.1
  shape : p.1.slots.map Slot.parent = t₀.slots.map Slot.parent
  settled : ∀ i, i ∉ todo → q.1.node? i = p.1.node? i
  follows : todo.Pairwise t₀.MayFollow

namespace Settling

variable {todo : List Nat} {p q : NodeTree × σ} {t t' : NodeTree} {s : σ}

omit [Store σ]

/-- The parent of the place that is written next was written before. -/
theorem parentIdAt_eq (h : Settling t₀ (i :: todo) p q) (ht : t₀.Rooted) :
    q.1.parentIdAt i = p.1.parentIdAt i := by
  have hp := parent?_congr h.shape i
  have hq := parent?_congr h.trees.parents_eq i
  cases hparent : t₀.parent? i with
  | none =>
    rw [parentIdAt_of_none (hp.trans hparent), parentIdAt_of_none (hq.trans (hp.trans hparent))]
  | some j =>
    rw [parentIdAt_of_some (hp.trans hparent), parentIdAt_of_some (hq.trans (hp.trans hparent)),
      h.settled j (ht.not_mem_of_parent? h.follows hparent)]

/-- A place that shows the same in both trees is settled. -/
theorem skip (h : Settling t₀ (i :: todo) p q) (hplace : q.1.node? i = p.1.node? i) :
    Settling t₀ todo p q :=
  { h with
    settled := fun j hj ↦ by
      by_cases hij : j = i
      · exact hij ▸ hplace
      · exact h.settled j (List.not_mem_cons_of_ne_of_not_mem hij hj)
    follows := (List.pairwise_cons.mp h.follows).2 }

/-- The same row is written to both trees, and gets one id. -/
theorem write {row : Node} {id : Int} {s₁ : σ} (h : Settling t₀ (i :: todo) (t, s) (t', s)) :
    Settling t₀ todo
      ((t.update i fun _ ↦ row).update i fun n ↦ { n with id }, s₁)
      ((t'.update i fun _ ↦ row).update i fun n ↦ { n with id }, s₁) := by
  have hplace : (t'.node? i).map (fun _ ↦ { row with id }) =
      (t.node? i).map fun _ ↦ { row with id } := by
    have hnodes := h.trees.node? i
    dsimp only at hnodes
    generalize t.node? i = n at hnodes ⊢
    generalize t'.node? i = n' at hnodes ⊢
    cases hnodes <;> rfl
  refine skip (i := i) { h with
    stores := rfl
    trees := (h.trees.update i fun _ _ _ ↦ Node.Restamped.refl row).update i fun n n' hn ↦ ?_
    shape := ?_
    settled := fun j hj ↦ ?_ } ?_
  · rw [Node.Restamped, hn]
  · rw [parents_update, parents_update]
    exact h.shape
  · have hij : i ≠ j := fun heq ↦ hj (heq ▸ List.mem_cons_self)
    rw [node?_written, node?_written, if_neg hij, if_neg hij]
    exact h.settled j hj
  · rw [node?_written, node?_written, if_pos rfl, if_pos rfl]
    exact hplace

end Settling

theorem together_insertAt_restamped {todo : List Nat} {p q : NodeTree × σ}
    (h : Settling t₀ (i :: todo) p q) (ht : t₀.Rooted) :
    Together (insertAt layoutId false i) (insertAt layoutId false i)
      (fun _ p' _ q' ↦ Settling t₀ todo p' q') (fun p' q' ↦ q'.2 = p'.2) p q := by
  obtain ⟨t, s⟩ := p
  obtain ⟨t', s'⟩ := q
  obtain rfl : s' = s := h.stores
  have hparentId : t'.parentIdAt i = t.parentIdAt i := h.parentIdAt_eq ht
  have hnodes : Option.Rel Node.Restamped (t.node? i) (t'.node? i) := h.trees.node? i
  have hrun := run_insertAt layoutId false i (t, s')
  have hrun' := run_insertAt layoutId false i (t', s')
  dsimp only at hrun hrun'
  generalize hn : t.node? i = found at hnodes hrun
  generalize hn' : t'.node? i = found' at hnodes hrun'
  cases hnodes with
  | none => exact .carried hrun hrun' (h.skip (hn'.trans hn.symm))
  | @some n n' hsame =>
    rw [hparentId, hsame] at hrun'
    refine .congr_run hrun hrun' ?_
    refine Together.first (Together.modify _ _) ?_
    rintro _ _ _ _ ⟨rfl, rfl⟩
    refine Together.second ((Together.same _ _).imp_refused fun _ _ ↦ And.left) ?_
    rintro id s₁ _ _ ⟨rfl, rfl⟩
    exact .carried rfl rfl h.write

/-- Writing a tree under any stamps stores the same rows and shows the same tree.  If the store
fails then both writes break off there. -/
theorem together_persistAll_restamped {s : σ} (h : t.Related Node.Restamped t') (ht : t.Rooted) :
    Together (persistAll layoutId) (persistAll layoutId) (fun _ p _ q ↦ q = p)
      (fun p q ↦ q.2 = p.2) (t, s) (t', s) := by
  have hshape := h.parents_eq
  have hdone : ∀ p q : NodeTree × σ, Settling t [] p q → q = p := fun p q hpq ↦
    Prod.ext (eq_of_places (fun i ↦ hpq.settled i List.not_mem_nil)
      fun i ↦ parent?_congr hpq.trees.parents_eq i) hpq.stores
  have hstart : Settling t (t.placesBelow 0) (t, s) (t', s) := {
    stores := rfl
    trees := h
    shape := rfl
    settled := fun i hi ↦ by
      have hnodes := h.node? i
      cases hn : t.node? i with
      | none =>
        rw [hn] at hnodes
        generalize t'.node? i = n' at hnodes ⊢
        cases hnodes
        rfl
      | some n => exact absurd (ht.mem_placesBelow_zero.mpr (lt_size_iff.mpr ⟨n, hn⟩)) hi
    follows := ht.mayFollow_placesBelow 0 }
  refine Together.get ?_
  dsimp only
  rw [h.isEmpty_eq]
  split
  · rename_i hempty
    refine .pure (hdone _ _ ?_)
    rw [ht.placesBelow_zero, size, List.isEmpty_iff.mp hempty] at hstart
    exact hstart
  · refine Together.get ?_
    dsimp only
    rw [placesBelow_congr hshape]
    refine Together.bind (Together.forM (fun todo p q ↦ Settling t todo p q)
      (fun i todo p q hpq ↦ ?_) (t.placesBelow 0) hstart) fun _ _ _ _ hpq ↦ .pure (hdone _ _ hpq)
    rw [Bool.false_and]
    exact together_insertAt_restamped hpq ht

end NodeTree

end AddressPlan
