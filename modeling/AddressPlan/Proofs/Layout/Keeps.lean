import AddressPlan.Layout.Lifecycle
import AddressPlan.Proofs.StepRuns

/-!
# What writing nodes keeps

Reconciling a tree and storing a new one touch the store only by inserting rows of the layout,
none of them flagged, and by deleting subtrees.  What these two keep is kept by the whole.
-/

namespace AddressPlan

open Step

variable {σ : Type} [Store σ] {Q : σ → Prop}

namespace NodeTree

theorem keeps_insertAt {layoutId : Int} {keepId : Bool}
    (hinsert : ∀ n, n.layoutId = layoutId → n.modified = false → (keepId = false → n.id = 0) →
      Keeps Q (Store.insertNode (σ := σ) n)) (i : Nat) :
    Keeps (fun p : NodeTree × σ ↦ Q p.2) (insertAt layoutId keepId i) := by
  refine Keeps.get.bind fun p ↦ ?_
  dsimp only
  split
  · exact .pure _
  · refine (Keeps.first _).bind fun _ ↦ (Keeps.second (hinsert _ ?_ ?_ ?_)).bind fun _ ↦ .first _
    · rfl
    · rfl
    · intro hkeep
      exact if_neg (Bool.eq_false_iff.mp hkeep)

theorem keeps_replaceAt {layoutId : Int} {keepId : Bool}
    (hinsert : ∀ n, n.layoutId = layoutId → n.modified = false → (keepId = false → n.id = 0) →
      Keeps Q (Store.insertNode (σ := σ) n)) (top : Nat) :
    Keeps (fun p : NodeTree × σ ↦ Q p.2) (replaceAt layoutId keepId top) := by
  refine Keeps.get.bind fun p ↦ (Keeps.forM (fun i ↦ ?_) _).bind fun _ ↦ .pure _
  apply keeps_insertAt
  intro n hlayout hflag hfresh
  exact hinsert n hlayout hflag fun hkeep ↦ hfresh (by rw [hkeep, Bool.false_and])

theorem keeps_persistAll {layoutId : Int}
    (hinsert : ∀ n, n.layoutId = layoutId → n.modified = false → n.id = 0 →
      Keeps Q (Store.insertNode (σ := σ) n)) :
    Keeps (fun p : NodeTree × σ ↦ Q p.2) (persistAll layoutId) := by
  refine Keeps.get.bind fun p ↦ ?_
  dsimp only
  split
  · exact .pure _
  · apply keeps_replaceAt
    intro n hlayout hflag hfresh
    exact hinsert n hlayout hflag (hfresh rfl)

theorem keeps_deleteStored (hdelete : ∀ d, Keeps Q (Store.deleteSubtree (σ := σ) d))
    (stored : List Int) (tops : List Placed) :
    Keeps (fun p : NodeTree × σ ↦ Q p.2) (deleteStored stored tops) := by
  refine Keeps.foldlM (fun live p ↦ ?_) tops stored
  split
  · exact (Keeps.second (hdelete _)).bind fun _ ↦ .pure _
  · exact .pure _

theorem keeps_reconcile {layoutId : Int}
    (hinsert : ∀ n, n.layoutId = layoutId → n.modified = false →
      Keeps Q (Store.insertNode (σ := σ) n))
    (hdelete : ∀ d, Keeps Q (Store.deleteSubtree (σ := σ) d)) (stored : List Int) :
    Keeps (fun p : NodeTree × σ ↦ Q p.2) (reconcile layoutId stored) :=
  Keeps.get.bind fun _ ↦ (keeps_deleteStored hdelete stored _).bind fun _ ↦ Keeps.foldlM
    (fun _ _ ↦ (keeps_replaceAt (fun n hlayout hflag _ ↦ hinsert n hlayout hflag) _).bind
      fun _ ↦ .pure _) _ _

end NodeTree

namespace Layout

omit [Store σ] in
theorem run_onTreeAndStore {α : Type} (m : Step (NodeTree × σ) α) (p : Layout × σ) :
    (onTreeAndStore m).run p = ((m.run (p.1.tree, p.2)).1,
      ({ p.1 with kept := some (m.run (p.1.tree, p.2)).2.1 }, (m.run (p.1.tree, p.2)).2.2)) := rfl

omit [Store σ] in
theorem keeps_onTreeAndStore {α : Type} {m : Step (NodeTree × σ) α}
    (hm : Keeps (fun p : NodeTree × σ ↦ Q p.2) m) :
    Keeps (fun p : Layout × σ ↦ Q p.2) (onTreeAndStore m) :=
  fun p hp ↦ hm (p.1.tree, p.2) hp

theorem keeps_deleteStaleRoots (hdelete : ∀ d, Keeps Q (Store.deleteSubtree (σ := σ) d))
    (root : Option Int) (rows : List Node) :
    Keeps (fun p : Layout × σ ↦ Q p.2) (deleteStaleRoots root rows) :=
  Keeps.foldlM (fun _ _ ↦ (Keeps.second (hdelete _)).bind fun _ ↦ .pure _) _ _

/-- Checking a layout changes nothing but that its tree may be kept. -/
theorem keeps_check {P : Layout → Prop} (hkeep : ∀ l, P l → P l.keepTree) (plan : Plan) :
    Keeps P (check plan) := by
  refine (Keeps.ofExcept _).bind fun _ ↦ Keeps.get.bind fun l ↦ ?_
  split
  · exact .pure _
  · dsimp only
    split
    · exact .refuse _
    · refine (Keeps.ofExcept _).bind fun _ ↦ (Keeps.modify hkeep).bind fun _ ↦ ?_
      split
      · exact .refuse _
      · exact .ofExcept _

theorem keeps_fetchPlan (hplan : ∀ id, Keeps Q (Store.plan? (σ := σ) id)) (id : Int) :
    Keeps Q (fetchPlan (σ := σ) id) := by
  refine (hplan id).bind fun found ↦ ?_
  split
  · exact .pure _
  · exact .refuse _

theorem keeps_save (hplan : ∀ id, Keeps Q (Store.plan? (σ := σ) id))
    (hcreate : ∀ header, Keeps Q (Store.createLayout (σ := σ) header))
    (hinsert : ∀ n, n.modified = false → n.id = 0 → Keeps Q (Store.insertNode (σ := σ) n)) :
    Keeps (fun p : Layout × σ ↦ Q p.2) save := by
  refine Keeps.get.bind fun p ↦ (Keeps.second (keeps_fetchPlan hplan _)).bind fun plan ↦ ?_
  refine (Keeps.first _).bind fun _ ↦ (Keeps.first _).bind fun _ ↦ Keeps.get.bind fun q ↦ ?_
  refine (Keeps.second (hcreate _)).bind fun id ↦ (Keeps.first _).bind fun _ ↦ ?_
  refine (keeps_onTreeAndStore (NodeTree.keeps_persistAll ?_)).bind fun _ ↦ .first _
  exact fun n _ hflag hn ↦ hinsert n hflag hn

theorem keeps_update (hplan : ∀ id, Keeps Q (Store.plan? (σ := σ) id))
    (hheader : ∀ header, Keeps Q (Store.updateHeader (σ := σ) header))
    (hnodes : ∀ id, Keeps Q (Store.nodes (σ := σ) id))
    (hinsert : ∀ n, n.modified = false → Keeps Q (Store.insertNode (σ := σ) n))
    (hdelete : ∀ d, Keeps Q (Store.deleteSubtree (σ := σ) d)) :
    Keeps (fun p : Layout × σ ↦ Q p.2) update := by
  refine Keeps.get.bind fun p ↦ (Keeps.second (keeps_fetchPlan hplan _)).bind fun plan ↦ ?_
  refine (Keeps.first _).bind fun _ ↦ (Keeps.first _).bind fun _ ↦ (Keeps.first _).bind fun _ ↦ ?_
  refine Keeps.get.bind fun q ↦ (Keeps.second (hheader _)).bind fun _ ↦ ?_
  refine (Keeps.second (hnodes _)).bind fun rows ↦ (Keeps.first _).bind fun _ ↦ ?_
  refine (keeps_deleteStaleRoots hdelete _ rows).bind fun live ↦ ?_
  refine (keeps_onTreeAndStore (NodeTree.keeps_reconcile ?_ hdelete live)).bind fun _ ↦ ?_
  · exact fun n _ hflag ↦ hinsert n hflag
  · exact (Keeps.second (hnodes _)).bind fun _ ↦ .first _

theorem keeps_load (hheader : ∀ id, Keeps Q (Store.header? (σ := σ) id))
    (hnodes : ∀ id, Keeps Q (Store.nodes (σ := σ) id)) (id : Int) :
    Keeps Q (load (σ := σ) id) := by
  refine (hheader id).bind fun found ↦ ?_
  cases found with
  | none => exact .refuse _
  | some header => exact (hnodes id).bind fun _ ↦ .pure _

end Layout

end AddressPlan
