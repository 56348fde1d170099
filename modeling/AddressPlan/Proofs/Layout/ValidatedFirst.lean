import AddressPlan.Proofs.Layout.Keeps
import AddressPlan.Proofs.Store.Watched

/-!
# Layouts are validated before they are written

Storing a layout refuses what is malformed, too large, claimed twice or missing before it writes
anything.  From the first write on only the store can stop it, and what is then reported is
what the store said.
-/

namespace AddressPlan

open Step

/-! ## Watching changes nothing -/

section Maps

variable {σ τ : Type} [Store σ] [Store τ] {f : σ → τ}

namespace NodeTree

theorem maps_insertAt (h : Store.Maps f) (layoutId : Int) (keepId : Bool) (i : Nat) :
    Step.Maps (Prod.map id f) (insertAt layoutId keepId i) (insertAt layoutId keepId i) := by
  refine .get fun ⟨t, s⟩ ↦ ?_
  dsimp only [Prod.map_apply, id_eq]
  split
  · exact .pure _
  · exact (Step.Maps.first _).bind fun _ ↦ (Step.Maps.second (h.insertNode _)).bind fun _ ↦ .first _

theorem maps_replaceAt (h : Store.Maps f) (layoutId : Int) (keepId : Bool) (top : Nat) :
    Step.Maps (Prod.map id f) (replaceAt layoutId keepId top) (replaceAt layoutId keepId top) :=
  .get fun _ ↦ (Step.Maps.forM (fun i ↦ maps_insertAt h _ _ i) _).bind fun _ ↦ .pure _

theorem maps_persistAll (h : Store.Maps f) (layoutId : Int) :
    Step.Maps (Prod.map id f) (persistAll layoutId) (persistAll layoutId) := by
  refine .get fun ⟨t, s⟩ ↦ ?_
  dsimp only [Prod.map_apply, id_eq]
  split
  · exact .pure _
  · exact maps_replaceAt h _ _ _

theorem maps_deleteStored (h : Store.Maps f) (stored : List Int) (tops : List Placed) :
    Step.Maps (Prod.map id f) (deleteStored stored tops) (deleteStored stored tops) := by
  refine Step.Maps.foldlM (fun live p ↦ ?_) tops stored
  split
  · exact (Step.Maps.second (h.deleteSubtree _)).bind fun _ ↦ .pure _
  · exact .pure _

theorem maps_reconcile (h : Store.Maps f) (layoutId : Int) (stored : List Int) :
    Step.Maps (Prod.map id f) (reconcile layoutId stored) (reconcile layoutId stored) :=
  .get fun _ ↦ (maps_deleteStored h _ _).bind fun _ ↦
    Step.Maps.foldlM (fun _ _ ↦ (maps_replaceAt h _ _ _).bind fun _ ↦ .pure _) _ _

end NodeTree

namespace Layout

omit [Store σ] [Store τ] in
theorem maps_onTreeAndStore {α : Type} {m : Step (NodeTree × σ) α} {m' : Step (NodeTree × τ) α}
    (h : Step.Maps (Prod.map id f) m m') :
    Step.Maps (Prod.map id f) (onTreeAndStore m) (onTreeAndStore m') := by
  rintro ⟨l, s⟩
  have hrun := h (l.tree, s)
  rw [Prod.map_apply, id_eq] at hrun
  rw [Prod.map_apply, id_eq, run_onTreeAndStore, run_onTreeAndStore, hrun]
  rfl

theorem maps_fetchPlan (h : Store.Maps f) (id : Int) :
    Step.Maps f (fetchPlan id) (fetchPlan id) := by
  refine (h.plan? id).bind fun found ↦ ?_
  split
  · exact .pure _
  · exact .refuse _

theorem maps_deleteStaleRoots (h : Store.Maps f) (root : Option Int) (rows : List Node) :
    Step.Maps (Prod.map id f) (deleteStaleRoots root rows) (deleteStaleRoots root rows) :=
  Step.Maps.foldlM (fun _ _ ↦ (Step.Maps.second (h.deleteSubtree _)).bind fun _ ↦ .pure _) _ _

theorem maps_save (h : Store.Maps f) : Step.Maps (Prod.map id f) save save := by
  refine .get fun p ↦ (Step.Maps.second (maps_fetchPlan h _)).bind fun plan ↦ ?_
  refine (Step.Maps.first _).bind fun _ ↦ (Step.Maps.first _).bind fun _ ↦ .get fun q ↦ ?_
  refine (Step.Maps.second (h.createLayout _)).bind fun id ↦ (Step.Maps.first _).bind fun _ ↦ ?_
  exact (maps_onTreeAndStore (NodeTree.maps_persistAll h id)).bind fun _ ↦ .first _

theorem maps_update (h : Store.Maps f) : Step.Maps (Prod.map id f) update update := by
  refine .get fun p ↦ (Step.Maps.second (maps_fetchPlan h _)).bind fun plan ↦ ?_
  refine (Step.Maps.first _).bind fun _ ↦ (Step.Maps.first _).bind fun _ ↦ ?_
  refine (Step.Maps.first _).bind fun _ ↦ .get fun q ↦ ?_
  refine (Step.Maps.second (h.updateHeader _)).bind fun _ ↦ ?_
  refine (Step.Maps.second (h.nodes _)).bind fun rows ↦ (Step.Maps.first _).bind fun _ ↦ ?_
  refine (maps_deleteStaleRoots h _ _).bind fun live ↦ ?_
  refine (maps_onTreeAndStore (NodeTree.maps_reconcile h _ _)).bind fun _ ↦ ?_
  exact (Step.Maps.second (h.nodes _)).bind fun _ ↦ .first _

end Layout

end Maps

/-! ## From the first write on -/

section Failing

variable {σ ρ α β : Type}

/-- The store has failed, and that is all that it refused. -/
def Watched.Failed (e : PlanError) (w : Watched σ) : Prop :=
  e.IsFailure ∧ w.refusals = [e]

/-- If the store has refused nothing yet, `m` is refused by nothing but its failure. -/
def Step.FailsAlone (m : Step (ρ × Watched σ) α) : Prop :=
  Ends (fun p ↦ p.2.refusals = []) m (fun _ p ↦ p.2.refusals = []) fun e p ↦ p.2.Failed e

theorem Watched.ends_watch {m : Step σ α} (h : Fails m) (writes : Nat) :
    Ends (fun w ↦ w.refusals = []) (watch writes m) (fun _ w ↦ w.refusals = [])
      fun e w ↦ w.Failed e := by
  intro w hw
  rcases run_watch_cases writes m w with ⟨a, s, -, hwatch⟩ | ⟨e, s, hrun, hwatch⟩
  · rw [hwatch]
    exact hw
  · rw [hwatch]
    exact ⟨h w.store e (congrArg Prod.fst hrun), congrArg (· ++ [e]) hw⟩

namespace Step.FailsAlone

theorem pure (a : α) : FailsAlone (ρ := ρ) (σ := σ) (pure a) := Ends.pure fun _ h ↦ h

theorem bind {m : Step (ρ × Watched σ) α} {f : α → Step (ρ × Watched σ) β} (hm : FailsAlone m)
    (hf : ∀ a, FailsAlone (f a)) : FailsAlone (m >>= f) :=
  Ends.bind hm hf

theorem get {f : ρ × Watched σ → Step (ρ × Watched σ) β} (hf : ∀ p, FailsAlone (f p)) :
    FailsAlone (get >>= f) :=
  Ends.get hf

theorem first_modify (f : ρ → ρ) : FailsAlone (σ := σ) (Step.first (Step.modify f)) := fun _ h ↦ h

theorem second_watch {m : Step σ α} (h : Fails m) (writes : Nat) :
    FailsAlone (ρ := ρ) (Watched.watch writes m).second :=
  (Ends.second (P := fun _ ↦ True) (Watched.ends_watch h writes)).imp
    (fun _ h ↦ ⟨trivial, h⟩) (fun _ _ h ↦ h.2) (fun _ _ h ↦ h.2)

end Step.FailsAlone

variable [Store σ] [FailingStore σ]

open FailingStore

namespace NodeTree

theorem failsAlone_insertAt (layoutId : Int) (keepId : Bool) (i : Nat) :
    FailsAlone (σ := σ) (insertAt layoutId keepId i) := by
  refine .get fun p ↦ ?_
  dsimp only
  split
  · exact .pure _
  · exact (FailsAlone.first_modify _).bind fun _ ↦
      (FailsAlone.second_watch (fails_insertNode _) 1).bind fun _ ↦ .first_modify _

theorem failsAlone_replaceAt (layoutId : Int) (keepId : Bool) (top : Nat) :
    FailsAlone (σ := σ) (replaceAt layoutId keepId top) :=
  .get fun _ ↦ FailsAlone.bind (Ends.forM _ fun i ↦ failsAlone_insertAt _ _ i) fun _ ↦ .pure _

theorem failsAlone_persistAll (layoutId : Int) :
    FailsAlone (σ := σ) (persistAll layoutId) := by
  refine .get fun p ↦ ?_
  dsimp only
  split
  · exact .pure _
  · exact failsAlone_replaceAt _ _ _

theorem failsAlone_deleteStored (stored : List Int) (tops : List Placed) :
    FailsAlone (σ := σ) (deleteStored stored tops) := by
  refine Ends.foldlM tops (fun live p ↦ ?_) stored
  split
  · exact (FailsAlone.second_watch (fails_deleteSubtree _) 1).bind fun _ ↦ .pure _
  · exact FailsAlone.pure _

theorem failsAlone_reconcile (layoutId : Int) (stored : List Int) :
    FailsAlone (σ := σ) (reconcile layoutId stored) :=
  .get fun _ ↦ (failsAlone_deleteStored _ _).bind fun _ ↦
    Ends.foldlM _ (fun _ _ ↦ (failsAlone_replaceAt _ _ _).bind fun _ ↦ .pure _) _

end NodeTree

namespace Layout

omit [Store σ] [FailingStore σ] in
theorem failsAlone_onTreeAndStore {m : Step (NodeTree × Watched σ) α} (h : FailsAlone m) :
    FailsAlone (onTreeAndStore m) := by
  intro p hp
  have hend := h (p.1.tree, p.2) hp
  rw [run_onTreeAndStore]
  rcases hm : m.run (p.1.tree, p.2) with ⟨r, t, w⟩
  rw [hm] at hend
  cases r with
  | ok a => exact hend
  | error e => exact hend

theorem failsAlone_deleteStaleRoots (root : Option Int) (rows : List Node) :
    FailsAlone (σ := σ) (deleteStaleRoots root rows) :=
  Ends.foldlM _
    (fun _ _ ↦ (FailsAlone.second_watch (fails_deleteSubtree _) 1).bind fun _ ↦ .pure _) _

end Layout

end Failing

/-! ## Up to the first write -/

section Checking

variable {σ α : Type} [Store σ] [FailingStore σ]

open FailingStore

namespace Watched

/-- Nothing was written to the store, and it holds what it held. -/
structure Unwritten (s : σ) (w : Watched σ) : Prop where
  writes : w.writes = 0
  contents : contents w.store = FailingStore.contents s

variable (s : σ)

theorem keeps_unwritten_watch {m : Step σ α}
    (h : ∀ s, contents (m.run s).2 = FailingStore.contents s) :
    Keeps (Unwritten s) (watch 0 m) := by
  intro w hw
  have hcontents := (h w.store).trans hw.contents
  rcases run_watch_cases 0 m w with ⟨a, s', hrun, hwatch⟩ | ⟨e, s', hrun, hwatch⟩
  · rw [hrun] at hcontents
    rw [hwatch]
    exact ⟨hw.writes, hcontents⟩
  · rw [hrun] at hcontents
    rw [hwatch]
    exact ⟨hw.writes, hcontents⟩

/-- The first write is carried out, fails or changes nothing. -/
theorem ends_watch_first {m : Step σ α} (writes : Nat)
    (h : ∀ s e s', m.run s = (.error e, s') →
      contents s' = FailingStore.contents s ∨ e.IsFailure) :
    Ends (fun w ↦ w.refusals = [] ∧ w.Unwritten s) (watch writes m) (fun _ w ↦ w.refusals = [])
      fun e w ↦ w.Unwritten s ∨ w.Failed e := by
  rintro w ⟨hrefusals, hw⟩
  rcases run_watch_cases writes m w with ⟨a, s', -, hwatch⟩ | ⟨e, s', hrun, hwatch⟩
  · rw [hwatch]
    exact hrefusals
  · rw [hwatch]
    refine (h w.store e s' hrun).imp (fun hcontents ↦ ?_) fun hfails ↦ ?_
    · exact ⟨hw.writes, hcontents.trans hw.contents⟩
    · exact ⟨hfails, congrArg (· ++ [e]) hrefusals⟩

end Watched

namespace Layout

/-- Two layouts that may differ in their trees only. -/
structure SameContent (l l' : Layout) : Prop where
  header : l'.header = l.header
  nodes : l'.nodes = l.nodes

variable (l : Layout) (s : σ)

theorem keeps_sameContent_check (plan : Plan) : Keeps (SameContent l) (check plan) :=
  keeps_check (fun _ h ↦ ⟨h.header, h.nodes⟩) plan

theorem keeps_sameContent_fill (plan : Plan) : Keeps (SameContent l) (fill plan) := by
  refine Keeps.get.bind fun l' ↦ ?_
  split
  · exact .pure _
  · refine (Keeps.ofExcept _).bind fun network ↦ ?_
    split
    · exact .pure _
    · exact fun _ h ↦ ⟨h.header, h.nodes⟩

/-- So far the layout was looked at, and nothing was written or refused. -/
def Unstored (p : Layout × Watched σ) : Prop :=
  l.SameContent p.1 ∧ p.2.refusals = [] ∧ p.2.Unwritten s

/-- Either the layout and the store hold what they held, or the store has failed. -/
def RefusedOrFailed (e : PlanError) (p : Layout × Watched σ) : Prop :=
  l.SameContent p.1 ∧ p.2.Unwritten s ∨ p.2.Failed e

theorem ends_fetchPlan (id : Int) :
    Ends (Unstored l s) (second (fetchPlan id)) (fun _ ↦ Unstored l s) (RefusedOrFailed l s) := by
  have hkeeps : Keeps (Watched.Unwritten s) (fetchPlan id) :=
    keeps_fetchPlan (fun id ↦ Watched.keeps_unwritten_watch s (contents_plan? id)) id
  have hends : Ends (fun w : Watched σ ↦ w.refusals = []) (fetchPlan id)
      (fun _ w ↦ w.refusals = []) fun _ _ ↦ True := by
    refine ((Watched.ends_watch (fails_plan? id) 0).imp (fun _ h ↦ h) (fun _ _ h ↦ h)
      fun _ _ _ ↦ trivial).bind fun found ↦ ?_
    split
    · exact .pure fun _ h ↦ h
    · exact .refuse fun _ _ ↦ trivial
  exact (Ends.second (P := SameContent l) (hends.and_keeps hkeeps)).imp (fun _ h ↦ h)
    (fun _ _ h ↦ h) fun _ _ h ↦ Or.inl ⟨h.1, h.2.2⟩

theorem ends_first {m : Step Layout α} (h : Keeps (SameContent l) m) :
    Ends (Unstored l s) m.first (fun _ ↦ Unstored l s) (RefusedOrFailed l s) :=
  (Ends.first (Q := fun w : Watched σ ↦ w.refusals = [] ∧ w.Unwritten s) h.ends).imp
    (fun _ h ↦ h)
    (fun _ _ h ↦ h) fun _ _ h ↦ Or.inl ⟨h.1, h.2.2⟩

theorem ends_firstWrite {m : Step σ α} (writes : Nat)
    (h : ∀ s e s', m.run s = (.error e, s') →
      contents s' = FailingStore.contents s ∨ e.IsFailure) :
    Ends (Unstored l s) (second (Watched.watch writes m)) (fun _ p ↦ p.2.refusals = [])
      (RefusedOrFailed l s) :=
  (Ends.second (P := SameContent l) (Watched.ends_watch_first s writes h)).imp (fun _ h ↦ h)
    (fun _ _ h ↦ h.2) fun _ _ h ↦ h.2.imp (fun hunwritten ↦ ⟨h.1, hunwritten⟩) id

theorem ends_of_failsAlone {m : Step (Layout × Watched σ) α} (h : FailsAlone m) :
    Ends (fun p ↦ p.2.refusals = []) m (fun _ _ ↦ True) (RefusedOrFailed l s) :=
  h.imp (fun _ h ↦ h) (fun _ _ _ ↦ trivial) fun _ _ h ↦ Or.inr h

theorem ends_save :
    Ends (Unstored l s) save (fun _ _ ↦ True) (RefusedOrFailed l s) := by
  refine Ends.get fun p ↦ (ends_fetchPlan l s _).bind fun plan ↦ ?_
  refine (ends_first l s (keeps_sameContent_check l plan)).bind fun _ ↦ ?_
  refine (ends_first l s (keeps_sameContent_fill l plan)).bind fun _ ↦ Ends.get fun q ↦ ?_
  refine (ends_firstWrite l s 1 fun s e _ h ↦ Or.inr ?_).bind fun id ↦ ?_
  · exact fails_createLayout _ s e (congrArg Prod.fst h)
  -- The header is stored: whatever is refused from here on is refused by the store.
  refine ends_of_failsAlone l s ((FailsAlone.first_modify _).bind fun _ ↦ ?_)
  exact (failsAlone_onTreeAndStore (NodeTree.failsAlone_persistAll id)).bind fun _ ↦
    .first_modify _

theorem ends_update :
    Ends (Unstored l s) update (fun _ _ ↦ True) (RefusedOrFailed l s) := by
  refine Ends.get fun p ↦ (ends_fetchPlan l s _).bind fun plan ↦ ?_
  have hdrop : Keeps (SameContent l) (Step.modify dropTree) := fun _ h ↦ ⟨h.header, h.nodes⟩
  refine (ends_first l s hdrop).bind fun _ ↦ ?_
  refine (ends_first l s (keeps_sameContent_check l plan)).bind fun _ ↦ ?_
  refine (ends_first l s (keeps_sameContent_fill l plan)).bind fun _ ↦ Ends.get fun q ↦ ?_
  -- A header that is not there is found by the first write, which changes nothing then.
  refine (ends_firstWrite l s 1 fun s e _ h ↦ updateHeader_refused h).bind fun _ ↦ ?_
  refine ends_of_failsAlone l s ((FailsAlone.second_watch (fails_nodes _) 0).bind fun rows ↦ ?_)
  refine (FailsAlone.first_modify _).bind fun _ ↦ (failsAlone_deleteStaleRoots _ _).bind
    fun live ↦ ?_
  refine (failsAlone_onTreeAndStore (NodeTree.failsAlone_reconcile _ _)).bind fun _ ↦ ?_
  exact (FailsAlone.second_watch (fails_nodes _) 0).bind fun _ ↦ .first_modify _

/-- What validation refuses leaves the layout and the store as they were.  Once a write was
carried out on the watched store, only its failure can refuse the rest. -/
structure ValidatesFirst (m : Step (Layout × σ) Unit) (watched : Step (Layout × Watched σ) Unit) :
    Prop where
  /-- Being watched makes no difference. -/
  watched_run : ∀ l w, m.run (l, w.store) =
    ((watched.run (l, w)).1, (watched.run (l, w)).2.1, (watched.run (l, w)).2.2.store)
  unchanged : ∀ l s e l' s', m.run (l, s) = (.error e, l', s') → ¬ e.IsFailure →
    contents s' = contents s ∧ l'.header = l.header ∧ l'.nodes = l.nodes
  failed : ∀ l s e l' w, watched.run (l, ⟨s, 0, []⟩) = (.error e, l', w) → 0 < w.writes →
    e.IsFailure ∧ w.refusals = [e]

theorem validatesFirst_of_ends {m : Step (Layout × σ) Unit}
    {watched : Step (Layout × Watched σ) Unit}
    (hmaps : Step.Maps (Prod.map id Watched.store) watched m)
    (hends : ∀ l s, Ends (Unstored l s) watched (fun _ _ ↦ True) (RefusedOrFailed l s)) :
    ValidatesFirst m watched := by
  have hstart (l : Layout) (s : σ) : Unstored l s (l, ⟨s, 0, []⟩) :=
    ⟨⟨rfl, rfl⟩, rfl, ⟨rfl, rfl⟩⟩
  refine ⟨fun l w ↦ hmaps (l, w), fun l s e l' s' hrun he ↦ ?_, fun l s e l' w hrun hw ↦ ?_⟩
  · have hmap := hmaps (l, ⟨s, 0, []⟩)
    rcases hwatched : watched.run (l, ⟨s, 0, []⟩) with ⟨r, l₁, w⟩
    rw [hwatched, Prod.map_apply, Prod.map_apply, id_eq, id_eq, hrun] at hmap
    cases hmap
    rcases (hends l s).of_error (hstart l s) hwatched with ⟨hcontent, hunwritten⟩ | hfailed
    · exact ⟨hunwritten.contents, hcontent.header, hcontent.nodes⟩
    · exact absurd hfailed.1 he
  · rcases (hends l s).of_error (hstart l s) hrun with ⟨-, hunwritten⟩ | hfailed
    · exact absurd hunwritten.writes (Nat.ne_of_gt hw)
    · exact hfailed

/-- Saving and updating a layout validate it before they write. -/
theorem save_update_validatesFirst :
    ValidatesFirst (σ := σ) save save ∧ ValidatesFirst (σ := σ) update update :=
  ⟨validatesFirst_of_ends (maps_save Watched.maps_store) ends_save,
    validatesFirst_of_ends (maps_update Watched.maps_store) ends_update⟩

end Layout

end Checking

/-! ## Two refusals -/

namespace Layout

def onePlan : Recording where
  plans := [{ id := 1, cidr := "2001:db8::/48", maskLength := 64 }]

/-- The site can number one hall. -/
def hallsLayout (halls : List String) : Layout where
  header := { planId := 1, name := "halls", autoFill := true, firstFinished := false }
  nodes := { id := 1, name := "root" } ::
    { id := 2, parentId := 1, name := "site", bitWidth := 4 } ::
    halls.mapIdx fun i name ↦ { id := i + 3, parentId := 2, name, bitWidth := 1 }

/-- A store whose device fails at the second insertion. -/
def failingPlan : Watched Recording where
  store := { onePlan with failAfter := some 1 }

/-- A hall too many comes up when the one before it is numbered already, and leaves no trace in
the store.  The device fails behind the header and the root. -/
theorem save_update_validatesFirst_halls :
    (∃ l' s', save.run (hallsLayout ["a", "b"], onePlan) =
        (.error (.capacity (.siblings "site" 2 1 1)), l', s') ∧
      l'.tree.flatten.map Node.cidr =
        ["2001:db8::/59", "2001:db8:0:2::/63", "2001:db8:0:3::/64", ""] ∧
      (s'.plans, s'.headers, s'.nodes) = (onePlan.plans, [], []) ∧
      l'.header = (hallsLayout ["a", "b"]).header ∧ l'.nodes = (hallsLayout ["a", "b"]).nodes) ∧
    ∃ e l' w, save.run (hallsLayout ["a"], failingPlan) = (.error e, l', w) ∧ w.writes = 2 ∧
      e.IsFailure ∧ w.refusals = [e] := by
  obtain ⟨hsave, -⟩ := save_update_validatesFirst (σ := Recording)
  constructor
  · have hrefused : (save.run (hallsLayout ["a", "b"], onePlan)).1 =
        .error (.capacity (.siblings "site" 2 1 1)) := by decide +kernel
    have hnumbered : (save.run (hallsLayout ["a", "b"], onePlan)).2.1.tree.flatten.map Node.cidr =
        ["2001:db8::/59", "2001:db8:0:2::/63", "2001:db8:0:3::/64", ""] := by decide +kernel
    have hrun := run_eq_of_fst hrefused
    exact ⟨_, _, hrun, hnumbered, hsave.unchanged _ _ _ _ _ hrun fun ⟨_, h⟩ ↦ nomatch h⟩
  · have hrefused : (save.run (hallsLayout ["a"], failingPlan)).1 =
        .error (.storeFailure .device) := by decide +kernel
    have hwritten : (save.run (hallsLayout ["a"], failingPlan)).2.2.writes = 2 := by
      decide +kernel
    have hpos : 0 < (save.run (hallsLayout ["a"], failingPlan)).2.2.writes := by
      rw [hwritten]
      exact Nat.two_pos
    have hrun := run_eq_of_fst hrefused
    exact ⟨_, _, _, hrun, hwritten, hsave.failed _ _ _ _ _ hrun hpos⟩

end Layout

end AddressPlan
