import AddressPlan.Proofs.Store.Lawful

/-!
# Watched stores

A store that is watched keeps an account of the writes that it carried out and of the requests
that it refused, and one that is guarded of the rows that came under an id that was taken.
Otherwise it does what the store does, so what is seen on such a run tells about the run.  Both
of our stores refuse a request by failing; only the header of a layout that is not there may be
refused in another way, and then nothing changes.
-/

namespace AddressPlan

open Step

/-! ## Maps of states -/

/-- `f` takes what `m` does to what `m'` does. -/
def Step.Maps {σ τ α : Type} (f : σ → τ) (m : Step σ α) (m' : Step τ α) : Prop :=
  ∀ s, m'.run (f s) = ((m.run s).1, f (m.run s).2)

namespace Step.Maps

variable {σ τ ρ α β : Type} {f : σ → τ} {m : Step σ α} {m' : Step τ α}

theorem of_run {s s' : σ} {r : Except PlanError α} (h : Maps f m m') (hrun : m.run s = (r, s')) :
    m'.run (f s) = (r, f s') := by
  have hmaps := h s
  rwa [hrun] at hmaps

theorem pure (a : α) : Maps f (pure a) (pure a) := fun _ ↦ rfl

theorem refuse (e : PlanError) : Maps f (refuse e : Step σ α) (refuse e) := fun _ ↦ rfl

theorem bind {k : α → Step σ β} {k' : α → Step τ β} (hm : Maps f m m')
    (hk : ∀ a, Maps f (k a) (k' a)) : Maps f (m >>= k) (m' >>= k') := by
  intro s
  rw [run_bind, run_bind, hm s]
  rcases m.run s with ⟨r, s₁⟩
  cases r with
  | ok a => exact hk a s₁
  | error e => rfl

theorem get {k : σ → Step σ β} {k' : τ → Step τ β} (hk : ∀ s, Maps f (k s) (k' (f s))) :
    Maps f (get >>= k) (get >>= k') :=
  fun s ↦ hk s s

theorem foldlM {k : β → α → Step σ β} {k' : β → α → Step τ β} (hk : ∀ b a, Maps f (k b a) (k' b a))
    (as : List α) : ∀ b, Maps f (as.foldlM k b) (as.foldlM k' b) := by
  induction as with
  | nil => exact pure
  | cons a as ih =>
    intro b
    rw [List.foldlM_cons, List.foldlM_cons]
    exact (hk b a).bind ih

theorem forM {k : α → Step σ PUnit} {k' : α → Step τ PUnit} (hk : ∀ a, Maps f (k a) (k' a))
    (as : List α) : Maps f (as.forM k) (as.forM k') := by
  induction as with
  | nil => exact pure _
  | cons a as ih => exact (hk a).bind fun _ ↦ ih

theorem first (m : Step ρ α) : Maps (Prod.map id f) m.first m.first := fun _ ↦ rfl

theorem second (h : Maps f m m') : Maps (Prod.map id f : ρ × σ → ρ × τ) m.second m'.second := by
  intro p
  rw [run_second, run_second, Prod.map_snd, h p.2]
  rfl

end Step.Maps

/-- A map of states that goes along with every request. -/
structure Store.Maps {σ τ : Type} [Store σ] [Store τ] (f : σ → τ) : Prop where
  plan? (id : Int) : Step.Maps f (Store.plan? id) (Store.plan? id)
  createLayout (header : LayoutHeader) :
    Step.Maps f (Store.createLayout header) (Store.createLayout header)
  updateHeader (header : LayoutHeader) :
    Step.Maps f (Store.updateHeader header) (Store.updateHeader header)
  deleteLayout (id : Int) : Step.Maps f (Store.deleteLayout id) (Store.deleteLayout id)
  header? (id : Int) : Step.Maps f (Store.header? id) (Store.header? id)
  nodes (layoutId : Int) : Step.Maps f (Store.nodes layoutId) (Store.nodes layoutId)
  insertNode (n : Node) : Step.Maps f (Store.insertNode n) (Store.insertNode n)
  deleteSubtree (id : Int) : Step.Maps f (Store.deleteSubtree id) (Store.deleteSubtree id)

theorem Store.Maps.id {σ : Type} [Store σ] : Store.Maps (id : σ → σ) where
  plan? _ _ := rfl
  createLayout _ _ := rfl
  updateHeader _ _ := rfl
  deleteLayout _ _ := rfl
  header? _ _ := rfl
  nodes _ _ := rfl
  insertNode _ _ := rfl
  deleteSubtree _ _ := rfl

/-! ## Watching -/

structure Watched (σ : Type) where
  store : σ
  /-- How many writes were carried out. -/
  writes : Nat := 0
  /-- What the store said to requests that it refused. -/
  refusals : List PlanError := []

namespace Watched

variable {σ α : Type}

/-- A request that counts for so many writes once it is carried out. -/
def watch (writes : Nat) (m : Step σ α) : Step (Watched σ) α := fun w ↦
  match m w.store with
  | (.ok a, store) => (.ok a, { w with store, writes := w.writes + writes })
  | (.error e, store) => (.error e, { w with store, refusals := w.refusals ++ [e] })

instance [Store σ] : Store (Watched σ) where
  plan? id := watch 0 (Store.plan? id)
  createLayout header := watch 1 (Store.createLayout header)
  updateHeader header := watch 1 (Store.updateHeader header)
  deleteLayout id := watch 1 (Store.deleteLayout id)
  header? id := watch 0 (Store.header? id)
  nodes layoutId := watch 0 (Store.nodes layoutId)
  insertNode n := watch 1 (Store.insertNode n)
  deleteSubtree id := watch 1 (Store.deleteSubtree id)

theorem run_watch_cases (writes : Nat) (m : Step σ α) (w : Watched σ) :
    (∃ a store, m.run w.store = (.ok a, store) ∧
      (watch writes m).run w = (.ok a, { w with store, writes := w.writes + writes })) ∨
    ∃ e store, m.run w.store = (.error e, store) ∧
      (watch writes m).run w = (.error e, { w with store, refusals := w.refusals ++ [e] }) := by
  unfold run watch
  rcases m w.store with ⟨r, s⟩
  cases r with
  | ok a => exact Or.inl ⟨a, s, rfl, rfl⟩
  | error e => exact Or.inr ⟨e, s, rfl, rfl⟩

theorem run_watch_eq_ok {writes : Nat} {m : Step σ α} {w w' : Watched σ} {a : α}
    (hrun : (watch writes m).run w = (.ok a, w')) :
    w'.writes = w.writes + writes ∧ w'.refusals = w.refusals := by
  rcases run_watch_cases writes m w with ⟨b, s, -, hwatch⟩ | ⟨e, s, -, hwatch⟩
  · cases hwatch.symm.trans hrun
    exact ⟨rfl, rfl⟩
  · cases hwatch.symm.trans hrun

theorem maps_watch (writes : Nat) (m : Step σ α) : Step.Maps store (watch writes m) m := by
  intro w
  rcases run_watch_cases writes m w with ⟨a, s, hrun, hwatch⟩ | ⟨e, s, hrun, hwatch⟩
  · rw [hrun, hwatch]
  · rw [hrun, hwatch]

/-- A watched store does what the store does. -/
theorem maps_store [Store σ] : Store.Maps (Watched.store (σ := σ)) where
  plan? _ := maps_watch _ _
  createLayout _ := maps_watch _ _
  updateHeader _ := maps_watch _ _
  deleteLayout _ := maps_watch _ _
  header? _ := maps_watch _ _
  nodes _ := maps_watch _ _
  insertNode _ := maps_watch _ _
  deleteSubtree _ := maps_watch _ _

end Watched

/-! ## Guarding ids -/

/-- A store with an account of the rows that came under an id that was taken. -/
structure Guarded (σ : Type) where
  store : σ
  clashes : List Node := []

namespace Guarded

variable {σ α : Type}

def pass (m : Step σ α) : Step (Guarded σ) α := fun g ↦
  ((m.run g.store).1, { g with store := (m.run g.store).2 })

variable [Store σ] [LawfulStore σ]

def insertNode (n : Node) : Step (Guarded σ) Int := fun g ↦
  let (r, store) := (Store.insertNode n).run g.store
  if 0 < n.id ∧ ∃ m ∈ LawfulStore.rows g.store, m.id = n.id then
    (r, { store, clashes := g.clashes ++ [n] })
  else (r, { g with store })

instance : Store (Guarded σ) where
  plan? id := pass (Store.plan? id)
  createLayout header := pass (Store.createLayout header)
  updateHeader header := pass (Store.updateHeader header)
  deleteLayout id := pass (Store.deleteLayout id)
  header? id := pass (Store.header? id)
  nodes layoutId := pass (Store.nodes layoutId)
  insertNode := insertNode
  deleteSubtree id := pass (Store.deleteSubtree id)

/-- A guarded store does what the store does. -/
theorem maps_store : Store.Maps (Guarded.store (σ := σ)) where
  plan? _ _ := rfl
  createLayout _ _ := rfl
  updateHeader _ _ := rfl
  deleteLayout _ _ := rfl
  header? _ _ := rfl
  nodes _ _ := rfl
  insertNode n g := by
    change _ = ((insertNode n g).1, (insertNode n g).2.store)
    unfold insertNode
    split
    split
    · assumption
    · assumption
  deleteSubtree _ _ := rfl

theorem clashes_insertNode {n : Node} {g : Guarded σ}
    (hfree : 0 < n.id → ∀ m ∈ LawfulStore.rows g.store, m.id ≠ n.id) :
    ((Store.insertNode n).run g).2.clashes = g.clashes := by
  change (insertNode n g).2.clashes = _
  unfold insertNode
  split
  rw [if_neg]
  rintro ⟨hpos, m, hm, hid⟩
  exact hfree hpos m hm hid

end Guarded

/-! ## Stores that refuse by failing -/

def PlanError.IsFailure (e : PlanError) : Prop :=
  ∃ fault, e = .storeFailure fault

/-- Whatever refuses `m` is a failure of the store. -/
def Step.Fails {σ α : Type} (m : Step σ α) : Prop :=
  ∀ s e, (m.run s).1 = .error e → e.IsFailure

/-- Requests are refused by a failure, but the update of a header also in another way if it
changes nothing.  To look for a plan changes nothing either. -/
class FailingStore (σ : Type) [Store σ] where
  /-- The plans, the headers and the rows of nodes. -/
  contents : σ → List Plan × List LayoutHeader × List Node
  contents_plan? (id : Int) (s : σ) : contents ((Store.plan? id).run s).2 = contents s
  fails_plan? (id : Int) : Fails (Store.plan? (σ := σ) id)
  fails_createLayout (header : LayoutHeader) : Fails (Store.createLayout (σ := σ) header)
  updateHeader_refused {header : LayoutHeader} {s s' : σ} {e : PlanError}
    (hrun : (Store.updateHeader header).run s = (.error e, s')) :
    contents s' = contents s ∨ e.IsFailure
  fails_nodes (layoutId : Int) : Fails (Store.nodes (σ := σ) layoutId)
  fails_insertNode (n : Node) : Fails (Store.insertNode (σ := σ) n)
  fails_deleteSubtree (id : Int) : Fails (Store.deleteSubtree (σ := σ) id)

theorem Database.fails_change {α : Type} {f : Database → Except StoreFault (α × Database)} :
    Fails (change f) := by
  intro db e hrun
  unfold run change at hrun
  split at hrun
  · cases hrun
  · rename_i fault _
    exact ⟨fault, (Except.error.inj hrun).symm⟩

instance : FailingStore Database where
  contents db := (db.plans, db.headers, db.nodes)
  contents_plan? _ _ := rfl
  fails_plan? _ _ _ hrun := nomatch hrun
  fails_createLayout _ := Database.fails_change
  updateHeader_refused hrun := Or.inr (Database.fails_change _ _ (congrArg Prod.fst hrun))
  fails_nodes _ _ _ hrun := nomatch hrun
  fails_insertNode _ := Database.fails_change
  fails_deleteSubtree _ _ _ hrun := nomatch hrun

instance : FailingStore Recording where
  contents s := (s.plans, s.headers, s.nodes)
  contents_plan? _ _ := rfl
  fails_plan? _ _ _ hrun := nomatch hrun
  fails_createLayout _ _ _ hrun := nomatch hrun
  updateHeader_refused {header s s' e} hrun := by
    change Recording.updateHeader header s = _ at hrun
    dsimp only [Recording.updateHeader] at hrun
    split at hrun
    · cases hrun
    · cases hrun
      exact Or.inl rfl
  fails_nodes _ _ _ hrun := nomatch hrun
  fails_insertNode n s e hrun := by
    change (Recording.insertNode n s).1 = _ at hrun
    unfold Recording.insertNode at hrun
    split at hrun
    · exact ⟨_, (Except.error.inj hrun).symm⟩
    · split at hrun
      · exact ⟨_, (Except.error.inj hrun).symm⟩
      · cases hrun
  fails_deleteSubtree _ _ _ hrun := nomatch hrun

end AddressPlan
