import AddressPlan.Layout.Lifecycle
import AddressPlan.Proofs.Layout.Check
import AddressPlan.Proofs.Layout.Keeps
import AddressPlan.Proofs.NodeTree.Reconcile

/-!
# What an update does to the rows

An update takes away the stored trees whose root was replaced and what is stored below the
topmost dirty nodes, and writes every place that is dirty, or below a dirty one, among the
rows that are left.
-/

namespace AddressPlan.Layout

open Rows LawfulStore NodeTree

variable {σ : Type} [Store σ] [LawfulStore σ] {l l' : Layout} {s s' : σ}

omit [LawfulStore σ] in
theorem run_plan?_of_fetchPlan {id : Int} {plan : Plan}
    (hrun : (fetchPlan id).run s = (.ok plan, s')) :
    (Store.plan? id).run s = (.ok (some plan), s') := by
  simp only [fetchPlan, Step.run_bind_eq_ok_iff] at hrun
  obtain ⟨found, s₁, hfound, hrun⟩ := hrun
  cases found with
  | none => cases hrun
  | some plan' =>
    cases hrun
    exact hfound

omit [LawfulStore σ] in
theorem run_load_steps {id : Int} (hrun : (load id).run s = (.ok l, s')) :
    ∃ header s₁ nodes, (Store.header? id).run s = (.ok (some header), s₁) ∧
      (Store.nodes id).run s₁ = (.ok nodes, s') ∧ l = { header, nodes } := by
  obtain ⟨found, s₁, hfound, hrun⟩ := Step.run_bind_eq_ok_iff.mp hrun
  cases found with
  | none => cases hrun
  | some header =>
    obtain ⟨nodes, s₂, hnodes, hrun⟩ := Step.run_bind_eq_ok_iff.mp hrun
    cases hrun
    exact ⟨header, s₁, nodes, hfound, hnodes, rfl⟩

theorem run_fetchPlan_eq_ok {id : Int} {plan : Plan} (hs : Sound s)
    (hrun : (fetchPlan id).run s = (.ok plan, s')) :
    (Store.plan? id).run s = (.ok (some plan), s') ∧ Sound s' ∧ rows s' = rows s := by
  have hfound := run_plan?_of_fetchPlan hrun
  have hquiet := quiet_plan? id s hs
  rw [hfound] at hquiet
  exact ⟨hfound, hquiet⟩

/-- The stored roots that are not the root of the tree. -/
def staleRoots (root : Option Int) (stored : List Node) : List Int :=
  (stored.filter fun n ↦ n.isRoot && some n.id != root).map Node.id

theorem run_deleteStaleRoots {root : Option Int} {stored : List Node} {live : List Int}
    {p p' : Layout × σ} (hs : Sound p.2)
    (hrun : (deleteStaleRoots root stored).run p = (.ok live, p')) :
    p'.1 = p.1 ∧ Sound p'.2 ∧ ∃ gone, rows p'.2 = outside (rows p.2) gone ∧
      live = (stored.map Node.id).filter (!gone.contains ·) ∧
      AreBelow (rows p.2) (staleRoots root stored) gone := by
  have htops : staleRoots root stored =
      (stored.filter fun n ↦ n.isRoot && some n.id != root).filterMap fun n ↦ some n.id := by
    rw [staleRoots, ← List.filterMap_eq_map]
    rfl
  rw [htops]
  refine run_deletions _ (fun {live n p live' p'} hn _ ↦ ?_)
    (fun {live n p live' p' d} hn hbody ↦ ?_) _ hs hrun
  · cases hn
  · cases hn
    obtain ⟨removed, p₁, hdelete, hbody⟩ := Step.run_bind_eq_ok_iff.mp hbody
    cases hbody
    obtain ⟨hdelete, hlayout⟩ := Step.run_second_eq_ok_iff.mp hdelete
    exact ⟨hlayout, removed, hdelete, rfl⟩

omit [Store σ] [LawfulStore σ] in
theorem run_onTreeAndStore_eq_ok {α : Type} {m : Step (NodeTree × σ) α} {p p' : Layout × σ}
    {a : α} (hrun : (onTreeAndStore m).run p = (.ok a, p')) :
    m.run (p.1.tree, p.2) = (.ok a, (p'.1.tree, p'.2)) ∧ p'.1.header = p.1.header := by
  rw [run_onTreeAndStore, Prod.mk.injEq] at hrun
  obtain ⟨hok, rfl⟩ := hrun
  exact ⟨Prod.ext hok rfl, rfl⟩

omit [Store σ] [LawfulStore σ] in
theorem kept_of_run_onTreeAndStore {α : Type} {m : Step (NodeTree × σ) α} {p p' : Layout × σ}
    {a : α} (hrun : (onTreeAndStore m).run p = (.ok a, p')) : p'.1.kept = some p'.1.tree := by
  rw [run_onTreeAndStore, Prod.mk.injEq] at hrun
  obtain ⟨-, rfl⟩ := hrun
  rfl

def storedIds (rows : List Node) (layoutId : Int) : List Int :=
  (inOrder (ofLayout rows layoutId)).map Node.id

/-- The passes of an update that makes the rows of a layout follow the tree `t`.  It deletes
the rows under `gone`, whose root was replaced, then those under `more`, and then writes
`places`. -/
structure Passes (layoutId : Int) (t : NodeTree) (before between : σ) (after : NodeTree × σ)
    (gone more : List Int) (places : List Nat) : Prop where
  stale : AreBelow (rows before)
    (staleRoots (t.root?.map Node.id) (inOrder (ofLayout (rows before) layoutId))) gone
  doomed : AreBelow (outside (rows before) gone)
    (t.doomedTops ((storedIds (rows before) layoutId).filter (!gone.contains ·))) more
  rows_between : rows between = outside (outside (rows before) gone) more
  wrote : Wrote layoutId (t, between) after places
  nodup : places.Nodup
  mem_places : ∀ i, i ∈ places ↔ t.BelowDirty
    (((storedIds (rows before) layoutId).filter (!gone.contains ·)).filter (!more.contains ·)) i

/-- The tree that an update of a layout follows. -/
def requestTree (plan : Plan) (l : Layout) : NodeTree :=
  l.dropTree.numberedTree plan

theorem relabelled_requestTree (plan : Plan) (l : Layout) :
    Relabelled (build l.nodes) (l.requestTree plan) :=
  relabelled_numberedTree plan l.dropTree

omit [LawfulStore σ] in
/-- The steps of an update that is carried out.  The layout is checked and numbered first, and
only then is anything written. -/
theorem run_update_steps (hrun : update.run (l, s) = (.ok (), (l', s'))) :
    ∃ plan checked prepared s₁ s₂ s₃ stored live tally l₄ s₄ p₅ shown,
      (fetchPlan l.header.planId).run s = (.ok plan, s₁) ∧
      (check plan).run l.dropTree = (.ok (), checked) ∧
      (Layout.fill plan).run checked = (.ok (), prepared) ∧
      (Store.updateHeader prepared.header).run s₁ = (.ok (), s₂) ∧
      (Store.nodes prepared.header.id).run s₂ = (.ok stored, s₃) ∧
      (deleteStaleRoots (prepared.keepTree.tree.root?.map Node.id) stored).run
        (prepared.keepTree, s₃) = (.ok live, (l₄, s₄)) ∧
      (onTreeAndStore (reconcile prepared.header.id live)).run (l₄, s₄) = (.ok tally, p₅) ∧
      (Store.nodes prepared.header.id).run p₅.2 = (.ok shown, s') ∧
      l' = { p₅.1 with nodes := shown, kept := none } := by
  simp only [update, Step.run_bind_eq_ok_iff, Step.run_first_eq_ok_iff,
    Step.run_second_eq_ok_iff, Step.run_get, Step.run_modify, Prod.mk.injEq,
    Except.ok.injEq] at hrun
  obtain ⟨_, _, ⟨rfl, rfl⟩, plan, ⟨l, _⟩, ⟨hplan, hl⟩, _, ⟨_, _⟩, ⟨⟨-, hdrop⟩, rfl⟩,
    _, ⟨checked, _⟩, ⟨hcheck, rfl⟩, _, ⟨_, s₁⟩, ⟨hfill, hs₁⟩, _, _, ⟨rfl, rfl⟩, hrun⟩ := hrun
  obtain ⟨_, ⟨_, s₂⟩, ⟨hheader, rfl⟩, stored, ⟨prepared, _⟩, ⟨hnodes, hprepared⟩, _, ⟨_, s₃⟩,
    ⟨⟨-, hkeep⟩, hs₃⟩, live, ⟨l₄, s₄⟩, hstale, tally, ⟨_, s₅⟩, hreconcile, _, ⟨l₅, s₆⟩,
    ⟨hshown, hl₅⟩, ⟨-, hl'⟩, hs'⟩ := hrun
  dsimp only at *
  subst hl hdrop hs₁ hprepared hkeep hs₃ hl₅ hs' hl'
  exact ⟨plan, checked, prepared, s₁, s₂, s₃, stored, live, tally, l₄, s₄, _, _, hplan, hcheck,
    hfill, hheader, hnodes, hstale, hreconcile, hshown, rfl⟩

theorem tree_dropTree_of_empty (l : Layout) (hnil : l.dropTree.nodes = []) :
    l.dropTree.tree = {} := by
  rw [tree_dropTree, show l.nodes = [] from hnil]
  rfl

omit [LawfulStore σ] in
theorem layout_of_update (hrun : update.run (l, s) = (.ok (), (l', s'))) :
    l'.header = l.header ∧ l'.kept = none := by
  obtain ⟨plan, checked, prepared, s₁, s₂, s₃, stored, live, tally, l₄, s₄, p₅, shown, -,
    hcheck, hfill, -, -, hstale, hreconcile, -, rfl⟩ := run_update_steps hrun
  have hkeeps : Step.Keeps (fun p : Layout × σ ↦ p.1 = prepared.keepTree)
      (deleteStaleRoots (prepared.keepTree.tree.root?.map Node.id) stored) :=
    Step.Keeps.foldlM (fun _ _ ↦
      (Step.Keeps.second_fst (P := (· = prepared.keepTree)) _).bind fun _ ↦ .pure _) _ _
  obtain rfl : l₄ = prepared.keepTree := hkeeps.of_run rfl hstale
  have hheader : prepared.header = l.header :=
    (run_check_fill_eq_ok l.tree_dropTree_of_empty hcheck hfill).1
  exact ⟨(run_onTreeAndStore_eq_ok hreconcile).2.trans hheader, rfl⟩

/-- An update that is carried out numbers the tree if the layout asks for it. -/
theorem fill_of_update (hs : Sound s) (hrun : update.run (l, s) = (.ok (), (l', s'))) :
    ∃ plan s₀, (Store.plan? l.header.planId).run s = (.ok (some plan), s₀) ∧
      ∀ base, l.header.autoFill = true → plan.network = .ok base → base.family = .v6 →
        (build l.nodes).fill base plan.maskLength = (.ok (), l.requestTree plan) := by
  obtain ⟨plan, checked, prepared, s₁, s₂, s₃, stored, live, tally, l₄, s₄, p₅, shown, hplan,
    hcheck, hfill, -⟩ := run_update_steps hrun
  exact ⟨plan, s₁, (run_fetchPlan_eq_ok hs hplan).1, fun base hauto hnetwork hfamily ↦
    fill_of_check_fill l.tree_dropTree_of_empty hcheck hfill hauto hnetwork hfamily⟩

/-- Up to its second pass an update that is carried out takes away the trees whose root was
replaced, and nothing else happens to a row.  What the requests to the store keep that it makes
until then is kept. -/
theorem exists_reconcile_of_update {Q : σ → Prop} (hs : Sound s) (hQ : Q s)
    (hplan : ∀ id, Step.Keeps Q (Store.plan? (σ := σ) id))
    (hheader : ∀ header, Step.Keeps Q (Store.updateHeader (σ := σ) header))
    (hnodes : ∀ id, Step.Keeps Q (Store.nodes (σ := σ) id))
    (hdelete : ∀ d, Step.Keeps Q (Store.deleteSubtree (σ := σ) d))
    (hrun : update.run (l, s) = (.ok (), (l', s'))) :
    ∃ plan s₁ gone s₂ tally after shown,
      (Store.plan? l.header.planId).run s = (.ok (some plan), s₁) ∧
      (l.nodes = [] ∨ l.dropTree.OneTree) ∧ Sound s₂ ∧ Q s₂ ∧
      rows s₂ = outside (rows s) gone ∧
      AreBelow (rows s) (staleRoots ((l.requestTree plan).root?.map Node.id)
        (inOrder (ofLayout (rows s) l.header.id))) gone ∧
      (reconcile l.header.id ((storedIds (rows s) l.header.id).filter (!gone.contains ·))).run
        (l.requestTree plan, s₂) = (.ok tally, after) ∧
      (Store.nodes l.header.id).run after.2 = (.ok shown, s') := by
  obtain ⟨plan, checked, prepared, s₁, s₂, s₃, stored, live, tally, l₄, s₄, p₅, shown, hfetch,
    hcheck, hfill, hupdate, hread, hstale, hreconcile, hshown, -⟩ := run_update_steps hrun
  obtain ⟨hfound, hsound₁, hrows₁⟩ := run_fetchPlan_eq_ok hs hfetch
  obtain ⟨hsame, htree, hok⟩ := run_check_fill_eq_ok l.tree_dropTree_of_empty hcheck hfill
  have hid : prepared.header.id = l.header.id := congrArg LayoutHeader.id hsame
  rw [hid] at hread hreconcile hshown
  rw [tree_keepTree, htree] at hstale
  -- Up to here nothing has touched a row, so the first pass finds the rows of `s`.
  obtain ⟨hsound₂, hrows₂⟩ := hupdate ▸ quiet_updateHeader prepared.header s₁ hsound₁
  obtain ⟨hsound₃, hrows₃⟩ := hread ▸ quiet_nodes l.header.id s₂ hsound₂
  have hrows : rows s₃ = rows s := hrows₃.trans (hrows₂.trans hrows₁)
  have hstored : stored = inOrder (ofLayout (rows s) l.header.id) := by
    rw [nodes_run, hrows₂.trans hrows₁] at hread
    cases hread
    rfl
  subst hstored
  have hQ₃ : Q s₃ := (hnodes _).of_run
    ((hheader _).of_run ((keeps_fetchPlan hplan _).of_run hQ hfetch) hupdate) hread
  have hQ₄ : Q s₄ := (keeps_deleteStaleRoots hdelete _ _).of_run hQ₃ hstale
  obtain ⟨hl₄, hsound₄, gone, hgone, rfl, hbelow⟩ := run_deleteStaleRoots hsound₃ hstale
  obtain ⟨hreconcile, -⟩ := run_onTreeAndStore_eq_ok hreconcile
  dsimp only at hl₄ hsound₄ hgone hbelow hreconcile
  rw [hl₄, tree_keepTree, htree] at hreconcile
  rw [hrows] at hgone hbelow
  exact ⟨plan, s₁, gone, s₄, tally, _, shown, hfound, hok, hsound₄, hQ₄, hgone, hbelow,
    hreconcile, hshown⟩

theorem rooted_requestTree (plan : Plan) (l : Layout) : (l.requestTree plan).Rooted :=
  (relabelled_requestTree plan l).sameShape.rooted (build_rooted l.nodes)

theorem run_update_eq_ok (hs : Sound s) (hrun : update.run (l, s) = (.ok (), (l', s'))) :
    ∃ plan s₀, (Store.plan? l.header.planId).run s = (.ok (some plan), s₀) ∧
      (l.nodes = [] ∨ l.dropTree.OneTree) ∧
      ∃ between after gone more places,
        Passes l.header.id (l.requestTree plan) s between after gone more places ∧
        Sound s' ∧ rows s' = rows after.2 := by
  obtain ⟨plan, s₁, gone, s₂, tally, after, shown, hplan, hok, hsound₂, -, hgone, hbelow,
    hreconcile, hshown⟩ := exists_reconcile_of_update (Q := fun _ ↦ True) hs trivial
      (fun _ _ _ ↦ trivial) (fun _ _ _ ↦ trivial) (fun _ _ _ ↦ trivial) (fun _ _ _ ↦ trivial) hrun
  obtain ⟨between, more, places, hbetween, hmore, hwrote, hnodup, hplaces⟩ :=
    run_reconcile (p := (l.requestTree plan, s₂)) hsound₂ (rooted_requestTree plan l) hreconcile
  rw [hgone] at hmore hbetween
  obtain ⟨hsound', hrows'⟩ := hshown ▸ quiet_nodes l.header.id _ hwrote.sound
  exact ⟨plan, s₁, hplan, hok, between, _, gone, more, places,
    ⟨hbelow, hmore, hbetween, hwrote, hnodup, hplaces⟩, hsound', hrows'⟩

end AddressPlan.Layout
