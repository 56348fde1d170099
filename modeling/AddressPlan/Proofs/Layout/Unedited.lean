import AddressPlan.Proofs.Layout.RoundTrip
import AddressPlan.Proofs.Layout.ValidatedFirst
import AddressPlan.Proofs.NodeTree.Flagged

/-!
# Updates without a change

No row is ever stored with a flag.  So a layout that is loaded and updated with the nodes that
it shows finds no node that is dirty and no root that was replaced, although the tree at hand
may be numbered anew: only the header is written.
-/

namespace AddressPlan

open Rows LawfulStore LawfulHeaders NodeTree

variable {σ τ : Type} [Store σ] [LawfulStore σ] [Store τ] {s s₀ s₁ s' : σ}

/-! ## No row is flagged -/

/-- The numbering is ahead of all rows, and none of them is flagged. -/
structure Unflagged (s : σ) : Prop where
  sound : Sound s
  modified : ∀ n ∈ rows s, n.modified = false

theorem Unflagged.of_subset (h : Unflagged s) (hsound : Sound s') (hrows : rows s' ⊆ rows s) :
    Unflagged s' :=
  ⟨hsound, fun n hn ↦ h.modified n (hrows hn)⟩

theorem keeps_unflagged_of_quiet {α : Type} {m : Step σ α} (hquiet : Step.Quiet rows Sound m) :
    Step.Keeps Unflagged m := by
  intro s hs
  obtain ⟨hsound, hrows⟩ := hquiet s hs.sound
  exact hs.of_subset hsound (hrows ▸ List.Subset.refl _)

section Histories

variable [LawfulHeaders σ]

theorem keeps_unflagged_insertNode {n : Node} (hn : n.modified = false) :
    Step.Keeps Unflagged (Store.insertNode (σ := σ) n) := by
  intro s hs
  rcases hrun : (Store.insertNode n).run s with ⟨r, s'⟩
  cases r with
  | error e =>
    obtain rfl := insertNode_refused hrun
    exact hs
  | ok id =>
    obtain ⟨hsound, hrows, -⟩ := insertNode_run hs.sound hrun
    refine ⟨hsound, fun r hr ↦ ?_⟩
    rw [hrows] at hr
    rcases List.mem_append.mp hr with hr | hr
    · exact hs.modified r hr
    · obtain rfl := List.mem_singleton.mp hr
      exact hn

theorem keeps_unflagged_deleteSubtree (d : Int) :
    Step.Keeps Unflagged (Store.deleteSubtree (σ := σ) d) := by
  intro s hs
  obtain ⟨removed, hok⟩ := deleteSubtree_carried d s
  obtain ⟨hsound, hrows, -⟩ := deleteSubtree_run hs.sound (Prod.ext hok rfl)
  exact hs.of_subset hsound (hrows ▸ List.filter_subset_self _)

/-- Whatever was done and however it ended, no row is flagged. -/
theorem Reaches.unflagged (h : Reaches s₀ s) (hstart : Unflagged s₀) : Unflagged s := by
  induction h with
  | refl => exact hstart
  | save _ l ih =>
    exact Layout.keeps_save (fun id ↦ keeps_unflagged_of_quiet (quiet_plan? id))
      (fun header ↦ keeps_unflagged_of_quiet (quiet_createLayout header))
      (fun _ hflag _ ↦ keeps_unflagged_insertNode hflag) (l, _) ih
  | load _ id ih =>
    exact Layout.keeps_load (fun id ↦ keeps_unflagged_of_quiet (quiet_header? id))
      (fun id ↦ keeps_unflagged_of_quiet (quiet_nodes id)) id _ ih
  | update _ l ih =>
    exact Layout.keeps_update (fun id ↦ keeps_unflagged_of_quiet (quiet_plan? id))
      (fun header ↦ keeps_unflagged_of_quiet (quiet_updateHeader header))
      (fun id ↦ keeps_unflagged_of_quiet (quiet_nodes id))
      (fun _ hflag ↦ keeps_unflagged_insertNode hflag) keeps_unflagged_deleteSubtree (l, _) ih
  | delete _ l ih =>
    obtain ⟨hsound, hrows, -⟩ := deleteLayout_run (σ := σ) l.header.id _
    exact ih.of_subset (hsound ih.sound) hrows.subset

theorem Blank.unflagged (h : Blank s₀) : Unflagged s₀ := by
  refine ⟨h.sound, fun n hn ↦ ?_⟩
  rw [h.rows_eq] at hn
  cases hn

end Histories

/-! ## What is left to do -/

namespace Layout

variable {plan : Plan} {l l' asked : Layout}

/-- The requests of an update that has no row to write. -/
def rewriteHeader (header : LayoutHeader) : Step τ (List Node) := do
  let _ ← Store.plan? header.planId
  Store.updateHeader header
  let _ ← Store.nodes header.id
  Store.nodes header.id

/-- Nodes that pass the check have no other root than the one of their tree. -/
theorem root?_requestTree (hok : l.nodes = [] ∨ l.dropTree.OneTree) {r : Node} (hr : r ∈ l.nodes)
    (hroot : r.isRoot = true) : (l.requestTree plan).root?.map Node.id = some r.id := by
  rcases hok with hnil | hone
  · rw [hnil] at hr
    cases hr
  · obtain ⟨root, hroots⟩ := List.length_eq_one_iff.mp hone.roots
    have hmem : r ∈ l.nodes.filter Node.isRoot := List.mem_filter.mpr ⟨hr, hroot⟩
    obtain rfl := List.mem_singleton.mp (hroots ▸ hmem)
    obtain ⟨cidr, value, hnode⟩ := (relabelled_requestTree plan l).of_node?
      (node?_build_zero (find?_isRoot_of_roots hroots))
    rw [root?_eq_node?, hnode]
    rfl

/-- Numbering changes neither ids nor flags. -/
theorem exists_node_of_requestTree {n : Node} (hn : n ∈ (l.requestTree plan).flatten) :
    ∃ m ∈ l.nodes, m.id = n.id ∧ m.modified = n.modified := by
  obtain ⟨i, hi⟩ := mem_flatten.mp hn
  obtain ⟨m, hm, heq⟩ := (relabelled_requestTree plan l).exists_node? hi
  refine ⟨m, mem_of_mem_build (mem_flatten.mpr ⟨i, hm⟩), ?_⟩
  rw [heq]
  exact ⟨rfl, rfl⟩

theorem run_deleteStaleRoots_of_kept {root : Option Int} {stored : List Node}
    (hkept : ∀ r ∈ stored, r.isRoot = true → root = some r.id) (p : Layout × τ) :
    (deleteStaleRoots root stored).run p = (.ok (stored.map Node.id), p) := by
  have hnone : (stored.filter fun n ↦ n.isRoot && some n.id != root) = [] := by
    refine List.filter_eq_nil_iff.mpr fun r hr hstale ↦ ?_
    obtain ⟨hroot, hne⟩ := Bool.and_eq_true _ _ ▸ hstale
    exact bne_iff_ne.mp hne (hkept r hr hroot).symm
  rw [deleteStaleRoots, hnone]
  rfl

/-- If the nodes are those that are stored, and none of them is flagged, then an update that is
carried out is one of the header.  This holds of whatever goes along with the store. -/
theorem run_update_of_stored {f : τ → σ} (hf : Store.Maps f) {t t' : τ} (hs : Unflagged (f t))
    (hstored : l.nodes = inOrder (ofLayout (rows (f t)) l.header.id))
    (hrun : update.run (l, t) = (.ok (), (l', t'))) :
    (rewriteHeader l.header).run t = (.ok l.nodes, t') ∧ l' = l.dropTree ∧
      rows (f t') = rows (f t) := by
  obtain ⟨plan, checked, prepared, t₁, t₂, t₃, stored, live, tally, l₄, t₄, p₅, shown, hfetch,
    hcheck, hfill, hupdate, hread, hstale, hreconcile, hshown, rfl⟩ := run_update_steps hrun
  obtain ⟨(hheader : prepared.header = l.header), htree, hok⟩ :=
    run_check_fill_eq_ok l.tree_dropTree_of_empty hcheck hfill
  rw [hheader] at hupdate hread hreconcile hshown
  have hplan := run_plan?_of_fetchPlan hfetch
  obtain ⟨hsound₁, hrows₁⟩ := (hf.plan? _).of_run hplan ▸ quiet_plan? _ (f t) hs.sound
  obtain ⟨hsound₂, hrows₂⟩ := (hf.updateHeader _).of_run hupdate ▸ quiet_updateHeader _ _ hsound₁
  -- Whenever the rows of `t` are read, the layout's own nodes are shown.
  have hshows : ∀ {u u' : τ} {nodes : List Node}, rows (f u) = rows (f t) →
      (Store.nodes l.header.id).run u = (.ok nodes, u') → nodes = l.nodes := by
    intro u u' nodes hrows hnodes
    have hnodes := (nodes_run _ _).symm.trans ((hf.nodes _).of_run hnodes)
    rw [hrows, ← hstored] at hnodes
    exact (Except.ok.inj (congrArg Prod.fst hnodes)).symm
  obtain rfl := hshows (hrows₂.trans hrows₁) hread
  obtain ⟨hsound₃, hrows₃⟩ := (hf.nodes _).of_run hread ▸ quiet_nodes _ _ hsound₂
  rw [run_deleteStaleRoots_of_kept fun r hr hroot ↦ htree ▸ root?_requestTree hok hr hroot]
    at hstale
  cases hstale
  have hclean : ∀ n ∈ (l.requestTree plan).flatten,
      n.modified = false ∧ n.id ∈ l.nodes.map Node.id := by
    intro n hn
    obtain ⟨m, hm, hid, hflag⟩ := exists_node_of_requestTree hn
    have hrow : m ∈ ofLayout (rows (f t)) l.header.id := mem_inOrder.mp (hstored ▸ hm)
    exact ⟨hflag ▸ hs.modified m (mem_ofLayout.mp hrow).1, hid ▸ List.mem_map_of_mem hm⟩
  have hnothing : (reconcile l.header.id (l.nodes.map Node.id)).run (prepared.tree, t₃) =
      (.ok {}, (prepared.tree, t₃)) :=
    htree ▸ (rooted_requestTree plan l).run_reconcile_of_clean hclean t₃
  rw [run_onTreeAndStore, tree_keepTree] at hreconcile
  dsimp only at hreconcile
  rw [hnothing] at hreconcile
  cases hreconcile
  have hrows : rows (f t₃) = rows (f t) := hrows₃.trans (hrows₂.trans hrows₁)
  obtain rfl := hshows hrows hshown
  refine ⟨?_, ?_, ?_⟩
  · rw [rewriteHeader, Step.run_bind_ok hplan, Step.run_bind_ok hupdate, Step.run_bind_ok hread]
    exact hshown
  · change (⟨prepared.header, l.nodes, none⟩ : Layout) = l.dropTree
    rw [hheader]
    rfl
  · obtain ⟨-, hrows₄⟩ := (hf.nodes _).of_run hshown ▸ quiet_nodes _ _ hsound₃
    exact hrows₄.trans hrows

/-! ## Loading and updating -/

omit [LawfulStore σ] in
/-- Rewriting the header is one write, and nothing of it was refused. -/
theorem writes_rewriteHeader {header : LayoutHeader} {w w' : Watched σ} {nodes : List Node}
    (hrun : (rewriteHeader header).run w = (.ok nodes, w')) :
    w'.writes = w.writes + 1 ∧ w'.refusals = w.refusals := by
  simp only [rewriteHeader, Step.run_bind_eq_ok_iff] at hrun
  obtain ⟨plan, w₁, hplan, _, w₂, hheader, before, w₃, hbefore, hafter⟩ := hrun
  obtain ⟨hwrites₁, hrefusals₁⟩ := Watched.run_watch_eq_ok hplan
  obtain ⟨hwrites₂, hrefusals₂⟩ := Watched.run_watch_eq_ok hheader
  obtain ⟨hwrites₃, hrefusals₃⟩ := Watched.run_watch_eq_ok hbefore
  obtain ⟨hwrites₄, hrefusals₄⟩ := Watched.run_watch_eq_ok hafter
  exact ⟨by omega, by rw [hrefusals₄, hrefusals₃, hrefusals₂, hrefusals₁]⟩

variable [LawfulHeaders σ]

theorem run_load_eq_ok {id : Int} (hs : Sound s) (hrun : (load id).run s = (.ok l, s₁)) :
    l.header.id = id ∧ l.nodes = inOrder (ofLayout (rows s) id) ∧ Sound s₁ ∧
      rows s₁ = rows s := by
  obtain ⟨header, s₂, nodes, hfound, hnodes, rfl⟩ := run_load_steps hrun
  obtain ⟨hsound₂, hrows₂⟩ := hfound ▸ quiet_header? id s hs
  obtain ⟨hsound₁, hrows₁⟩ := hnodes ▸ quiet_nodes id s₂ hsound₂
  have hheader := (header?_run id s).symm.trans hfound
  have hshown := (nodes_run id s₂).symm.trans hnodes
  have hfirst : (headers s).find? (·.id == id) = some header :=
    Except.ok.inj (congrArg Prod.fst hheader)
  have hread : inOrder (ofLayout (rows s₂) id) = nodes :=
    Except.ok.inj (congrArg Prod.fst hshown)
  have hid := List.find?_some hfirst
  refine ⟨beq_iff_eq.mp hid, ?_, hsound₁, hrows₁.trans hrows₂⟩
  rw [← hread, hrows₂]

/-- Whatever was saved, loaded, updated and deleted before, a layout that is loaded and updated
with the same nodes, whatever its new name and flags, has its header written and nothing else:
no row of any layout is touched, and the layout shows the nodes that were loaded.  A watched
store carries out the same requests, one of which is a write, and refuses none. -/
theorem update_unedited (hstart : Blank s₀) (hs : Reaches s₀ s) {id : Int}
    (hload : (load id).run s = (.ok l, s₁)) (hid : asked.header.id = l.header.id)
    (hnodes : asked.nodes = l.nodes) (hrun : update.run (asked, s₁) = (.ok (), (l', s'))) :
    rows s' = rows s ∧ l' = ⟨asked.header, l.nodes, none⟩ ∧
      (rewriteHeader asked.header).run s₁ = (.ok l.nodes, s') ∧
      ∀ w : Watched σ, w.store = s₁ → ∃ w', update.run (asked, w) = (.ok (), (l', w')) ∧
        (rewriteHeader asked.header).run w = (.ok l.nodes, w') ∧ w'.store = s' ∧
        w'.writes = w.writes + 1 ∧ w'.refusals = w.refusals := by
  have hflags := hs.unflagged hstart.unflagged
  obtain ⟨hlayout, hshown, hsound, hrows⟩ := run_load_eq_ok hflags.sound hload
  have hloaded : Unflagged s₁ := hflags.of_subset hsound (hrows ▸ List.Subset.refl _)
  have hstored : asked.nodes = inOrder (ofLayout (rows s₁) asked.header.id) := by
    rw [hnodes, hshown, hrows, hid, hlayout]
  obtain ⟨hheader, hlast, hkept⟩ := run_update_of_stored Store.Maps.id hloaded hstored hrun
  rw [hnodes] at hheader
  refine ⟨hkept.trans hrows, ?_, hheader, ?_⟩
  · rw [hlast, dropTree, hnodes]
  · rintro w rfl
    have hwatched := maps_update Watched.maps_store (asked, w)
    rcases hw : update.run (asked, w) with ⟨r, l₁, w'⟩
    rw [hw, Prod.map_apply, id_eq, hrun] at hwatched
    cases hwatched
    obtain ⟨hheader', -, -⟩ := run_update_of_stored Watched.maps_store hloaded hstored hw
    rw [hnodes] at hheader'
    obtain ⟨hwrites, hrefusals⟩ := writes_rewriteHeader hheader'
    exact ⟨w', rfl, hheader', rfl, hwrites, hrefusals⟩

/-! A sibling was put in front of the others, which kept their rows.  Updating the layout again
numbers it through in memory. -/

def storedRegions : Recording :=
  (save.run (.ofRequest 1 shuffled, { plans := [regionPlan] })).2.2

def regionsHeader : LayoutHeader where
  id := 1
  planId := 1
  name := "regions"
  autoFill := true
  firstFinished := false

def northAdded : Layout where
  header := regionsHeader
  nodes := [{ id := 2, name := "root" },
    { id := 3, parentId := 2, name := "west", sequence := 1, bitWidth := 4 },
    { id := 4, parentId := 2, name := "east", sequence := 1, bitWidth := 4 },
    { id := 5, parentId := 3, name := "rack", sequence := 5, bitWidth := 2 },
    { parentId := 2, name := "north", bitWidth := 4 }]

def storedNorth : Recording :=
  (update.run (northAdded, storedRegions)).2.2

theorem reaches_storedRegions : Reaches ({ plans := [regionPlan] } : Recording) storedRegions :=
  Reaches.refl.save _

theorem reaches_storedNorth : Reaches ({ plans := [regionPlan] } : Recording) storedNorth :=
  reaches_storedRegions.update _

def loadedNorth : Layout where
  header := regionsHeader
  nodes := inOrder (ofLayout storedNorth.nodes 1)

def renamedNorth : Layout where
  header := { regionsHeader with name := "areas" }
  nodes := loadedNorth.nodes

/-- The numbers that the update gives in memory are not those of the rows, and none of them is
written. -/
theorem update_unedited_north :
    ∃ s₁ l' s', (load 1).run storedNorth = (.ok loadedNorth, s₁) ∧
      update.run (renamedNorth, s₁) = (.ok (), (l', s')) ∧
      (renamedNorth.requestTree regionPlan).flatten.map (fun n ↦ (n.name, n.value)) =
        [("root", 0), ("north", 1), ("west", 2), ("east", 3), ("rack", 1)] ∧
      l'.nodes.map (fun n ↦ (n.name, n.value)) =
        [("root", 0), ("north", 1), ("west", 1), ("east", 2), ("rack", 1)] ∧
      rows s' = rows storedNorth ∧ l' = ⟨renamedNorth.header, loadedNorth.nodes, none⟩ ∧
      ∃ w', update.run (renamedNorth, (⟨s₁, 0, []⟩ : Watched Recording)) = (.ok (), (l', w')) ∧
        w'.store = s' ∧ w'.writes = 1 ∧ w'.refusals = [] := by
  have hload := Step.run_eq_mk_of_fst (r := .ok loadedNorth) (m := load (σ := Recording) 1)
    (s := storedNorth) (by decide +kernel)
  have hrun := Step.run_eq_ok_of_fst (a := ()) (m := update (σ := Recording))
    (p := (renamedNorth, ((load 1).run storedNorth).2)) (by decide +kernel)
  generalize ((load 1).run storedNorth).2 = s₁ at hload hrun
  obtain ⟨hrows, hshown, -, hwatched⟩ := update_unedited (Recording.blank_of_plans _)
    reaches_storedNorth hload (by rw [renamedNorth, loadedNorth]) (by rw [renamedNorth]) hrun
  obtain ⟨w', hw', -, hstore, hwrites, hrefusals⟩ := hwatched ⟨s₁, 0, []⟩ rfl
  refine ⟨_, _, _, hload, hrun, ?_, ?_, hrows, hshown, w', hw', hstore, hwrites, hrefusals⟩
  · decide +kernel
  · rw [hshown]
    decide +kernel

end Layout

end AddressPlan
