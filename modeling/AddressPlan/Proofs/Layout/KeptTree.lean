import AddressPlan.Proofs.Layout.Retry
import AddressPlan.Proofs.Layout.RoundTrip
import AddressPlan.Report.ByFamily

/-!
# Trees that are kept too long

A layout keeps its tree when its nodes are changed, and the check compares nothing of the two but
their numbers.  What is validated and saved is the tree: it comes out like the nodes exactly if
it shows them up to their stamps and to what is numbered anew.
-/

namespace AddressPlan

open List Rows LawfulStore LawfulHeaders Step NodeTree

/-! ## Trees with the same rows -/

theorem Node.Restamped.symm {n n' : Node} (h : n.Restamped n') : n'.Restamped n := by
  rw [Restamped, h]

namespace NodeTree.ListedAs

variable {t t' : NodeTree} {layoutId layoutId' : Int} {nodes : List Node}

theorem exists_row (h : t.ListedAs layoutId nodes) {i : Nat} (hi : i < t.size) :
    ∃ m, nodes[i]? = some m :=
  ⟨_, List.getElem?_eq_getElem (h.length ▸ hi)⟩

theorem size_eq (h : t.ListedAs layoutId nodes) (h' : t'.ListedAs layoutId' nodes) :
    t'.size = t.size :=
  h'.length.symm.trans h.length

/-- A row names its parent by the id, which no other row has. -/
theorem parent?_of_listedAs (h : t.ListedAs layoutId nodes) (h' : t'.ListedAs layoutId' nodes)
    (ht : t.Rooted) (ht' : t'.Rooted) {i p : Nat} (hp : t.parent? i = some p) :
    t'.parent? i = some p := by
  have hi := lt_size_of_parent? hp
  have hpi := ht.lt_of_parent? hp
  obtain ⟨q, hqi, hq⟩ := ht'.parent i (Nat.zero_lt_of_lt hpi) (h.size_eq h' ▸ hi)
  obtain ⟨m, hm⟩ := h.exists_row hi
  obtain ⟨a, ha⟩ := h.exists_row (Nat.lt_trans hpi hi)
  obtain ⟨b, hb⟩ := h.exists_row (Nat.lt_trans hqi hi)
  have hid : a.id = b.id := (h.parent i p m a hp hm ha).symm.trans (h'.parent i q m b hq hm hb)
  have hnodup : (nodes.map Node.id).Nodup := h.ascending.imp Int.ne_of_lt
  have hplace : (nodes.map Node.id)[p]? = (nodes.map Node.id)[q]? := by
    rw [List.getElem?_map, List.getElem?_map, ha, hb, Option.map_some, Option.map_some, hid]
  have hlt : p < (nodes.map Node.id).length := by
    rw [List.length_map, h.length]
    omega
  rwa [(List.getElem?_inj hlt hnodup).mp hplace]

/-- The nodes of a tree can be told from its rows up to their stamps, and its shape from the ids
of the parents. -/
theorem related (h : t.ListedAs layoutId nodes) (h' : t'.ListedAs layoutId' nodes) (ht : t.Rooted)
    (ht' : t'.Rooted) : t.Related Node.Restamped t' := by
  refine .of_places (fun i ↦ Option.ext fun p ↦ ⟨h'.parent?_of_listedAs h ht' ht,
    h.parent?_of_listedAs h' ht ht'⟩) fun i ↦ ?_
  by_cases hi : i < t.size
  · obtain ⟨n, hn⟩ := lt_size_iff.mp hi
    obtain ⟨n', hn'⟩ := lt_size_iff.mp (h.size_eq h' ▸ hi)
    obtain ⟨id, parentId, hrow⟩ := h.node i n hn
    obtain ⟨id', parentId', hrow'⟩ := h'.node i n' hn'
    rw [hn, hn']
    refine .some ?_
    have hsame := Option.some.inj (hrow.symm.trans hrow')
    simp only [Node.mk.injEq] at hsame
    obtain ⟨-, -, -, hname, hcidr, hsequence, hwidth, hvalue, hliterals, -⟩ := hsame
    rw [Node.Restamped, hname, hcidr, hsequence, hwidth, hvalue, hliterals]
  · rw [node?_eq_none hi, node?_eq_none fun hi' ↦ hi (h.size_eq h' ▸ hi')]
    exact .none

end NodeTree.ListedAs

namespace Layout

variable {plan : Plan} {l l' : Layout}

/-! ## Layouts at hand -/

/-- The report of a layout, which keeps the tree. -/
def reported (plan : Plan) (family : Family) : Step Layout (List Report.Row) := do
  Step.modify keepTree
  let l ← Step.get
  Step.ofExcept (Report.rows plan l.tree family)

/-- What comes of a layout that is new or was loaded and then looked at, checked, reported on and
given other nodes, directly or by a request, in any order. -/
inductive Handled : Layout → Prop where
  | new (planId : Int) (r : LayoutRequest) : Handled (.ofRequest planId r)
  | load {σ : Type} [Store σ] {s s' : σ} {id : Int} {l : Layout}
    (run : (Layout.load id).run s = (.ok l, s')) : Handled l
  | apply {l : Layout} (h : Handled l) (r : LayoutRequest) : Handled (l.apply r)
  | nodeTree {l : Layout} (h : Handled l) : Handled l.keepTree
  | validate {l : Layout} (h : Handled l) (plan : Plan) : Handled ((check plan).run l).2
  | report {l : Layout} (h : Handled l) (plan : Plan) (family : Family) :
    Handled ((reported plan family).run l).2
  | edit {l : Layout} (h : Handled l) (nodes : List Node) : Handled { l with nodes }

/-- If a tree is kept, it was built from some nodes. -/
def KeepsBuilt (l : Layout) : Prop :=
  ∀ t, l.kept = some t → ∃ shown, t = build shown

theorem KeepsBuilt.exists_shown (h : KeepsBuilt l) : ∃ shown, l.tree = build shown := by
  cases hkept : l.kept with
  | none => exact ⟨l.nodes, by rw [tree, hkept]; rfl⟩
  | some t =>
    obtain ⟨shown, rfl⟩ := h t hkept
    exact ⟨shown, by rw [tree, hkept]; rfl⟩

theorem KeepsBuilt.keepTree (h : KeepsBuilt l) : KeepsBuilt l.keepTree := by
  rintro t ⟨⟩
  exact h.exists_shown

theorem keepsBuilt_of_none (h : l.kept = none) : KeepsBuilt l := by
  intro t ht
  cases h.symm.trans ht

theorem Handled.keepsBuilt (h : Handled l) : KeepsBuilt l := by
  induction h with
  | new planId r => exact keepsBuilt_of_none rfl
  | load run =>
    obtain ⟨header, s₁, nodes, -, -, rfl⟩ := run_load_steps run
    exact keepsBuilt_of_none rfl
  | apply _ r _ => exact keepsBuilt_of_none rfl
  | nodeTree _ ih => exact ih.keepTree
  | @validate l _ plan ih => exact keeps_check (fun _ h ↦ h.keepTree) plan l ih
  | report _ plan family ih => exact ih.keepTree
  | edit _ nodes ih => exact ih

/-! ## Saving what a layout shows -/

/-- The tree at hand comes out like one of the nodes, up to the stamps. -/
def ShowsNodes (plan : Plan) (l : Layout) : Prop :=
  (l.dropTree.numberedTree plan).Related Node.Restamped (l.numberedTree plan)

theorem showsNodes_of_tree_eq (h : l.tree = build l.nodes) (plan : Plan) : ShowsNodes plan l := by
  have hsame : l.numberedTree plan = l.dropTree.numberedTree plan := by
    rw [numberedTree, numberedTree, tree_dropTree, h]
    rfl
  rw [ShowsNodes, hsame]
  exact .refl Node.Restamped.refl _

theorem ShowsNodes.alike (h : ShowsNodes plan l) : l.dropTree.tree.Related Node.Alike l.tree := by
  have hnumbered := (alike_numberedTree plan l.dropTree).trans h.alike_of_restamped
    fun _ _ _ ↦ Node.Alike.trans
  have hback := (alike_numberedTree plan l).symm fun _ _ ↦ Node.Alike.symm
  exact hnumbered.trans hback fun _ _ _ ↦ Node.Alike.trans

theorem ShowsNodes.ready (h : ShowsNodes plan l) (hbuilt : KeepsBuilt l) : l.Ready := by
  obtain ⟨shown, htree⟩ := hbuilt.exists_shown
  exact ⟨htree ▸ build_rooted shown, htree ▸ build_linked shown,
    fun hnil ↦ h.alike.eq_empty (l.tree_dropTree_of_empty hnil)⟩

variable {σ : Type} [Store σ] {s s' : σ}

/-- Saving both layouts comes to the same. -/
structure SavesAlike (l l' : Layout) (s : σ) : Prop where
  result : (save.run (l', s)).1 = (save.run (l, s)).1
  store : (save.run (l', s)).2.2 = (save.run (l, s)).2.2
  nodes : (save.run (l', s)).2.1.nodes = (save.run (l, s)).2.1.nodes

/-- A layout that shows its nodes is saved like a copy without a tree. -/
theorem ShowsNodes.savesAlike [NumbersHeaders σ] (h : ShowsNodes plan l) (hbuilt : KeepsBuilt l)
    (hshows : Shows l.header.planId plan s) : SavesAlike l.dropTree l s := by
  -- Both are saved like the layout with the tree that is to be written.
  have hdropped : Leftover plan l.dropTree { l with kept := some (l.numberedTree plan) } :=
    ⟨rfl, rfl, Or.inr h, Or.inl rfl⟩
  have hkept : Leftover plan l { l with kept := some (l.numberedTree plan) } :=
    ⟨rfl, rfl, Or.inr (.refl Node.Restamped.refl _), Or.inl rfl⟩
  have hsame := hdropped.sameEnd (ready_of_kept_none rfl) hshows
  have hsame' := hkept.sameEnd (h.ready hbuilt) hshows
  exact ⟨hsame'.result.symm.trans hsame.result, hsame'.store.symm.trans hsame.store,
    hsame'.nodes.symm.trans hsame.nodes⟩

/-! ## Telling the tree from what was saved -/

/-- What is saved without a node had no node in its tree. -/
theorem tree_eq_empty_of_save (hrun : save.run (l, s) = (.ok (), (l', s'))) (hnil : l'.nodes = []) :
    l.tree = {} := by
  obtain ⟨plan, checked, prepared, s₁, id, s₂, tally, -, hcheck, hfill, -, hpersist, -, hnodes⟩ :=
    run_save_steps hrun
  obtain ⟨-, -, htree, -⟩ := run_check_eq_ok hcheck
  have halike : l.tree.Related Node.Alike prepared.tree := by
    rw [← htree]
    rcases run_fill_snd plan checked with hsame | hnumbered
    · rw [hfill] at hsame
      have hprepared : prepared = checked := hsame
      rw [hprepared]
      exact .refl (fun _ ↦ ⟨rfl, rfl, rfl⟩) _
    · rw [hfill] at hnumbered
      have hprepared : prepared.tree = checked.numberedTree plan := congrArg tree hnumbered
      rw [hprepared]
      exact alike_numberedTree plan checked
  have hstamps := (keeps_restamped_persistAll prepared.tree id).of_run
    (.refl Node.Restamped.refl _) hpersist
  have hnone : l'.tree = {} := congrArg NodeTree.mk (List.map_eq_nil_iff.mp (hnodes ▸ hnil))
  have hprepared := (hstamps.symm fun _ _ ↦ Node.Restamped.symm).eq_empty hnone
  exact (halike.symm fun _ _ ↦ Node.Alike.symm).eq_empty hprepared

variable [LawfulStore σ] [LawfulHeaders σ]

theorem listedAs_of_save (hs : Sound s) (hready : l.Ready)
    (hplan : ((Store.plan? l.header.planId).run s).1 = .ok (some plan))
    (hrun : save.run (l, s) = (.ok (), (l', s'))) :
    (l.numberedTree plan).ListedAs l'.header.id l'.nodes := by
  obtain ⟨found, checked, prepared, s₁, id, s₂, tally, hfetch, hcheck, hfill, hcreate, hpersist,
    hheader, hnodes⟩ := run_save_steps hrun
  obtain ⟨hfound, hsound₁, -⟩ := run_fetchPlan_eq_ok hs hfetch
  cases (congrArg Prod.fst hfound).symm.trans hplan
  obtain ⟨-, hnumbered, -⟩ := run_check_fill_eq_ok hready.empty hcheck hfill
  obtain ⟨hsound₂, -⟩ := hcreate ▸ quiet_createLayout prepared.header _ hsound₁
  rw [hnumbered] at hpersist
  have ht := (relabelled_numberedTree plan l).sameShape.rooted hready.rooted
  obtain ⟨-, -, hgrow⟩ := ascending_of_persistAll hsound₂ ht hpersist
  have hwrote := wrote_persistAll (p := (l.numberedTree plan, s₂)) hsound₂ ht hpersist
  rw [hheader, hnodes]
  exact listedAs_of_wrote ht hwrote hgrow

/-- If the tree at hand is saved to the rows of the nodes, then it shows them. -/
theorem showsNodes_of_save (hbuilt : KeepsBuilt l) (hs : Sound s)
    (hplan : ((Store.plan? l.header.planId).run s).1 = .ok (some plan))
    (hcopy : (save.run (l.dropTree, s)).1 = .ok ()) (hsaved : (save.run (l, s)).1 = .ok ())
    (hsame : (save.run (l, s)).2.1.nodes = (save.run (l.dropTree, s)).2.1.nodes) :
    ShowsNodes plan l := by
  have hrun := run_eq_ok_of_fst hcopy
  have hrun' := run_eq_ok_of_fst hsaved
  have hready : l.dropTree.Ready := ready_of_kept_none rfl
  have hlisted := listedAs_of_save hs hready hplan hrun
  obtain ⟨shown, htree⟩ := hbuilt.exists_shown
  have hready' : l.Ready := by
    refine ⟨htree ▸ build_rooted shown, htree ▸ build_linked shown, fun hnil ↦ ?_⟩
    have hempty := l.tree_dropTree_of_empty hnil
    have hnumbered : (l.dropTree.numberedTree plan).size = 0 := by
      rw [numberedTree_of_empty hempty, hempty]
      rfl
    have hnone := List.eq_nil_of_length_eq_zero (hlisted.length.trans hnumbered)
    exact tree_eq_empty_of_save hrun' (hsame.trans hnone)
  have hlisted' := listedAs_of_save hs hready' hplan hrun'
  rw [hsame] at hlisted'
  exact hlisted.related hlisted' ((relabelled_numberedTree plan _).sameShape.rooted hready.rooted)
    ((relabelled_numberedTree plan _).sameShape.rooted hready'.rooted)

/-- However a layout was handled, it is validated and saved like a copy without a tree if the tree
that it keeps comes out like that of its nodes, up to ids and flags, as it does if it was built
from them.  Whenever the copy can be saved, this is the only way to the same nodes. -/
theorem saved_like_copy_iff [NumbersHeaders σ] (h : Handled l) (hs : Sound s)
    (hplan : ((Store.plan? l.header.planId).run s).1 = .ok (some plan)) :
    (l.tree = build l.nodes → ShowsNodes plan l) ∧
    (ShowsNodes plan l →
      (∀ plan', ((check plan').run l).1 = ((check plan').run l.dropTree).1) ∧
      SavesAlike l.dropTree l s) ∧
    ((save.run (l.dropTree, s)).1 = .ok () → (ShowsNodes plan l ↔ (save.run (l, s)).1 = .ok () ∧
      (save.run (l, s)).2.1.nodes = (save.run (l.dropTree, s)).2.1.nodes)) := by
  have hshown : Shows l.header.planId plan s := ⟨plan, hplan, rfl, rfl⟩
  refine ⟨fun htree ↦ showsNodes_of_tree_eq htree plan, ?_, fun hcopy ↦ ⟨?_, ?_⟩⟩
  · intro hshows
    exact ⟨fun plan' ↦ run_check_fst_congr (l := l.dropTree) rfl rfl hshows.alike,
      hshows.savesAlike h.keepsBuilt hshown⟩
  · intro hshows
    have halike := hshows.savesAlike h.keepsBuilt hshown
    exact ⟨halike.result.trans hcopy, halike.nodes⟩
  · rintro ⟨hsaved, hsame⟩
    exact showsNodes_of_save h.keepsBuilt hs hplan hcopy hsaved hsame

/-! The tree of a layout is looked at, and then its hall is given another block or is flagged. -/

def hallLayout (hall : Node) : Layout :=
  .ofRequest 1 { name := "campus", nodes := [{ id := 1, name := "root" }, hall] }

def campusHall : Node where
  id := 2
  parentId := 1
  name := "hall"
  literals := "10.1.0.0/16"

def shownHall (hall : Node) : Layout :=
  { (hallLayout campusHall).keepTree with nodes := (hallLayout hall).nodes }

theorem handled_shownHall (hall : Node) : Handled (shownHall hall) :=
  .edit (.nodeTree (.new 1 _)) _

def campusPlan : Plan where
  id := 1
  cidr := "10.0.0.0/8"
  maskLength := 24

def onCampus : Recording where
  plans := [campusPlan]

/-- A flag is not told from the tree, so that the flagged hall is saved like the other. -/
theorem saved_like_copy_iff_flagged :
    let l := shownHall { campusHall with modified := true }
    l.tree ≠ build l.nodes ∧ SavesAlike l.dropTree l onCampus ∧
      (save.run (l, onCampus)).1 = .ok () ∧
      (save.run (l, onCampus)).2.1.nodes.map Node.literals = ["", "10.1.0.0/16"] := by
  intro l
  have hplan : ((Store.plan? 1).run onCampus).1 = .ok (some campusPlan) := rfl
  obtain ⟨-, hsaves, hsame⟩ := saved_like_copy_iff (s := onCampus) (handled_shownHall _)
    (Recording.blank_of_plans _).sound hplan
  have hcopy : (save.run (l.dropTree, onCampus)).1 = .ok () := by decide +kernel
  have hshows := (hsame hcopy).mpr ⟨by decide +kernel, by decide +kernel⟩
  exact ⟨by decide +kernel, (hsaves hshows).2, ((hsame hcopy).mp hshows).1, by decide +kernel⟩

/-- The hall is saved where it was and not where it is, and an invalid block of it is not seen. -/
theorem save_shownHall_outdated :
    (∃ hall, Handled (shownHall hall) ∧ (save.run (shownHall hall, onCampus)).1 = .ok () ∧
      (save.run ((shownHall hall).dropTree, onCampus)).1 = .ok () ∧
      hall.literals = "10.2.0.0/16" ∧
      (save.run (shownHall hall, onCampus)).2.1.nodes.map Node.literals = ["", "10.1.0.0/16"] ∧
      (rows (save.run (shownHall hall, onCampus)).2.2).map Node.literals = ["", "10.1.0.0/16"] ∧
      (save.run ((shownHall hall).dropTree, onCampus)).2.1.nodes.map Node.literals =
        ["", "10.2.0.0/16"] ∧
      (rows (save.run ((shownHall hall).dropTree, onCampus)).2.2).map Node.literals =
        ["", "10.2.0.0/16"]) ∧
    ∃ hall, Handled (shownHall hall) ∧ ((check campusPlan).run (shownHall hall)).1 = .ok () ∧
      ((check campusPlan).run (shownHall hall).dropTree).1 ≠ .ok () := by
  refine ⟨⟨{ campusHall with literals := "10.2.0.0/16" }, handled_shownHall _, ?_⟩,
    { campusHall with literals := "10.2.0.0/8" }, handled_shownHall _, ?_⟩
  · decide +kernel
  · decide +kernel

end Layout

end AddressPlan
