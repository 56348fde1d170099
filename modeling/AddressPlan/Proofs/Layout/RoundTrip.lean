import AddressPlan.Proofs.Layout.Validity
import AddressPlan.Proofs.NodeTree.Rebuild
import AddressPlan.Proofs.Store.Filed

/-!
# What is saved is loaded again

The rows of a new layout come in breadth-first order under ids that grow.  Their layout is
new, so they are all that is stored for it, and the tree that is built from them is the one
that was saved.
-/

namespace AddressPlan

open Rows LawfulStore LawfulHeaders NodeTree

namespace NodeTree

variable {t t' : NodeTree}

/-- Breadth-first order can be told from the parents and the sequence numbers. -/
theorem BreadthFirst.of_places (h : t.BreadthFirst) (hparent : ∀ i, t'.parent? i = t.parent? i)
    (hsequence : ∀ i m, t'.node? i = some m → ∃ n, t.node? i = some n ∧ n.sequence = m.sequence) :
    t'.BreadthFirst := by
  have hslot : ∀ (i : Nat) (s' : Slot), t'.slots[i]? = some s' → ∃ s, t.slots[i]? = some s ∧
      s.rank = s'.rank ∧ s.node.sequence = s'.node.sequence := by
    intro i s' hs'
    obtain ⟨n, hn, heq⟩ := hsequence i s'.node (node?_eq_some_iff.mpr ⟨s', hs', rfl⟩)
    obtain ⟨s, hs, rfl⟩ := node?_eq_some_iff.mp hn
    have hup := hparent i
    rw [parent?, parent?, hs, hs', Option.bind_some, Option.bind_some] at hup
    exact ⟨s, hs, by rw [Slot.rank, Slot.rank, hup], heq⟩
  refine List.pairwise_iff_getElem.mpr fun i j hi hj hlt ↦ ?_
  obtain ⟨s, hs, hrank, hseq⟩ := hslot i _ (List.getElem?_eq_some_iff.mpr ⟨hi, rfl⟩)
  obtain ⟨r, hr, hrank', hseq'⟩ := hslot j _ (List.getElem?_eq_some_iff.mpr ⟨hj, rfl⟩)
  obtain ⟨hi', rfl⟩ := List.getElem?_eq_some_iff.mp hs
  obtain ⟨hj', rfl⟩ := List.getElem?_eq_some_iff.mp hr
  have hprecedes := List.pairwise_iff_getElem.mp h i j hi' hj' hlt
  rwa [Slot.Precedes, hrank, hrank', hseq, hseq'] at hprecedes

/-- The rows show the nodes of the tree in breadth-first order, as rows of a layout with ids
that grow. -/
structure ListedAs (t : NodeTree) (layoutId : Int) (nodes : List Node) : Prop where
  length : nodes.length = t.size
  node : ∀ i n, t.node? i = some n → ∃ id parentId,
    nodes[i]? = some { n with id, parentId, layoutId, modified := false }
  top : ∀ m, nodes[0]? = some m → m.parentId = 0
  parent : ∀ i p m q, t.parent? i = some p → nodes[i]? = some m → nodes[p]? = some q →
    m.parentId = q.id
  ascending : (nodes.map Node.id).Pairwise (· < ·)

end NodeTree

variable {σ : Type} [Store σ] [LawfulStore σ] [LawfulHeaders σ] {s₀ s s' : σ} {l l' : Layout}

/-! ## Rows under growing ids -/

/-- The new rows are the old ones and then some under larger ids, which grow. -/
def Ascended (old new : List Node) (bound : Int) : Prop :=
  ∃ added, new = old ++ added ∧ (∀ n ∈ added, bound < n.id) ∧
    added.Pairwise fun n m ↦ n.id < m.id

theorem keeps_ascended_insertNode {old : List Node} {bound : Int} {n : Node} (hn : n.id = 0) :
    Step.Keeps (fun s : σ ↦ Sound s ∧ bound ≤ (last s).2 ∧ Ascended old (rows s) bound)
      (Store.insertNode n) := by
  rintro s ⟨hs, hbound, added, hrows, hlarge, hgrow⟩
  obtain ⟨-, hlast⟩ := steady_insertNode n s
  rcases hrun : (Store.insertNode n).run s with ⟨r, s'⟩
  rw [hrun] at hlast
  cases r with
  | error e =>
    obtain rfl := insertNode_refused hrun
    exact ⟨hs, hbound, added, hrows, hlarge, hgrow⟩
  | ok id =>
    obtain ⟨hsound, hrows', -⟩ := insertNode_run hs hrun
    have hfresh := insertNode_fresh hs hrun (Int.le_of_eq hn)
    refine ⟨hsound, Int.le_trans hbound hlast.2, added ++ [{ n with id }], ?_, fun m hm ↦ ?_, ?_⟩
    · rw [hrows', hrows, List.append_assoc]
    · rcases List.mem_append.mp hm with hm | hm
      · exact hlarge m hm
      · obtain rfl := List.mem_singleton.mp hm
        exact Int.lt_of_le_of_lt hbound hfresh
    · refine List.pairwise_append.mpr ⟨hgrow, List.pairwise_singleton _ _, fun m hm m' hm' ↦ ?_⟩
      obtain rfl := List.mem_singleton.mp hm'
      have hle := LawfulHeaders.rows_le hs m (hrows ▸ List.mem_append_right _ hm)
      exact Int.lt_of_le_of_lt hle hfresh

/-- The rows of a tree that is written for the first time get growing ids. -/
theorem ascending_of_persistAll {layoutId : Int} {t t' : NodeTree} {tally : Tally}
    (hs : Sound s) (ht : t.Rooted)
    (hrun : (persistAll layoutId).run (t, s) = (.ok tally, (t', s'))) :
    rows s' = rows s ++ t'.flatten ∧ (∀ n ∈ t'.flatten, (last s).2 < n.id) ∧
      (t'.flatten.map Node.id).Pairwise (· < ·) := by
  have hwrote := wrote_persistAll (p := (t, s)) hs ht hrun
  have hkeeps : Step.Keeps (fun p : NodeTree × σ ↦ Sound p.2 ∧ (last s).2 ≤ (last p.2).2 ∧
      Ascended (rows s) (rows p.2) (last s).2) (persistAll layoutId) :=
    keeps_persistAll fun n _ _ hn ↦ keeps_ascended_insertNode hn
  have hkept := hkeeps (t, s) ⟨hs, Int.le_refl _, [], (List.append_nil _).symm,
    fun _ hn ↦ absurd hn List.not_mem_nil, List.Pairwise.nil⟩
  rw [hrun] at hkept
  obtain ⟨-, -, added, hrows, hlarge, hgrow⟩ := hkept
  have hwritten := hwrote.rows_eq
  rw [ht.placesBelow_zero, ← hwrote.sameShape.size_eq, filterMap_node?_range] at hwritten
  obtain rfl : added = t'.flatten := List.append_cancel_left (hrows.symm.trans hwritten)
  exact ⟨hrows, hlarge, List.pairwise_map.mpr hgrow⟩

theorem headers_of_persistAll {layoutId : Int} {t t' : NodeTree} {tally : Tally}
    (hrun : (persistAll layoutId).run (t, s) = (.ok tally, (t', s'))) : headers s' = headers s := by
  have hkeeps : Step.Keeps (fun p : NodeTree × σ ↦ headers p.2 = headers s)
      (persistAll layoutId) :=
    keeps_persistAll (Q := fun s' : σ ↦ headers s' = headers s) fun n _ _ _ s₁ h₁ ↦
      (steady_insertNode n s₁).1.trans h₁
  have hkept := hkeeps (t, s) rfl
  rwa [hrun] at hkept

/-! ## Saving and loading -/

namespace Layout

/-- Loading shows the header that is found and the rows of its layout, by sequence and then by
id. -/
theorem run_load_of_found {id : Int} {header : LayoutHeader} (hs : Sound s)
    (hfound : (headers s).find? (·.id == id) = some header) :
    ((load id).run s).1 = .ok { header, nodes := inOrder (ofLayout (rows s) id) } := by
  have hheader := header?_run id s
  obtain ⟨-, hrows⟩ := quiet_header? id s hs
  rw [hfound] at hheader
  rw [load, Step.run_bind_ok hheader]
  dsimp only
  rw [Step.run_bind_ok (nodes_run id _), hrows]
  rfl

omit [LawfulHeaders σ] in
/-- What the rows of a written tree show. -/
theorem listedAs_of_wrote {layoutId : Int} {t t' : NodeTree} (ht : t.Rooted)
    (h : Wrote layoutId (t, s) (t', s') (t.placesBelow 0))
    (hids : (t'.flatten.map Node.id).Pairwise (· < ·)) : t.ListedAs layoutId t'.flatten where
  length := by
    rw [flatten, List.length_map]
    exact h.sameShape.size_eq
  node := fun i n hn ↦ by
    have hi : i ∈ t.placesBelow 0 := ht.mem_placesBelow_zero.mpr (lt_size_iff.mpr ⟨n, hn⟩)
    obtain ⟨m, id, hm, hm'⟩ := h.written i hi
    cases hm.symm.trans hn
    exact ⟨id, _, (getElem?_flatten t' i).trans hm'⟩
  top := fun m hm ↦ by
    rw [getElem?_flatten] at hm
    have hi : 0 < t'.size := lt_size_iff.mpr ⟨m, hm⟩
    obtain ⟨n, id, -, hm'⟩ := h.written 0
      (ht.mem_placesBelow_zero.mpr (h.sameShape.size_eq ▸ hi))
    cases hm.symm.trans hm'
    exact parentIdAt_of_none ((h.parent? 0).trans ht.top)
  parent := fun i p m q hp hm hq ↦ by
    rw [getElem?_flatten] at hm hq
    have hi : i ∈ t.placesBelow 0 := ht.mem_placesBelow_zero.mpr (lt_size_of_parent? hp)
    obtain ⟨n, id, -, hm'⟩ := h.written i hi
    cases hm.symm.trans hm'
    change t'.parentIdAt i = q.id
    rw [parentIdAt_of_some ((h.parent? i).trans hp), hq]
    rfl
  ascending := hids

/-- Before its rows are written the header of the layout is stored, and its layout has none. -/
theorem exists_headed_of_save (hs : FiledTo (last s) s) (hready : l.Ready)
    (hrun : save.run (l, s) = (.ok (), (l', s'))) :
    ∃ plan s₁ s₂ tally, (Store.plan? l.header.planId).run s = (.ok (some plan), s₁) ∧
      Sound s₂ ∧ (last s).2 ≤ (last s₂).2 ∧ headers s₂ = headers s ++ [l'.header] ∧
      (∀ header ∈ headers s, header.id ≠ l'.header.id) ∧
      ofLayout (rows s₂) l'.header.id = [] ∧
      (persistAll l'.header.id).run (l.numberedTree plan, s₂) = (.ok tally, (l'.tree, s')) ∧
      l'.header = { l.header with id := l'.header.id } ∧ l'.nodes = l'.tree.flatten := by
  obtain ⟨plan, checked, prepared, s₁, id, s₂, tally, hplan, hcheck, hfill, hcreate, hpersist,
    hheader', hnodes⟩ := run_save_steps hrun
  obtain ⟨hfound, hsound₁, hrows₁⟩ := run_fetchPlan_eq_ok hs.sound hplan
  obtain ⟨hheader, hnumbered, -⟩ := run_check_fill_eq_ok hready.empty hcheck hfill
  rw [hheader] at hheader' hcreate
  rw [hnumbered] at hpersist
  obtain rfl : l'.header.id = id := congrArg LayoutHeader.id hheader'
  have hfiled₁ : FiledTo (last s) s₁ := by
    have hkept := keeps_filedTo_of_quiet (quiet_plan? l.header.planId)
      (steady_plan? l.header.planId) s hs
    rwa [hfound] at hkept
  have hheaders₁ : headers s₁ = headers s := by
    have hkept := (steady_plan? l.header.planId s).1
    rwa [hfound] at hkept
  obtain ⟨hheaders₂, hfresh, -, hlast₂⟩ := createLayout_run hcreate
  obtain ⟨hsound₂, hrows₂⟩ := hcreate ▸ quiet_createLayout l.header s₁ hsound₁
  refine ⟨plan, s₁, s₂, tally, hfound, hsound₂, Int.le_trans hfiled₁.le_last.2 hlast₂, ?_,
    fun header hmem heq ↦ ?_, List.filter_eq_nil_iff.mpr fun n hn heq ↦ ?_, hpersist, hheader',
    hnodes⟩
  · rw [hheaders₂, hheaders₁, hheader']
  · have hle := hfiled₁.headers_le header (hheaders₁ ▸ hmem)
    omega
  · have hle := hfiled₁.rows_le n (hrows₂ ▸ hn)
    have hlayout := beq_iff_eq.mp heq
    omega

omit [LawfulHeaders σ] in
theorem breadthFirst_of_wrote {layoutId : Int} {t₀ t t' : NodeTree} (h₀ : t₀.BreadthFirst)
    (hrelabelled : Relabelled t₀ t) (ht : t.Rooted)
    (h : Wrote layoutId (t, s) (t', s') (t.placesBelow 0)) : t'.BreadthFirst := by
  refine h₀.of_places (fun i ↦ (h.parent? i).trans (hrelabelled.parent? i)) fun i m hm ↦ ?_
  obtain ⟨n, hn⟩ := (h.sameShape.node? i).mp ⟨m, hm⟩
  obtain ⟨k, hk, heq⟩ := hrelabelled.exists_node? hn
  have hi : i ∈ t.placesBelow 0 := ht.mem_placesBelow_zero.mpr (lt_size_iff.mpr ⟨n, hn⟩)
  obtain ⟨n', id, hn', hm'⟩ := h.written i hi
  cases hm.symm.trans hm'
  cases hn.symm.trans hn'
  exact ⟨k, hk, (congrArg Node.sequence heq).symm⟩

omit [LawfulHeaders σ] in
/-- All nodes of a written tree are rows of its layout. -/
theorem ofLayout_flatten_of_wrote {layoutId : Int} {t t' : NodeTree} (ht : t.Rooted)
    (h : Wrote layoutId (t, s) (t', s') (t.placesBelow 0)) :
    ofLayout t'.flatten layoutId = t'.flatten := by
  refine List.filter_eq_self.mpr fun n hn ↦ ?_
  obtain ⟨i, hi⟩ := mem_flatten.mp hn
  have hplace : i < t'.size := lt_size_iff.mpr ⟨n, hi⟩
  obtain ⟨m, id, -, hm⟩ := h.written i
    (ht.mem_placesBelow_zero.mpr (h.sameShape.size_eq ▸ hplace))
  cases hi.symm.trans hm
  exact beq_self_eq_true layoutId

/-- A save that is carried out adds the header and the rows of the tree behind all that is
stored, and the tree can be built again from its rows. -/
theorem exists_listedAs_of_save (hs : FiledTo (last s) s) (htree : l.tree = build l.nodes)
    (hrun : save.run (l, s) = (.ok (), (l', s'))) :
    ∃ plan s₁, (Store.plan? l.header.planId).run s = (.ok (some plan), s₁) ∧
      (l.numberedTree plan).ListedAs l'.header.id l'.nodes ∧
      (∀ m ∈ l'.nodes, (last s).2 < m.id) ∧
      l'.header = { l.header with id := l'.header.id } ∧
      (∀ header ∈ headers s, header.id ≠ l'.header.id) ∧
      headers s' = headers s ++ [l'.header] ∧ ofLayout (rows s') l'.header.id = l'.nodes ∧
      build (inOrder l'.nodes) = l'.tree ∧ l'.nodes = l'.tree.flatten := by
  have hready := ready_of_tree_eq htree
  obtain ⟨plan, s₁, s₂, tally, hplan, hsound, hlast, hheaders, hother, hnone, hpersist, hheader,
    hnodes⟩ := exists_headed_of_save hs hready hrun
  have hrelabelled := relabelled_numberedTree plan l
  have ht := hrelabelled.sameShape.rooted hready.rooted
  have hwrote := wrote_persistAll (p := (l.numberedTree plan, s₂)) hsound ht hpersist
  obtain ⟨hrows', hlarge, hgrow⟩ := ascending_of_persistAll hsound ht hpersist
  have hlinked : l'.tree.Linked :=
    (rewrite_of_wrote ht hnone hwrote).linked_of_all (keyed hsound)
      (hrelabelled.linked hready.linked) ht hnone fun i hi ↦
        ht.mem_placesBelow.mpr ⟨hi, ht.under_zero hi⟩
  have hbreadth : l'.tree.BreadthFirst :=
    breadthFirst_of_wrote (htree ▸ build_breadthFirst l.nodes) hrelabelled ht hwrote
  refine ⟨plan, s₁, hplan, hnodes ▸ listedAs_of_wrote ht hwrote hgrow, fun m hm ↦ ?_, hheader,
    hother, ?_, ?_, ?_, hnodes⟩
  · exact Int.lt_of_le_of_lt hlast (hlarge m (hnodes ▸ hm))
  · rw [headers_of_persistAll hpersist, hheaders]
  · rw [hrows', ofLayout_append, hnone, List.nil_append, hnodes,
      ofLayout_flatten_of_wrote ht hwrote]
  · rw [hnodes]
    exact build_inOrder_flatten hbreadth (hwrote.sameShape.rooted ht) hlinked hgrow

/-- Whatever was done before, a layout that was saved is loaded as it was saved: under its id
there are its header and its nodes, and these build the tree that was written. -/
theorem load_of_save (hstart : Blank s₀) (hs : Reaches s₀ s)
    (hkept : l.kept = none ∨ l.kept = some (build l.nodes))
    (hrun : save.run (l, s) = (.ok (), (l', s'))) :
    (∃ loaded, ((load l'.header.id).run s').1 = .ok loaded ∧
      loaded.header = { l.header with id := l'.header.id } ∧
      (build loaded.nodes).flatten = l'.nodes) ∧
    (∃ plan, ((Store.plan? l.header.planId).run s).1 = .ok (some plan) ∧
      (l.numberedTree plan).ListedAs l'.header.id l'.nodes ∧
      Relabelled (build l.nodes) (l.numberedTree plan)) ∧
    ∀ s₁, Reaches s₀ s₁ → Reaches s₁ s → ∀ r ∈ rows s₁, ∀ m ∈ l'.nodes, r.id < m.id := by
  have htree : l.tree = build l.nodes := by
    rcases hkept with hnone | hsome
    · rw [tree, hnone]
      rfl
    · rw [tree, hsome]
      rfl
  have hfiled := hs.filedTo hstart.filedTo
  have hnow : FiledTo (last s) s := { hfiled with le_last := le_refl _ }
  obtain ⟨plan, s₁, hplan, hlisted, hlarge, hheader, hother, hheaders, hrows, hbuild, hnodes⟩ :=
    exists_listedAs_of_save hnow htree hrun
  refine ⟨?_, ⟨plan, by rw [hplan], hlisted, htree ▸ relabelled_numberedTree plan l⟩, ?_⟩
  · have hfound : (headers s').find? (·.id == l'.header.id) = some l'.header := by
      rw [hheaders, List.find?_append, List.find?_eq_none.mpr fun header hmem heq ↦
        hother header hmem (beq_iff_eq.mp heq), Option.none_or, List.find?_cons_of_pos]
      exact beq_self_eq_true _
    have hsaved : FiledTo (last s) s' := by
      have hkept := keeps_filedTo_save (l, s) hnow
      rwa [hrun] at hkept
    refine ⟨_, run_load_of_found hsaved.sound hfound, hheader, ?_⟩
    rw [hrows, hbuild, hnodes]
  · intro s₁ h₁ h r hr m hm
    have hfiled₁ := h₁.filedTo hstart.filedTo
    have hsince : FiledTo (last s₁) s := h.filedTo { hfiled₁ with le_last := le_refl _ }
    have hle := LawfulHeaders.rows_le hfiled₁.sound r hr
    have hlast := hsince.le_last.2
    have hlt := hlarge m hm
    omega

/-! The nodes of a layout come in any order and under any ids, and it is saved twice. -/

def shuffled : LayoutRequest where
  name := "regions"
  autoFill := true
  nodes := [{ id := 4, parentId := 7, name := "rack", sequence := 5, bitWidth := 2 },
    { id := 7, parentId := 9, name := "west", sequence := 1, bitWidth := 4 },
    { id := 9, name := "root" },
    { id := 3, parentId := 9, name := "east", sequence := 1, bitWidth := 4 }]

def regionPlan : Plan := ⟨1, "2001:db8::/48", 64, none, none⟩

theorem load_of_save_shuffled :
    (∃ (l' : Layout) (db' : Database),
      save.run (.ofRequest 1 shuffled,
        (save.run (.ofRequest 1 shuffled, { plans := [regionPlan], lastPlan := 1 })).2.2) =
        (.ok (), (l', db')) ∧
      ∃ loaded, ((load l'.header.id).run db').1 = .ok loaded ∧
        (build loaded.nodes).flatten = l'.nodes) ∧
    ∃ (l' : Layout) (s' : Recording),
      save.run (.ofRequest 1 shuffled,
        (save.run (.ofRequest 1 shuffled, { plans := [regionPlan] })).2.2) =
        (.ok (), (l', s')) ∧
      ∃ loaded, ((load l'.header.id).run s').1 = .ok loaded ∧
        (build loaded.nodes).flatten = l'.nodes := by
  constructor
  · have hsaved := Step.run_eq_ok_of_fst (a := ()) (m := save (σ := Database))
      (p := (.ofRequest 1 shuffled,
        (save.run (.ofRequest 1 shuffled, { plans := [regionPlan], lastPlan := 1 })).2.2))
      (by decide +kernel)
    obtain ⟨⟨loaded, hloaded, -, hnodes⟩, -⟩ := load_of_save (Database.blank_of_plans _ 1)
      (Reaches.refl.save (.ofRequest 1 shuffled)) (Or.inl rfl) hsaved
    exact ⟨_, _, hsaved, loaded, hloaded, hnodes⟩
  · have hsaved := Step.run_eq_ok_of_fst (a := ()) (m := save (σ := Recording))
      (p := (.ofRequest 1 shuffled,
        (save.run (.ofRequest 1 shuffled, { plans := [regionPlan] })).2.2))
      (by decide +kernel)
    obtain ⟨⟨loaded, hloaded, -, hnodes⟩, -⟩ := load_of_save (Recording.blank_of_plans _)
      (Reaches.refl.save (.ofRequest 1 shuffled)) (Or.inl rfl) hsaved
    exact ⟨_, _, hsaved, loaded, hloaded, hnodes⟩

end Layout

end AddressPlan
