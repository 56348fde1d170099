import AddressPlan.Proofs.Layout.Duplicates

/-!
# Updates that follow the flagging contract

A client may drop, edit or move a row only if it replaces the root or flags a node that the
row is stored below.  Then a row that stays shows the content of its node, and so do the rows
of all nodes above: nothing above it is written anew.  After the update the rows are an image
of the tree of the request.
-/

namespace AddressPlan

/-- What a client says about a node apart from its place in the tree. -/
def Node.content (n : Node) : String × Int × Int × String :=
  (n.name, n.sequence, n.bitWidth, n.literals)

namespace NodeTree

open Rows

/-- Either the root of the request is another one, or every stored row without a node of the
same id, parent and content is stored below a topmost dirty node. -/
def FollowsContract (nodes : List Node) (stored : List Node) : Prop :=
  (build nodes).RootReplaced stored ∨
    ∀ r ∈ stored,
      (∃ n ∈ nodes, n.id = r.id ∧ n.parentId = r.parentId ∧ n.content = r.content) ∨
        (build nodes).BelowTopmostDirty stored r

/-- The contract for what `view` shows of a node: changes of anything else need no flag. -/
def FlagsChanges {β : Type} (view : Node → β) (nodes : List Node) (stored : List Node) : Prop :=
  (build nodes).RootReplaced stored ∨
    ∀ r ∈ stored,
      (∃ n ∈ nodes, n.id = r.id ∧ n.parentId = r.parentId ∧ view n = view r) ∨
        (build nodes).BelowTopmostDirty stored r

theorem followsContract_iff {nodes stored : List Node} :
    FollowsContract nodes stored ↔ FlagsChanges Node.content nodes stored := Iff.rfl

/-- Every row that stays has a node of the same id and parent, and `view` shows the same of
both. -/
def Matched {β : Type} (view : Node → β) (t : NodeTree) (stored : List Node) : Prop :=
  ∀ r ∈ stored, ¬ t.Removed stored r →
    ∃ i n, t.node? i = some n ∧ n.id = r.id ∧ n.parentId = r.parentId ∧ view n = view r

/-- The tree `image` of rows has the shape of the tree `t`.  A row that was written has the
block and the number of its node in `numbered`; any other row is the stored one. -/
structure Mirrors (t numbered : NodeTree) (stored : List Node) (image : NodeTree) : Prop where
  size : image.size = t.size
  parent? : ∀ i, image.parent? i = t.parent? i
  linked : image.Linked
  content : ∀ i n r, t.node? i = some n → image.node? i = some r → r.content = n.content
  written : ∀ i m r, t.Rewritten stored i → numbered.node? i = some m →
    image.node? i = some r → r.cidr = m.cidr ∧ r.value = m.value
  kept : ∀ i n r, ¬ t.Rewritten stored i → t.node? i = some n → image.node? i = some r →
    r ∈ stored ∧ r.id = n.id

def mapNodes (t : NodeTree) (f : Nat → Node → Node) : NodeTree :=
  ⟨t.slots.zipIdx.map fun (s, i) ↦ { s with node := f i s.node }⟩

theorem node?_mapNodes (t : NodeTree) (f : Nat → Node → Node) (i : Nat) :
    (t.mapNodes f).node? i = (t.node? i).map (f i) := by
  simp only [node?, mapNodes, List.getElem?_map, List.getElem?_zipIdx]
  cases t.slots[i]? with
  | none => rfl
  | some s => simp

theorem parent?_mapNodes (t : NodeTree) (f : Nat → Node → Node) (i : Nat) :
    (t.mapNodes f).parent? i = t.parent? i := by
  simp only [parent?, mapNodes, List.getElem?_map, List.getElem?_zipIdx]
  cases t.slots[i]? with
  | none => rfl
  | some s => rfl

@[simp] theorem size_mapNodes (t : NodeTree) (f : Nat → Node → Node) :
    (t.mapNodes f).size = t.size := by
  simp [size, mapNodes]

variable {layoutId : Int} {t t' : NodeTree} {old new stored : List Node} {gone : List Int}
  {places : List Nat} {i j : Nat} {n q r : Node} {β : Type} {view : Node → β}

/-! ## What stays under the contract -/

theorem matched_nil (view : Node → β) (t : NodeTree) : t.Matched view [] :=
  fun _ hr ↦ absurd hr List.not_mem_nil

theorem Matched.above (h : t.Matched view stored) (ht : t.Linked) (hrooted : t.Rooted)
    (hparents : ParentsIn stored) (hunder : t.Under i j) (hn : t.node? i = some n)
    (hr : r ∈ stored) (hid : r.id = n.id) (hstays : ¬ t.Removed stored r) :
    ∃ m q, t.node? j = some m ∧ q ∈ stored ∧ q.id = m.id ∧ ¬ t.Removed stored q := by
  induction hunder with
  | refl => exact ⟨n, r, hn, hr, hid, hstays⟩
  | @tail j k _ hparent ih =>
    obtain ⟨m, q, hm, hq, hqid, hqstays⟩ := ih
    obtain ⟨j', m', hm', hid', hlink, -⟩ := h q hq hqstays
    obtain rfl := ht.place_eq hm' hm (hid'.trans hqid)
    cases hm.symm.trans hm'
    obtain ⟨p, hp⟩ := hrooted.exists_parent_node hparent
    obtain ⟨hroot, hpid⟩ := ht.link _ _ _ _ hparent hm hp
    have hqroot : q.isRoot = false := by
      rwa [Rows.not_isRoot_iff, ← hlink, ← Rows.not_isRoot_iff]
    obtain ⟨q', hq', hqid'⟩ := hparents q hq hqroot
    refine ⟨p, q', hp, hq', ?_, fun hremoved ↦ hqstays (hremoved.of_parent hq hqid')⟩
    rw [hqid', ← hlink, hpid]

/-- A node whose row stays is not written anew. -/
theorem Matched.not_rewritten (h : t.Matched view stored) (ht : t.Linked) (hrooted : t.Rooted)
    (hparents : ParentsIn stored) (hn : t.node? i = some n) (hr : r ∈ stored) (hid : r.id = n.id)
    (hstays : ¬ t.Removed stored r) : ¬ t.Rewritten stored i := by
  rintro ⟨j, m, hunder, hm, hdirty⟩
  obtain ⟨m', q, hm', hq, hqid, hqstays⟩ := h.above ht hrooted hparents hunder hn hr hid hstays
  cases hm.symm.trans hm'
  rcases hdirty with hflagged | hlost
  · have hd : t.Dirty (stored.map Node.id) j := ⟨m, hm, Or.inl hflagged⟩
    obtain ⟨k, hjk, htop⟩ := hrooted.exists_topmostDirty hd
    obtain ⟨p, q', hp, hq', hqid', hqstays'⟩ :=
      h.above ht hrooted hparents (hunder.trans hjk) hn hr hid hstays
    refine hqstays' (Or.inr ⟨k, p, htop, hp, ?_, hqid' ▸ Below.refl _⟩)
    exact List.mem_map.mpr ⟨q', hq', hqid'⟩
  · exact hqstays (hlost q hq hqid)

/-! ## The image -/

def rowOf (t' : NodeTree) (stored : List Node) (places : List Nat) (i : Nat) (n : Node) : Node :=
  if i ∈ places then (t'.node? i).getD n else (stored.find? (·.id == n.id)).getD n

/-- The tree with every node replaced by its row. -/
def imageOf (t t' : NodeTree) (stored : List Node) (places : List Nat) : NodeTree :=
  t.mapNodes (t'.rowOf stored places)

theorem parent?_imageOf (i : Nat) : (t.imageOf t' stored places).parent? i = t.parent? i :=
  parent?_mapNodes t _ i

theorem exists_node?_of_imageOf (hr : (t.imageOf t' stored places).node? i = some r) :
    ∃ n, t.node? i = some n := by
  rw [imageOf, node?_mapNodes] at hr
  obtain ⟨n, hn, -⟩ := Option.map_eq_some_iff.mp hr
  exact ⟨n, hn⟩

theorem find?_id_eq_some (hkeyed : Keyed stored) (hr : r ∈ stored) (hid : r.id = n.id) :
    stored.find? (·.id == n.id) = some r := by
  cases hfound : stored.find? (·.id == n.id) with
  | none =>
    have hne := List.find?_eq_none.mp hfound r hr
    simp [hid] at hne
  | some q =>
    have hqid := List.find?_some hfound
    rw [hkeyed.eq_of_id_eq (List.mem_of_find?_eq_some hfound) hr
      ((beq_iff_eq.mp hqid).trans hid.symm)]

namespace Rewrite

theorem image_of_mem (h : Rewrite layoutId t old new t' gone places) (hi : i ∈ places) :
    (t.imageOf t' stored places).node? i = t'.node? i := by
  obtain ⟨n, id, hn, hn'⟩ := h.written i hi
  rw [imageOf, node?_mapNodes, hn, hn', Option.map_some, rowOf, if_pos hi, hn']
  rfl

theorem image_of_not_mem (h : Rewrite layoutId t old new t' gone places) (hkeyed : Keyed old)
    (hi : i ∉ places) (hn : t.node? i = some n) :
    ∃ r ∈ outside (ofLayout old layoutId) gone, r.id = n.id ∧
      (t.imageOf t' (ofLayout old layoutId) places).node? i = some r := by
  obtain ⟨r, hr, hid⟩ := h.exists_row hi hn
  refine ⟨r, hr, hid, ?_⟩
  rw [imageOf, node?_mapNodes, hn, Option.map_some, rowOf, if_neg hi,
    find?_id_eq_some (hkeyed.ofLayout layoutId) (mem_outside.mp hr).1 hid]
  rfl

theorem id_image (h : Rewrite layoutId t old new t' gone places) (hkeyed : Keyed old)
    (hr : (t.imageOf t' (ofLayout old layoutId) places).node? i = some r) :
    (t'.node? i).map Node.id = some r.id := by
  by_cases hi : i ∈ places
  · rw [h.image_of_mem hi] at hr
    rw [hr]
    rfl
  · obtain ⟨n, hn⟩ := exists_node?_of_imageOf hr
    obtain ⟨q, -, hid, hq⟩ := h.image_of_not_mem hkeyed hi hn
    cases hq.symm.trans hr
    rw [h.kept i hi, hn, hid]
    rfl

/-- If no row is left over, the rows of the layout are the rows of the nodes. -/
theorem image_perm (h : Rewrite layoutId t old new t' gone places) (hkeyed : Keyed old)
    (ht : t.Linked) (hrooted : t.Rooted) (hparents : ParentsIn (ofLayout old layoutId))
    (hmatched : t.Matched view (ofLayout old layoutId)) :
    (t.imageOf t' (ofLayout old layoutId) places).flatten.Perm (ofLayout new layoutId) := by
  have hsub : ofLayout new layoutId ⊆ (t.imageOf t' (ofLayout old layoutId) places).flatten := by
    intro r hr
    rw [mem_flatten]
    rcases h.mem_new.mp hr with hr | ⟨i, hi, hnode⟩
    · obtain ⟨hstored, hstays⟩ := h.mem_staying.mp hr
      obtain ⟨i, n, hn, hid, -⟩ := hmatched r hstored hstays
      have hkept := hmatched.not_rewritten ht hrooted hparents hn hstored hid.symm hstays
      obtain ⟨q, hq, hqid, himage⟩ :=
        h.image_of_not_mem hkeyed (fun hi ↦ hkept ((h.mem_places i).mp hi)) hn
      have hqr : q = r :=
        (hkeyed.ofLayout layoutId).eq_of_id_eq (mem_outside.mp hq).1 hstored (hqid.trans hid)
      exact ⟨i, hqr ▸ himage⟩
    · exact ⟨i, (h.image_of_mem hi).trans hnode⟩
  refine (((h.keyed.ofLayout layoutId).rows_nodup.subperm hsub).perm_of_length_le ?_).symm
  have hlength : (t.imageOf t' (ofLayout old layoutId) places).flatten.length = t.size := by
    rw [flatten, List.length_map]
    exact size_mapNodes t _
  rw [hlength]
  exact h.size_le ht

theorem kept_row (h : Rewrite layoutId t old new t' gone places) (hkeyed : Keyed old)
    (ht : t.Linked) (hmatched : t.Matched view (ofLayout old layoutId)) (hi : i ∉ places)
    (hn : t.node? i = some n)
    (hr : (t.imageOf t' (ofLayout old layoutId) places).node? i = some r) :
    r ∈ ofLayout old layoutId ∧ r.id = n.id ∧ r.parentId = n.parentId ∧
      view r = view n := by
  obtain ⟨q, hq, hid, hq'⟩ := h.image_of_not_mem hkeyed hi hn
  cases hq'.symm.trans hr
  obtain ⟨hstored, hstays⟩ := h.mem_staying.mp hq
  obtain ⟨j, m, hm, hmid, hparent, hview⟩ := hmatched r hstored hstays
  obtain rfl := ht.place_eq hm hn (hmid.trans hid)
  cases hm.symm.trans hn
  exact ⟨hstored, hid, hparent.symm, hview.symm⟩

theorem isRoot_image (h : Rewrite layoutId t old new t' gone places) (hkeyed : Keyed old)
    (ht : t.Linked) (hrooted : t.Rooted) (hmatched : t.Matched view (ofLayout old layoutId))
    (hr : (t.imageOf t' (ofLayout old layoutId) places).node? 0 = some r) : r.isRoot = true := by
  rw [isRoot_iff]
  by_cases hi : 0 ∈ places
  · obtain ⟨n, id, -, hn'⟩ := h.written 0 hi
    rw [h.image_of_mem hi, hn'] at hr
    cases hr
    exact parentIdAt_of_none ((h.parent? 0).trans hrooted.top)
  · obtain ⟨n, hn⟩ := exists_node?_of_imageOf hr
    obtain ⟨-, -, hparent, -⟩ := h.kept_row hkeyed ht hmatched hi hn hr
    rw [hparent]
    exact isRoot_iff.mp (ht.top n hn)

/-- Every row names the row of its node's parent.  A place that was not written has no
written one above it, so the rows of both are the stored ones. -/
theorem parentId_image (h : Rewrite layoutId t old new t' gone places) (hkeyed : Keyed old)
    (ht : t.Linked) (hrooted : t.Rooted) (hmatched : t.Matched view (ofLayout old layoutId))
    (hparent : t.parent? i = some j)
    (hr : (t.imageOf t' (ofLayout old layoutId) places).node? i = some r)
    (hq : (t.imageOf t' (ofLayout old layoutId) places).node? j = some q) :
    r.parentId = q.id := by
  have hqid := h.id_image hkeyed hq
  by_cases hi : i ∈ places
  · obtain ⟨n, id, -, hn'⟩ := h.written i hi
    rw [h.image_of_mem hi, hn'] at hr
    cases hr
    change t'.parentIdAt i = q.id
    rw [parentIdAt_of_some ((h.parent? i).trans hparent), hqid]
    rfl
  · obtain ⟨n, hn⟩ := lt_size_iff.mp (lt_size_of_parent? hparent)
    obtain ⟨m, hm⟩ := hrooted.exists_parent_node hparent
    have hj : j ∉ places := by
      intro hj
      apply hi
      apply (h.mem_places i).mpr
      exact ((h.mem_places j).mp hj).of_under (Under.of_parent hparent)
    obtain ⟨-, -, hrow, -⟩ := h.kept_row hkeyed ht hmatched hi hn hr
    rw [h.kept j hj, hm, Option.map_some, Option.some.injEq] at hqid
    rw [hrow, (ht.link i j n m hparent hn hm).2, hqid]

theorem image_linked (h : Rewrite layoutId t old new t' gone places) (hkeyed : Keyed old)
    (ht : t.Linked) (hrooted : t.Rooted) (hparents : ParentsIn (ofLayout old layoutId))
    (hmatched : t.Matched view (ofLayout old layoutId)) :
    (t.imageOf t' (ofLayout old layoutId) places).Linked := by
  have hperm := h.image_perm hkeyed ht hrooted hparents hmatched
  refine ⟨?_, fun r ↦ h.isRoot_image hkeyed ht hrooted hmatched, fun i j r q hp hr hq ↦ ?_⟩
  · exact (hperm.map Node.id).nodup_iff.mpr (h.keyed.ofLayout layoutId).nodup
  · rw [parent?_imageOf] at hp
    have hlink := h.parentId_image hkeyed ht hrooted hmatched hp hr hq
    have hmem := hperm.mem_iff.mp (mem_flatten.mpr ⟨j, hq⟩)
    have hpos := h.keyed.pos q (mem_ofLayout.mp hmem).1
    exact ⟨not_isRoot_iff.mpr (by omega), hlink⟩

theorem mirrors (h : Rewrite layoutId t old new t' gone places) (hkeyed : Keyed old)
    (ht : t.Linked) (hrooted : t.Rooted) (hparents : ParentsIn (ofLayout old layoutId))
    (hmatched : t.Matched Node.content (ofLayout old layoutId)) :
    t.Mirrors t (ofLayout old layoutId) (t.imageOf t' (ofLayout old layoutId) places) where
  size := size_mapNodes t _
  parent? := parent?_imageOf
  linked := h.image_linked hkeyed ht hrooted hparents hmatched
  content := by
    intro i n r hn hr
    by_cases hi : i ∈ places
    · obtain ⟨m, id, hm, hm'⟩ := h.written i hi
      cases hm.symm.trans hn
      rw [h.image_of_mem hi, hm'] at hr
      cases hr
      rfl
    · exact (h.kept_row hkeyed ht hmatched hi hn hr).2.2.2
  written := by
    intro i n r hrewritten hn hr
    have hi := (h.mem_places i).mpr hrewritten
    obtain ⟨m, id, hm, hm'⟩ := h.written i hi
    cases hm.symm.trans hn
    rw [h.image_of_mem hi, hm'] at hr
    cases hr
    exact ⟨rfl, rfl⟩
  kept := by
    intro i n r hkept hn hr
    obtain ⟨hstored, hid, -, -⟩ :=
      h.kept_row hkeyed ht hmatched (fun hi ↦ hkept ((h.mem_places i).mp hi)) hn hr
    exact ⟨hstored, hid⟩

end Rewrite

theorem Mirrors.of_relabelled {image : NodeTree} (h : Relabelled t t')
    (hm : t'.Mirrors t' stored image) : t.Mirrors t' stored image where
  size := hm.size.trans h.sameShape.size_eq
  parent? := fun i ↦ (hm.parent? i).trans (h.parent? i)
  linked := hm.linked
  content := by
    intro i n r hn hr
    obtain ⟨cidr, value, hn'⟩ := h.of_node? hn
    have hcontent := hm.content i _ r hn' hr
    exact hcontent
  written := fun i m r hrewritten ↦ hm.written i m r (h.rewritten_iff.mpr hrewritten)
  kept := by
    intro i n r hkept hn hr
    obtain ⟨cidr, value, hn'⟩ := h.of_node? hn
    have hkept' := hm.kept i _ r (fun hrewritten ↦ hkept (h.rewritten_iff.mp hrewritten)) hn' hr
    exact hkept'

theorem FlagsChanges.matched {nodes : List Node} (h : FlagsChanges view nodes stored)
    (hview : ∀ n cidr value, view { n with cidr, value } = view n)
    (hperm : (build nodes).flatten.Perm nodes) (hlabel : Relabelled (build nodes) t) :
    t.Matched view stored := by
  intro r hr hstays
  have hstays' : ¬ (build nodes).Removed stored r :=
    fun hremoved ↦ hstays (hlabel.removed_iff.mpr hremoved)
  rcases h with hreplaced | hrows
  · exact absurd (Or.inl hreplaced) hstays'
  · rcases hrows r hr with ⟨n, hn, hid, hparent, hsame⟩ | hbelow
    · obtain ⟨i, hi⟩ := mem_flatten.mp (hperm.mem_iff.mpr hn)
      obtain ⟨cidr, value, hi'⟩ := hlabel.of_node? hi
      exact ⟨i, _, hi', hid, hparent, (hview n cidr value).trans hsame⟩
    · exact absurd (Or.inr hbelow) hstays'

theorem FollowsContract.matched {nodes : List Node} (h : FollowsContract nodes stored)
    (hperm : (build nodes).flatten.Perm nodes) (hlabel : Relabelled (build nodes) t) :
    t.Matched Node.content stored :=
  (followsContract_iff.mp h).matched (fun _ _ _ ↦ rfl) hperm hlabel

end NodeTree

namespace Layout

open Rows LawfulStore NodeTree

variable {σ : Type} [Store σ] [LawfulStore σ] {l l' : Layout} {s s' : σ}

/-- An update that follows the contract stores exactly the request.  The tree of the request
holds each of its nodes once, and the rows of the layout are an image of that tree: rows that
were written have the blocks and numbers of the numbered tree, all others are as before. -/
theorem update_stores_request (hs : Sound s)
    (hstored : EmptyOrTree (ofLayout (rows s) l.header.id))
    (hcontract : FollowsContract l.nodes (ofLayout (rows s) l.header.id))
    (hrun : update.run (l, s) = (.ok (), (l', s'))) :
    ∃ plan s₀ image, (Store.plan? l.header.planId).run s = (.ok (some plan), s₀) ∧
      (build l.nodes).flatten.Perm l.nodes ∧
      image.flatten.Perm (ofLayout (rows s') l.header.id) ∧
      (build l.nodes).Mirrors (l.requestTree plan) (ofLayout (rows s) l.header.id) image := by
  obtain ⟨plan, s₀, hplan, hok, -, t', gone, places, hrewrite⟩ :=
    exists_rewrite_of_update hs hstored hrun
  have hperm := build_perm_of_checked hok
  have hlabel := relabelled_requestTree plan l
  have hlinked := hlabel.linked (build_linked l.nodes)
  have hrooted := hlabel.sameShape.rooted (build_rooted l.nodes)
  have hmatched := hcontract.matched hperm hlabel
  refine ⟨plan, s₀, _, hplan, hperm,
    hrewrite.image_perm (keyed hs) hlinked hrooted hstored.parentsIn hmatched, ?_⟩
  exact .of_relabelled hlabel
    (hrewrite.mirrors (keyed hs) hlinked hrooted hstored.parentsIn hmatched)

/-- One child is renamed and flagged, and the other one gets a child of its own. -/
def renamedAndGrown : List Node :=
  [{ id := 1, name := "root" },
    { id := 2, parentId := 1, name := "west", sequence := 1, modified := true },
    { id := 3, parentId := 1, name := "b", sequence := 2 },
    { id := -1, parentId := 3, name := "c", sequence := 1 }]

theorem followsContract_renamedAndGrown :
    FollowsContract renamedAndGrown (ofLayout (rows twoChildrenStored) 1) := by
  have hrows : ∀ r ∈ ofLayout (rows twoChildrenStored) 1,
      (∃ n ∈ renamedAndGrown, n.id = r.id ∧ n.parentId = r.parentId ∧ n.content = r.content) ∨
        r.id = 2 := by
    decide +kernel
  refine Or.inr fun r hr ↦ (hrows r hr).imp_right fun hid ↦ ?_
  have hrooted := build_rooted renamedAndGrown
  have htop : (build renamedAndGrown).TopmostDirty
      ((ofLayout (rows twoChildrenStored) 1).map Node.id) 1 := by
    refine ⟨⟨_, rfl, Or.inl rfl⟩, fun j hj hne ↦ ?_⟩
    have hle := hrooted.le_of_under hj
    obtain rfl : j = 0 := by omega
    rintro ⟨n, hn, hdirty⟩
    cases hn
    revert hdirty
    decide +kernel
  exact ⟨1, _, htop, rfl, by decide +kernel, hid ▸ Below.refl r.id⟩

theorem update_stores_request_renamedAndGrown :
    ∃ l' s', update.run (resent renamedAndGrown, twoChildrenStored) = (.ok (), (l', s')) ∧
      ∃ plan s₀ image, (Store.plan? 1).run twoChildrenStored = (.ok (some plan), s₀) ∧
        (build renamedAndGrown).flatten.Perm renamedAndGrown ∧
        image.flatten.Perm (ofLayout (rows s') 1) ∧
        (build renamedAndGrown).Mirrors ((resent renamedAndGrown).requestTree plan)
          (ofLayout (rows twoChildrenStored) 1) image := by
  obtain ⟨l', s', hrun⟩ : ∃ l' s',
      update.run (resent renamedAndGrown, twoChildrenStored) = (.ok (), (l', s')) :=
    ⟨_, _, Step.run_eq_ok_of_fst (by decide +kernel)⟩
  exact ⟨l', s', hrun, update_stores_request sound_twoChildrenStored
    tree_twoChildrenStored followsContract_renamedAndGrown hrun⟩

end Layout

end AddressPlan
