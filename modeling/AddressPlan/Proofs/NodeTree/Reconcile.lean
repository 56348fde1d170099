import AddressPlan.Proofs.NodeTree.Written
import AddressPlan.Proofs.Store.Deletions

/-!
# Reconciling a tree with its rows

The first pass deletes what is stored under the topmost dirty nodes.  The second pass looks
for topmost dirty places again, now among the ids that are left, and writes everything
below each of them.  Of what is written only these tops may keep their ids.
-/

namespace AddressPlan.NodeTree

open Rows LawfulStore

variable {σ : Type} [Store σ] {layoutId : Int} {t : NodeTree} {stored : List Int}
  {tops : List Placed}

/-! ## Marked places -/

/-- A place and all below it, of which only the place itself may keep its id. -/
def marked (t : NodeTree) (keepId : Bool) (top : Nat) : List (Nat × Bool) :=
  (t.placesBelow top).map fun i ↦ (i, keepId && i == top)

/-- The places that are written for these tops. -/
def markedBelow (t : NodeTree) (stored : List Int) (tops : List Placed) : List (Nat × Bool) :=
  tops.flatMap fun p ↦ t.marked (stored.contains p.node.id) p.place

/-- Writes places in this order; those that are marked keep their ids. -/
def writeMarked (layoutId : Int) (marks : List (Nat × Bool)) : Step (NodeTree × σ) Unit :=
  marks.forM fun x ↦ insertAt layoutId x.2 x.1

theorem markedBelow_cons (t : NodeTree) (stored : List Int) (q : Placed) (tops : List Placed) :
    t.markedBelow stored (q :: tops) =
      t.marked (stored.contains q.node.id) q.place ++ t.markedBelow stored tops :=
  List.flatMap_cons

theorem writeMarked_append (marks marks' : List (Nat × Bool)) :
    writeMarked (σ := σ) layoutId (marks ++ marks') =
      writeMarked layoutId marks >>= fun _ ↦ writeMarked layoutId marks' :=
  List.forM_append

theorem writeMarked_marked (t : NodeTree) (keepId : Bool) (top : Nat) :
    writeMarked (σ := σ) layoutId (t.marked keepId top) =
      (t.placesBelow top).forM fun i ↦ insertAt layoutId (keepId && i == top) i :=
  List.forM_map

theorem mem_marked (ht : t.Rooted) {keepId : Bool} {top : Nat} {x : Nat × Bool} :
    x ∈ t.marked keepId top ↔
      x.1 < t.size ∧ t.Under x.1 top ∧ x.2 = (keepId && x.1 == top) := by
  obtain ⟨i, b⟩ := x
  simp only [marked, List.mem_map, Prod.mk.injEq, ht.mem_placesBelow]
  constructor
  · rintro ⟨i, ⟨hi, hunder⟩, rfl, rfl⟩
    exact ⟨hi, hunder, rfl⟩
  · rintro ⟨hi, hunder, rfl⟩
    exact ⟨i, ⟨hi, hunder⟩, rfl, rfl⟩

theorem map_fst_marked (t : NodeTree) (keepId : Bool) (top : Nat) :
    (t.marked keepId top).map Prod.fst = t.placesBelow top := by
  rw [marked, List.map_map]
  exact List.map_id _

theorem keeps_parents_insertAt (parents : List (Option Nat)) (keepId : Bool) (i : Nat) :
    Step.Keeps (fun p : NodeTree × σ ↦ p.1.slots.map Slot.parent = parents)
      (insertAt layoutId keepId i) := by
  have hupdate : ∀ f, Step.Keeps (fun p : NodeTree × σ ↦ p.1.slots.map Slot.parent = parents)
      (Step.first (Step.modify fun t ↦ t.update i f)) := fun f ↦
    Step.Keeps.first_fst (P := fun t : NodeTree ↦ t.slots.map Slot.parent = parents)
      (.modify fun t ht ↦ (parents_update t i f).trans ht)
  refine Step.Keeps.get.bind fun p ↦ ?_
  dsimp only
  split
  · exact .pure _
  · refine (hupdate _).bind fun _ ↦ Step.Keeps.bind ?_ fun _ ↦ hupdate _
    exact Step.Keeps.second_fst (P := fun t : NodeTree ↦ t.slots.map Slot.parent = parents) _

/-- Writing places leaves every node where it is. -/
theorem parents_of_writeMarked {marks : List (Nat × Bool)} {p p' : NodeTree × σ}
    (hrun : (writeMarked layoutId marks).run p = (.ok (), p')) :
    p'.1.slots.map Slot.parent = p.1.slots.map Slot.parent := by
  have hkeeps : Step.Keeps (fun q : NodeTree × σ ↦ q.1.slots.map Slot.parent =
      p.1.slots.map Slot.parent) (writeMarked layoutId marks) :=
    Step.Keeps.forM (fun x ↦ keeps_parents_insertAt _ x.2 x.1) marks
  exact hkeeps.of_run rfl hrun

theorem run_replaceAt (keepId : Bool) (top : Nat) (p : NodeTree × σ) :
    (replaceAt layoutId keepId top).run p =
      (writeMarked layoutId (p.1.marked keepId top) >>= fun _ ↦
        pure ⟨1, (p.1.marked keepId top).length⟩).run p := by
  rw [writeMarked_marked, marked, List.length_map]
  rfl

theorem run_replaceAt_eq_ok {keepId : Bool} {top : Nat} {p p' : NodeTree × σ} {tally : Tally}
    (hrun : (replaceAt layoutId keepId top).run p = (.ok tally, p')) :
    (writeMarked layoutId (p.1.marked keepId top)).run p = (.ok (), p') ∧
      tally = ⟨1, (p.1.marked keepId top).length⟩ := by
  rw [run_replaceAt, Step.run_bind_eq_ok_iff] at hrun
  obtain ⟨_, p₁, hwrite, htally⟩ := hrun
  cases htally
  exact ⟨hwrite, rfl⟩

/-- Replacing subtrees one after the other, carried out or not, is to write the places below all
of these tops. -/
theorem run_replaceEach {tally : Tally} {p : NodeTree × σ}
    (hshape : p.1.slots.map Slot.parent = t.slots.map Slot.parent) :
    (tops.foldlM
      (fun (tally : Tally) (q : Placed) ↦ do
        let more ← replaceAt layoutId (stored.contains q.node.id) q.place
        return ⟨tally.replaced + more.replaced, tally.inserted + more.inserted⟩)
      tally).run p =
    (writeMarked layoutId (t.markedBelow stored tops) >>= fun _ ↦
      pure ⟨tally.replaced + tops.length,
        tally.inserted + (t.markedBelow stored tops).length⟩).run p := by
  induction tops generalizing tally p with
  | nil => rfl
  | cons q tops ih =>
    have hmarked : p.1.marked (stored.contains q.node.id) q.place =
        t.marked (stored.contains q.node.id) q.place := by
      rw [marked, marked, placesBelow_congr hshape]
    rw [List.foldlM_cons, markedBelow_cons, writeMarked_append, bind_assoc, bind_assoc,
      Step.run_bind, Step.run_bind, run_replaceAt, hmarked, Step.run_bind]
    rcases hwrite : (writeMarked layoutId (t.marked (stored.contains q.node.id) q.place)).run p
      with ⟨r, p₁⟩
    cases r with
    | error e => rfl
    | ok _ =>
      refine (ih ((parents_of_writeMarked hwrite).trans hshape)).trans ?_
      rw [List.length_append, List.length_cons, Nat.add_assoc, Nat.add_assoc, Nat.add_comm 1]

theorem tree_of_deleteStored {live : List Int} {p p' : NodeTree × σ}
    (hrun : (deleteStored stored tops).run p = (.ok live, p')) : p'.1 = p.1 := by
  have hkeeps : Step.Keeps (fun q : NodeTree × σ ↦ q.1 = p.1) (deleteStored stored tops) := by
    refine Step.Keeps.foldlM (fun live q ↦ ?_) tops stored
    split
    · exact (Step.Keeps.second_fst (P := (· = p.1)) _).bind fun _ ↦ .pure _
    · exact .pure _
  exact hkeeps.of_run rfl hrun

/-- The passes of a reconciliation that is carried out, and what it counts. -/
theorem run_reconcile_steps {s : σ} {p' : NodeTree × σ} {tally : Tally}
    (hrun : (reconcile layoutId stored).run (t, s) = (.ok tally, p')) :
    ∃ live s₁, (deleteStored stored (t.dirtyTops stored)).run (t, s) = (.ok live, (t, s₁)) ∧
      (writeMarked layoutId (t.markedBelow stored (t.dirtyTops live))).run (t, s₁) =
        (.ok (), p') ∧
      tally = ⟨(t.dirtyTops live).length,
        (t.markedBelow stored (t.dirtyTops live)).length⟩ := by
  simp only [reconcile, Step.run_bind_eq_ok_iff, Step.run_get, Prod.mk.injEq,
    Except.ok.injEq] at hrun
  obtain ⟨_, _, ⟨rfl, rfl⟩, live, ⟨t₁, s₁⟩, hdelete, hrun⟩ := hrun
  obtain rfl : t₁ = t := tree_of_deleteStored hdelete
  rw [run_replaceEach rfl, Step.run_bind_eq_ok_iff] at hrun
  obtain ⟨_, _, hwrite, htally⟩ := hrun
  cases htally
  refine ⟨live, s₁, hdelete, hwrite, ?_⟩
  rw [Nat.zero_add, Nat.zero_add]

/-! ## Writing places -/

variable [LawfulStore σ]

/-- The places are in the tree, and none of them is written in front of its parent. -/
structure Writable (p : NodeTree × σ) (marks : List (Nat × Bool)) : Prop where
  sound : Sound p.2
  rooted : p.1.Rooted
  lt_size : ∀ x ∈ marks, x.1 < p.1.size
  follows : marks.Pairwise fun x y ↦ p.1.MayFollow x.1 y.1

/-- Once the first place is written, the others can be written. -/
theorem Writable.wrote_first {x : Nat × Bool} {marks : List (Nat × Bool)} {p p₁ : NodeTree × σ}
    (h : Writable p (x :: marks)) (hinsert : (insertAt layoutId x.2 x.1).run p = (.ok (), p₁)) :
    Wrote layoutId p p₁ [x.1] ∧ Writable p₁ marks := by
  have hfirst : Wrote layoutId p p₁ [x.1] := by
    refine wrote_insertAt h.sound (h.lt_size x List.mem_cons_self) (fun hi ↦ ?_) hinsert
    exact absurd (h.rooted.lt_of_parent? hi) (Nat.lt_irrefl x.1)
  have hshape := hfirst.sameShape
  refine ⟨hfirst, hfirst.sound, hshape.rooted h.rooted, fun y hy ↦ ?_, ?_⟩
  · exact hshape.size_eq ▸ h.lt_size y (List.mem_cons_of_mem x hy)
  · refine (List.pairwise_cons.mp h.follows).2.imp fun hij ↦ ?_
    exact ⟨hij.1, hfirst.parent? _ ▸ hij.2⟩

theorem Writable.exists_first {x : Nat × Bool} {marks : List (Nat × Bool)} {p p' : NodeTree × σ}
    (h : Writable p (x :: marks))
    (hrun : (writeMarked layoutId (x :: marks)).run p = (.ok (), p')) :
    ∃ p₁, (insertAt layoutId x.2 x.1).run p = (.ok (), p₁) ∧
      (writeMarked layoutId marks).run p₁ = (.ok (), p') ∧
      Wrote layoutId p p₁ [x.1] ∧ Writable p₁ marks := by
  obtain ⟨_, p₁, hinsert, hrun⟩ := Step.run_bind_eq_ok_iff.mp hrun
  exact ⟨p₁, hinsert, hrun, h.wrote_first hinsert⟩

theorem wrote_writeMarked {marks : List (Nat × Bool)} {p p' : NodeTree × σ}
    (h : Writable p marks) (hrun : (writeMarked layoutId marks).run p = (.ok (), p')) :
    Wrote layoutId p p' (marks.map Prod.fst) := by
  induction marks generalizing p with
  | nil =>
    cases hrun
    exact .nil h.sound
  | cons x marks ih =>
    obtain ⟨p₁, -, hrun, hfirst, hrest⟩ := h.exists_first hrun
    apply hfirst.append (ih hrest hrun)
    intro i hi j hj
    obtain ⟨y, hy, rfl⟩ := List.mem_map.mp hj
    rw [List.mem_singleton.mp hi]
    exact (List.pairwise_cons.mp h.follows).1 y hy

theorem Rooted.mayFollow_placesBelow (ht : t.Rooted) (top : Nat) :
    (t.placesBelow top).Pairwise t.MayFollow := by
  refine (ht.placesBelow_pairwise top).imp fun {i j} hlt ↦ ⟨Nat.ne_of_lt hlt, fun hparent ↦ ?_⟩
  have hgt := ht.lt_of_parent? hparent
  omega

theorem wrote_replaceAt {keepId : Bool} {top : Nat} {p p' : NodeTree × σ} {tally : Tally}
    (hs : Sound p.2) (ht : p.1.Rooted)
    (hrun : (replaceAt layoutId keepId top).run p = (.ok tally, p')) :
    Wrote layoutId p p' (p.1.placesBelow top) := by
  rw [← map_fst_marked p.1 keepId top]
  refine wrote_writeMarked ⟨hs, ht, fun x hx ↦ ((mem_marked ht).mp hx).1, ?_⟩
    (run_replaceAt_eq_ok hrun).1
  exact List.pairwise_map.mpr (ht.mayFollow_placesBelow top)

theorem wrote_persistAll {p p' : NodeTree × σ} {tally : Tally} (hs : Sound p.2)
    (ht : p.1.Rooted) (hrun : (persistAll layoutId).run p = (.ok tally, p')) :
    Wrote layoutId p p' (p.1.placesBelow 0) := by
  obtain ⟨t, s⟩ := p
  simp only [persistAll, Step.run_bind_eq_ok_iff, Step.run_get, Prod.mk.injEq,
    Except.ok.injEq] at hrun
  obtain ⟨_, _, ⟨rfl, rfl⟩, hrun⟩ := hrun
  dsimp only at hrun
  split at hrun
  · rename_i hempty
    cases hrun
    have hnil : t.placesBelow 0 = [] := by
      simp only [isEmpty, List.isEmpty_iff] at hempty
      simp [placesBelow, hempty]
    exact hnil ▸ .nil hs
  · exact wrote_replaceAt hs ht hrun

/-! ## The second pass -/

/-- Subtrees apart from each other, none of which hangs off another one. -/
structure Apart (t : NodeTree) (tops : List Nat) : Prop where
  disjoint : tops.Pairwise fun a b ↦ ∀ i, t.Under i a → ¬ t.Under i b
  parent : ∀ a ∈ tops, ∀ b ∈ tops, ∀ i, t.parent? a = some i → ¬ t.Under i b

namespace Apart

variable {a b i j : Nat} {tops : List Nat}

theorem tail (h : t.Apart (a :: tops)) : t.Apart tops where
  disjoint := (List.pairwise_cons.mp h.disjoint).2
  parent := fun c hc d hd ↦ h.parent c (List.mem_cons_of_mem a hc) d (List.mem_cons_of_mem a hd)

/-- What stands under a later top may be written after what stands under the first one. -/
theorem mayFollow (h : t.Apart (a :: tops)) (hb : b ∈ tops) (hi : t.Under i a)
    (hj : t.Under j b) : t.MayFollow i j := by
  have hdisjoint : ∀ k, t.Under k a → ¬ t.Under k b := (List.pairwise_cons.mp h.disjoint).1 b hb
  constructor
  · rintro rfl
    exact hdisjoint i hi hj
  · intro hparent
    rcases under_iff.mp hi with rfl | ⟨k, hk, hka⟩
    · exact h.parent i List.mem_cons_self b (List.mem_cons_of_mem i hb) j hparent hj
    · cases hparent.symm.trans hk
      exact hdisjoint j hka hj

end Apart

theorem Rooted.apart_of_topmostDirty (ht : t.Rooted) {ids : List Int}
    {tops : List Nat} (hnodup : tops.Nodup) (htops : ∀ a ∈ tops, t.TopmostDirty ids a) :
    t.Apart tops where
  disjoint := by
    refine hnodup.imp_of_mem fun {a b} ha hb hne i hia hib ↦ hne ?_
    exact (htops a ha).eq_of_common (htops b hb) hia hib
  parent := by
    intro a ha b hb i hparent hib
    have hab := (Under.of_parent hparent).trans hib
    obtain rfl := (htops a ha).eq_of_under (htops b hb).dirty hab
    have hle := ht.le_of_under hib
    have hlt := ht.lt_of_parent? hparent
    omega

theorem Rooted.apart_dirtyTops (ht : t.Rooted) (ids : List Int) :
    t.Apart ((t.dirtyTops ids).map Placed.place) := by
  have htops : ∀ a ∈ (t.dirtyTops ids).map Placed.place, t.TopmostDirty ids a := by
    intro a ha
    obtain ⟨q, hq, rfl⟩ := List.mem_map.mp ha
    exact (ht.mem_dirtyTops.mp hq).2
  exact ht.apart_of_topmostDirty (ht.dirtyTops_nodup ids) htops

theorem Apart.pairwise_mayFollow {tops : List Nat} (h : t.Apart tops) :
    tops.Pairwise fun a b ↦ ∀ i j, t.Under i a → t.Under j b → t.MayFollow i j := by
  induction tops with
  | nil => exact .nil
  | cons a tops ih =>
    exact List.pairwise_cons.mpr ⟨fun b hb i j hi hj ↦ h.mayFollow hb hi hj, ih h.tail⟩

theorem Rooted.follows_markedBelow (ht : t.Rooted) (hapart : t.Apart (tops.map Placed.place)) :
    (t.markedBelow stored tops).Pairwise fun x y ↦ t.MayFollow x.1 y.1 := by
  refine List.pairwise_flatMap.mpr ⟨fun p _ ↦ ?_, ?_⟩
  · exact List.pairwise_map.mpr (ht.mayFollow_placesBelow p.place)
  · refine (List.pairwise_map.mp hapart.pairwise_mayFollow).imp fun hab x hx y hy ↦ ?_
    exact hab _ _ ((mem_marked ht).mp hx).2.1 ((mem_marked ht).mp hy).2.1

theorem Rooted.lt_size_of_marked (ht : t.Rooted) {x : Nat × Bool}
    (hx : x ∈ t.markedBelow stored tops) : x.1 < t.size := by
  obtain ⟨p, -, hxp⟩ := List.mem_flatMap.mp hx
  exact ((mem_marked ht).mp hxp).1

theorem Rooted.writable_markedBelow (ht : t.Rooted) (stored live : List Int) {s : σ}
    (hs : Sound s) : Writable (t, s) (t.markedBelow stored (t.dirtyTops live)) :=
  ⟨hs, ht, fun _ hx ↦ ht.lt_size_of_marked hx, ht.follows_markedBelow (ht.apart_dirtyTops live)⟩

/-- What is marked is a top whose id is stored. -/
theorem Rooted.exists_top_of_marked (ht : t.Rooted) {x : Nat × Bool}
    (hx : x ∈ t.markedBelow stored tops) (hkept : x.2 = true) :
    ∃ p ∈ tops, p.place = x.1 ∧ p.node.id ∈ stored := by
  obtain ⟨p, hp, hxp⟩ := List.mem_flatMap.mp hx
  obtain ⟨-, -, hmark⟩ := (mem_marked ht).mp hxp
  rw [hkept, eq_comm, Bool.and_eq_true, List.contains_iff_mem, beq_iff_eq] at hmark
  exact ⟨p, hp, hmark.2.symm, hmark.1⟩

/-! ## Both passes -/

theorem run_deleteStored {live : List Int} {p p' : NodeTree × σ}
    (hs : Sound p.2) (hrun : (deleteStored stored tops).run p = (.ok live, p')) :
    p'.1 = p.1 ∧ Sound p'.2 ∧ ∃ gone, rows p'.2 = outside (rows p.2) gone ∧
      live = stored.filter (!gone.contains ·) ∧
      AreBelow (rows p.2) ((tops.map (·.node.id)).filter stored.contains) gone := by
  have htops : (tops.map (·.node.id)).filter stored.contains =
      tops.filterMap fun q ↦ if stored.contains q.node.id then some q.node.id else none := by
    rw [← List.filterMap_eq_filter, List.filterMap_map]
    rfl
  rw [htops]
  refine run_deletions _ (fun {live a p live' p'} ha hbody ↦ ?_)
    (fun {live a p live' p' d} ha hbody ↦ ?_) tops hs hrun
  · split at ha
    · cases ha
    · rename_i hnot
      rw [if_neg hnot] at hbody
      cases hbody
      exact ⟨rfl, rfl⟩
  · split at ha
    · rename_i hstored
      cases ha
      rw [if_pos hstored, Step.run_bind_eq_ok_iff] at hbody
      obtain ⟨removed, p₁, hdelete, hbody⟩ := hbody
      cases hbody
      obtain ⟨hdelete, htree⟩ := Step.run_second_eq_ok_iff.mp hdelete
      exact ⟨htree, removed, hdelete, rfl⟩
    · cases ha

def BelowDirty (t : NodeTree) (ids : List Int) (i : Nat) : Prop :=
  ∃ j, t.Under i j ∧ t.Dirty ids j

theorem BelowDirty.lt_size {ids : List Int} {i : Nat} (h : t.BelowDirty ids i) :
    i < t.size := by
  obtain ⟨j, hunder, hdirty⟩ := h
  rcases under_iff.mp hunder with rfl | ⟨p, hp, -⟩
  · exact hdirty.lt_size
  · exact lt_size_of_parent? hp

/-- The ids that the first pass deletes what is below of. -/
def doomedTops (t : NodeTree) (stored : List Int) : List Int :=
  ((t.dirtyTops stored).map (·.node.id)).filter stored.contains

theorem Rooted.mem_doomedTops (ht : t.Rooted) {d : Int} :
    d ∈ t.doomedTops stored ↔
      d ∈ stored ∧ ∃ i n, t.node? i = some n ∧ n.id = d ∧ t.TopmostDirty stored i := by
  simp only [doomedTops, List.mem_filter, List.mem_map, ht.mem_dirtyTops, List.contains_eq_mem,
    decide_eq_true_eq]
  constructor
  · rintro ⟨⟨⟨i, n⟩, ⟨hn, htop⟩, rfl⟩, hd⟩
    exact ⟨hd, i, n, hn, rfl, htop⟩
  · rintro ⟨hd, i, n, hn, rfl, htop⟩
    exact ⟨⟨⟨i, n⟩, ⟨hn, htop⟩, rfl⟩, hd⟩

/-- Nothing is stored any more under a stored id of a top that is written: either it is gone
with a row above it, or the top was flagged and the first pass has deleted its row. -/
theorem Rooted.free_of_top (ht : t.Rooted) {rows : List Node} {gone : List Int}
    (hgone : AreBelow rows (t.doomedTops stored) gone) {p : Placed}
    (hp : p ∈ t.dirtyTops (stored.filter (!gone.contains ·))) (hmem : p.node.id ∈ stored) :
    ∀ r ∈ outside rows gone, r.id ≠ p.node.id := by
  intro r hr hid
  obtain ⟨hr, hstays⟩ := mem_outside.mp hr
  obtain ⟨hholds, htop⟩ := ht.mem_dirtyTops.mp hp
  have hlive : p.node.id ∈ stored.filter (!gone.contains ·) :=
    List.mem_filter.mpr ⟨hmem, by simpa [← hid] using hstays⟩
  have hmodified : p.node.modified = true := by
    have hdirty := hholds.dirty_iff.mp htop.dirty
    exact (isDirty_iff.mp hdirty).resolve_right fun hnot ↦ hnot hlive
  have hbefore : t.TopmostDirty stored p.place := by
    refine ⟨⟨p.node, hholds, Or.inl hmodified⟩, fun j hj hne ⟨n, hn, hdirty⟩ ↦ ?_⟩
    refine htop.clean_above j hj hne ⟨n, hn, hdirty.imp_right fun hnot hmem ↦ hnot ?_⟩
    exact List.mem_of_mem_filter hmem
  have hdoomed := ht.mem_doomedTops.mpr ⟨hmem, p.place, p.node, hholds, rfl, hbefore⟩
  exact hstays ((hgone r.id).mpr ⟨⟨r, hr, rfl⟩, _, hdoomed, hid ▸ Below.refl _⟩)

theorem Rooted.mem_places_markedBelow (ht : t.Rooted) {live : List Int} {i : Nat} :
    i ∈ (t.markedBelow stored (t.dirtyTops live)).map Prod.fst ↔ t.BelowDirty live i := by
  constructor
  · intro hi
    obtain ⟨x, hx, rfl⟩ := List.mem_map.mp hi
    obtain ⟨q, hq, hxq⟩ := List.mem_flatMap.mp hx
    exact ⟨q.place, ((mem_marked ht).mp hxq).2.1, (ht.mem_dirtyTops.mp hq).2.dirty⟩
  · intro hbelow
    have hi := hbelow.lt_size
    obtain ⟨j, hunder, hdirty⟩ := hbelow
    obtain ⟨k, hk, htop⟩ := ht.exists_topmostDirty hdirty
    obtain ⟨n, hn⟩ := lt_size_iff.mp htop.dirty.lt_size
    have hmarked : (i, stored.contains n.id && i == k) ∈ t.marked (stored.contains n.id) k :=
      (mem_marked ht).mpr ⟨hi, hunder.trans hk, rfl⟩
    have htops : ⟨k, n⟩ ∈ t.dirtyTops live := ht.mem_dirtyTops.mpr ⟨hn, htop⟩
    exact List.mem_map.mpr ⟨_, List.mem_flatMap.mpr ⟨⟨k, n⟩, htops, hmarked⟩, rfl⟩

/-- Reconciling deletes what is stored below the topmost dirty nodes, and then writes the
places that are dirty, or below a dirty one, among the ids that are left. -/
theorem run_reconcile {p p' : NodeTree × σ} {tally : Tally} (hs : Sound p.2) (ht : p.1.Rooted)
    (hrun : (reconcile layoutId stored).run p = (.ok tally, p')) :
    ∃ s gone places, rows s = outside (rows p.2) gone ∧
      AreBelow (rows p.2) (p.1.doomedTops stored) gone ∧
      Wrote layoutId (p.1, s) p' places ∧ places.Nodup ∧
      ∀ i, i ∈ places ↔ p.1.BelowDirty (stored.filter (!gone.contains ·)) i := by
  obtain ⟨t, s₀⟩ := p
  obtain ⟨live, s, hdelete, hwrite, -⟩ := run_reconcile_steps hrun
  obtain ⟨-, hs₁, gone, hrows, rfl, hgone⟩ := run_deleteStored hs hdelete
  have hwritable := ht.writable_markedBelow stored (stored.filter (!gone.contains ·)) hs₁
  have hwrote := wrote_writeMarked hwritable hwrite
  refine ⟨s, gone, _, hrows, hgone, hwrote, ?_, fun i ↦ ht.mem_places_markedBelow⟩
  exact List.pairwise_map.mpr (hwritable.follows.imp And.left)

end AddressPlan.NodeTree
