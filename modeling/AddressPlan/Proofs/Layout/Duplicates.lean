import AddressPlan.Proofs.Layout.Rewrite

/-!
# How many rows an update leaves

Every node of the request has a row afterwards: it was written, or its old row stays.  There
are more rows than nodes if a row stays that no node keeps, because the node of that id is
written anew or is not there.
-/

namespace AddressPlan

namespace NodeTree

open Rows

/-- The row stays although no node keeps it. -/
def Leftover (t : NodeTree) (stored : List Node) (r : Node) : Prop :=
  ¬ t.Removed stored r ∧ ∀ i n, t.node? i = some n → n.id = r.id → t.Rewritten stored i

def unwritten (t : NodeTree) (places : List Nat) : List Nat :=
  (List.range t.size).filter (!places.contains ·)

def unwrittenIds (t : NodeTree) (places : List Nat) : List Int :=
  (t.unwritten places).filterMap fun i ↦ (t.node? i).map Node.id

variable {layoutId : Int} {t t' : NodeTree} {old new stored : List Node} {gone : List Int}
  {places : List Nat}

theorem mem_unwritten {i : Nat} : i ∈ t.unwritten places ↔ i < t.size ∧ i ∉ places := by
  simp [unwritten]

theorem length_unwrittenIds (t : NodeTree) (places : List Nat) :
    (t.unwrittenIds places).length = (t.unwritten places).length := by
  rw [unwrittenIds, List.filterMap_length_eq_length]
  intro i hi
  obtain ⟨n, hn⟩ := lt_size_iff.mp (mem_unwritten.mp hi).1
  simp [hn]

theorem Linked.unwrittenIds_nodup (h : t.Linked) (places : List Nat) :
    (t.unwrittenIds places).Nodup := by
  apply (List.nodup_range.filter _).filterMap
  intro i j x hi hj
  obtain ⟨n, hn, rfl⟩ := Option.map_eq_some_iff.mp hi
  obtain ⟨m, hm, hid⟩ := Option.map_eq_some_iff.mp hj
  exact h.place_eq hn hm hid.symm

namespace Rewrite

theorem length_written (h : Rewrite layoutId t old new t' gone places) :
    (places.filterMap t'.node?).length = places.length := by
  rw [List.filterMap_length_eq_length]
  intro i hi
  obtain ⟨n, id, -, hn⟩ := h.written i hi
  simp [hn]

theorem size_eq (h : Rewrite layoutId t old new t' gone places) :
    t.size = (t.unwritten places).length + places.length := by
  have hperm : ((List.range t.size).filter (places.contains ·)).Perm places := by
    apply (List.perm_ext_iff_of_nodup (List.nodup_range.filter _) h.nodup).mpr
    intro i
    simp only [List.mem_filter, List.mem_range, List.contains_eq_mem, decide_eq_true_eq]
    exact and_iff_right_of_imp h.lt_size
  have hsplit := (List.filter_append_perm (places.contains ·) (List.range t.size)).length_eq
  rw [List.length_append, hperm.length_eq, List.length_range] at hsplit
  rw [← hsplit, Nat.add_comm]
  rfl

theorem unwrittenIds_subset (h : Rewrite layoutId t old new t' gone places) :
    t.unwrittenIds places ⊆ (outside (ofLayout old layoutId) gone).map Node.id := by
  intro x hx
  obtain ⟨i, hi, hx⟩ := List.mem_filterMap.mp hx
  obtain ⟨n, hn, rfl⟩ := Option.map_eq_some_iff.mp hx
  obtain ⟨r, hr, hid⟩ := h.exists_row (mem_unwritten.mp hi).2 hn
  exact List.mem_map.mpr ⟨r, hr, hid⟩

theorem length_ofLayout_new (h : Rewrite layoutId t old new t' gone places) :
    (ofLayout new layoutId).length =
      ((outside (ofLayout old layoutId) gone).map Node.id).length + places.length := by
  rw [h.ofLayout_new, List.length_append, h.length_written, List.length_map]

theorem size_le (h : Rewrite layoutId t old new t' gone places) (ht : t.Linked) :
    t.size ≤ (ofLayout new layoutId).length := by
  have hle := ((ht.unwrittenIds_nodup places).subperm h.unwrittenIds_subset).length_le
  rw [length_unwrittenIds] at hle
  rw [h.length_ofLayout_new, h.size_eq]
  omega

theorem mem_unwrittenIds_iff (h : Rewrite layoutId t old new t' gone places) {x : Int} :
    x ∈ t.unwrittenIds places ↔
      ∃ i n, t.node? i = some n ∧ n.id = x ∧ ¬ t.Rewritten (ofLayout old layoutId) i := by
  simp only [unwrittenIds, List.mem_filterMap, mem_unwritten, Option.map_eq_some_iff]
  constructor
  · rintro ⟨i, ⟨-, hi⟩, n, hn, hid⟩
    exact ⟨i, n, hn, hid, fun hrewritten ↦ hi ((h.mem_places i).mpr hrewritten)⟩
  · rintro ⟨i, n, hn, hid, hkept⟩
    exact ⟨i, ⟨lt_size_iff.mpr ⟨n, hn⟩, fun hi ↦ hkept ((h.mem_places i).mp hi)⟩, n, hn, hid⟩

/-- There are as many rows as nodes exactly if no row stays that no node keeps. -/
theorem length_eq_size_iff (h : Rewrite layoutId t old new t' gone places) (ht : t.Linked)
    (hold : Keyed old) :
    (ofLayout new layoutId).length = t.size ↔
      ∀ r ∈ ofLayout old layoutId, ¬ t.Leftover (ofLayout old layoutId) r := by
  have hsub := (ht.unwrittenIds_nodup places).subperm h.unwrittenIds_subset
  have hstay : ((outside (ofLayout old layoutId) gone).map Node.id).Nodup :=
    ((hold.ofLayout layoutId).sublist List.filter_sublist).nodup
  rw [h.length_ofLayout_new, h.size_eq, ← length_unwrittenIds]
  constructor
  · rintro hlength r hr ⟨hstays, hleft⟩
    have hperm := hsub.perm_of_length_le (by omega)
    have hkept : r ∈ outside (ofLayout old layoutId) gone := h.mem_staying.mpr ⟨hr, hstays⟩
    obtain ⟨i, n, hn, hid, hnot⟩ :=
      h.mem_unwrittenIds_iff.mp (hperm.mem_iff.mpr (List.mem_map_of_mem hkept))
    exact hnot (hleft i n hn hid)
  · intro hnone
    have hsup : (outside (ofLayout old layoutId) gone).map Node.id ⊆ t.unwrittenIds places := by
      intro x hx
      obtain ⟨r, hr, rfl⟩ := List.mem_map.mp hx
      obtain ⟨hr, hstays⟩ := h.mem_staying.mp hr
      rw [h.mem_unwrittenIds_iff]
      by_contra hleft
      refine hnone r hr ⟨hstays, fun i n hn hid ↦ ?_⟩
      by_contra hkept
      exact hleft ⟨i, n, hn, hid, hkept⟩
    have hle := (hstay.subperm hsup).length_le
    have hge := hsub.length_le
    omega

end Rewrite

end NodeTree

namespace Layout

open Rows LawfulStore NodeTree

variable {σ : Type} [Store σ] [LawfulStore σ] {l l' : Layout} {s s' : σ}

theorem build_perm_of_checked (h : l.nodes = [] ∨ l.dropTree.OneTree) :
    (build l.nodes).flatten.Perm l.nodes := by
  rcases h with hnil | htree
  · rw [hnil]
    exact .nil
  · exact build_perm htree.size

/-- If the request still has a node for every stored row, an update stores every node of the
request exactly once if and only if no node that is written anew leaves its old row behind:
that row has to be stored below a topmost dirty node, or the root has to be another one. -/
theorem update_rows_eq_request_iff (hs : Sound s)
    (hstored : EmptyOrTree (ofLayout (rows s) l.header.id))
    (hall : ∀ r ∈ ofLayout (rows s) l.header.id, ∃ n ∈ l.nodes, n.id = r.id)
    (hrun : update.run (l, s) = (.ok (), (l', s'))) :
    (ofLayout (rows s') l.header.id).length = l.nodes.length ↔
      ∀ i n, (build l.nodes).node? i = some n →
        (build l.nodes).Rewritten (ofLayout (rows s) l.header.id) i →
        ∀ r ∈ ofLayout (rows s) l.header.id, r.id = n.id →
          (build l.nodes).Removed (ofLayout (rows s) l.header.id) r := by
  obtain ⟨plan, s₀, -, hok, -, t', gone, places, hrewrite⟩ :=
    exists_rewrite_of_update hs hstored hrun
  have hrelabelled := relabelled_requestTree plan l
  have hlinked := build_linked l.nodes
  have hperm := build_perm_of_checked hok
  have hsize : (l.requestTree plan).size = l.nodes.length := by
    rw [hrelabelled.sameShape.size_eq, ← hperm.length_eq, flatten, List.length_map]
    rfl
  rw [← hsize, hrewrite.length_eq_size_iff (hrelabelled.linked hlinked) (keyed hs)]
  constructor
  · intro hnone i n hn hrewritten r hr hid
    by_contra hstays
    refine hnone r hr ⟨fun hremoved ↦ hstays (hrelabelled.removed_iff.mp hremoved), ?_⟩
    intro j m hm hid'
    obtain ⟨m', hm', heq⟩ := hrelabelled.exists_node? hm
    have hsame : m'.id = m.id := by rw [heq]
    have hplace : j = i := hlinked.place_eq hm' hn (hsame.trans (hid'.trans hid))
    exact hrelabelled.rewritten_iff.mpr (hplace ▸ hrewritten)
  · rintro hclean r hr ⟨hstays, hleft⟩
    obtain ⟨n, hn, hid⟩ := hall r hr
    obtain ⟨i, hi⟩ := mem_flatten.mp (hperm.mem_iff.mpr hn)
    obtain ⟨cidr, value, hm⟩ := hrelabelled.of_node? hi
    have hrewritten := hrelabelled.rewritten_iff.mp (hleft i _ hm hid)
    exact hstays (hrelabelled.removed_iff.mpr (hclean i n hi hrewritten r hr hid.symm))

/-! A root with two children, and the update that moves one of them below the other. -/

def planOnly : Database where
  plans := [{ id := 1, cidr := "10.0.0.0/8", maskLength := 24 }]
  lastPlan := 1

def twoChildren : Layout :=
  ofRequest 1 {
    name := "sites"
    nodes := [{ id := 1, name := "root" },
      { id := 2, parentId := 1, name := "a", sequence := 1 },
      { id := 3, parentId := 1, name := "b", sequence := 2 }] }

/-- What saving the two children leaves in the store. -/
def twoChildrenStored : Database :=
  { planOnly with
    headers := [{ twoChildren.header with id := 1 }]
    nodes := twoChildren.nodes.map fun n ↦ { n with layoutId := 1 }
    lastLayout := 1
    lastNode := 3 }

/-- The stored layout with the nodes of a new request. -/
def resent (nodes : List Node) : Layout where
  header := { twoChildren.header with id := 1 }
  nodes := nodes

theorem sound_twoChildrenStored : Sound twoChildrenStored :=
  ⟨⟨by decide, by decide⟩, by decide, by decide⟩

theorem tree_twoChildrenStored : EmptyOrTree (ofLayout (rows twoChildrenStored) 1) := by
  have hchild : ∀ n ∈ ofLayout (rows twoChildrenStored) 1, n.id = 1 ∨ n.parentId = 1 := by
    decide +kernel
  refine Or.inr ⟨{ id := 1, layoutId := 1, name := "root" }, rfl, ?_, fun n hn ↦ ?_⟩
  · unfold ParentsIn
    decide +kernel
  · rcases hchild n hn with hid | hparent
    · exact hid ▸ Below.refl n.id
    · exact Below.head ⟨n, hn, rfl, hparent⟩ (Below.refl 1)

/-- One child is flagged and moves below the other, and a new one comes below it. -/
def movedWithChild : List Node :=
  [{ id := 1, name := "root" },
    { id := 2, parentId := 1, name := "a", sequence := 1 },
    { id := 3, parentId := 2, name := "b", sequence := 2, modified := true },
    { id := -1, parentId := 3, name := "c" }]

/-- The moved child is a topmost dirty node, so that its old row goes away before it and the new
one are written. -/
theorem update_rows_eq_request_iff_movedWithChild :
    ∃ l' s', update.run (resent movedWithChild, twoChildrenStored) = (.ok (), (l', s')) ∧
      (build movedWithChild).Rewritten (ofLayout (rows twoChildrenStored) 1) 2 ∧
      (∃ r ∈ ofLayout (rows twoChildrenStored) 1, r.id = 3 ∧
        (build movedWithChild).Removed (ofLayout (rows twoChildrenStored) 1) r) ∧
      ((ofLayout (rows s') 1).length = 4 ↔
        ∀ i n, (build movedWithChild).node? i = some n →
          (build movedWithChild).Rewritten (ofLayout (rows twoChildrenStored) 1) i →
          ∀ r ∈ ofLayout (rows twoChildrenStored) 1, r.id = n.id →
            (build movedWithChild).Removed (ofLayout (rows twoChildrenStored) 1) r) ∧
      (ofLayout (rows s') 1).map (fun r ↦ (r.id, r.parentId, r.name)) =
        [(1, 0, "root"), (2, 1, "a"), (3, 2, "b"), (4, 3, "c")] := by
  have hrun : update.run (resent movedWithChild, twoChildrenStored) = (.ok (), _) :=
    Step.run_eq_ok_of_fst (by decide +kernel)
  have hnode : (build movedWithChild).node? 2 = some
      { id := 3, parentId := 2, name := "b", sequence := 2, modified := true } := by
    decide +kernel
  have hrewritten : (build movedWithChild).Rewritten (ofLayout (rows twoChildrenStored) 1) 2 :=
    ⟨2, _, Under.refl 2, hnode, Or.inl rfl⟩
  have hiff := update_rows_eq_request_iff sound_twoChildrenStored tree_twoChildrenStored
    (by decide +kernel) hrun
  have hrows : (ofLayout (rows (update.run (resent movedWithChild, twoChildrenStored)).2.2) 1).map
      (fun r ↦ (r.id, r.parentId, r.name)) =
        [(1, 0, "root"), (2, 1, "a"), (3, 2, "b"), (4, 3, "c")] := by
    decide +kernel
  have hlength : (ofLayout (rows (update.run (resent movedWithChild, twoChildrenStored)).2.2)
      1).length = 4 := by
    simpa using congrArg List.length hrows
  have hremoved := hiff.mp hlength 2 _ hnode hrewritten
  exact ⟨_, _, hrun, hrewritten,
    ⟨{ id := 3, layoutId := 1, parentId := 1, name := "b", sequence := 2 }, by decide +kernel, rfl,
      hremoved _ (by decide +kernel) rfl⟩, hiff, hrows⟩

/-- A layout is saved, and then both children are flagged and one moves below the other.  The
old row of the moved one stays beside its new row. -/
theorem update_duplicates_moved_node :
    let moved := resent [{ id := 1, name := "root" },
      { id := 2, parentId := 1, name := "a", sequence := 1, modified := true },
      { id := 3, parentId := 2, name := "b", sequence := 2, modified := true }]
    (save.run (twoChildren, planOnly)).1 = .ok () ∧
      (save.run (twoChildren, planOnly)).2.2 = twoChildrenStored ∧
      (∀ r ∈ ofLayout (rows twoChildrenStored) 1, ∃ n ∈ moved.nodes, n.id = r.id) ∧
      (update.run (moved, twoChildrenStored)).1 = .ok () ∧
      (ofLayout (rows (update.run (moved, twoChildrenStored)).2.2) 1).length =
        moved.nodes.length + 1 := by
  decide +kernel

end Layout

end AddressPlan
