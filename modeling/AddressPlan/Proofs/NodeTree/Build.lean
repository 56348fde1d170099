import AddressPlan.NodeTree.Build
import AddressPlan.Proofs.NodeTree.Places
import AddressPlan.Proofs.Rows.Ancestry
import Mathlib.Data.List.Perm.Subperm

/-!
# Growing a tree from rows

Building starts with a root row and adds one row after the other, each behind the slot it
names as its parent and under an id that is not there yet.  So the tree is rooted, its ids
are distinct, and its parent places agree with the parent ids of its rows.  A tree with as
many slots as there are rows holds all of them, and rows that form a tree are all found.
-/

namespace AddressPlan.NodeTree

open Rows

/-- What building can come to from a list of rows. -/
inductive Grown (rows : List Node) : List Slot → Prop where
  | root {n : Node} (hn : n ∈ rows) (hroot : n.isRoot = true) : Grown rows [⟨n, none⟩]
  | adopt {slots : List Slot} {s : Slot} {p : Nat} {n : Node} (hgrown : Grown rows slots)
    (hs : slots[p]? = some s) (hn : n ∈ rows) (hroot : n.isRoot = false)
    (hparent : n.parentId = s.node.id) (hfree : hasId slots n.id = false) :
    Grown rows (slots ++ [⟨n, some p⟩])

variable {rows : List Node} {slots : List Slot}

theorem hasId_eq_false {id : Int} :
    hasId slots id = false ↔ ∀ s ∈ slots, s.node.id ≠ id := by
  simp [hasId]

theorem mem_kin {id : Int} {n : Node} :
    n ∈ kin rows id ↔ n ∈ rows ∧ n.isRoot = false ∧ n.parentId = id := by
  rw [kin, (Order.sortBy_perm _ _).mem_iff]
  simp

theorem Grown.foldl_adopt {s : Slot} {i : Nat} (ns : List Node)
    (hns : ∀ n ∈ ns, n ∈ rows ∧ n.isRoot = false ∧ n.parentId = s.node.id)
    (h : Grown rows slots) (hs : slots[i]? = some s) :
    Grown rows (ns.foldl (NodeTree.adopt i) slots) := by
  induction ns generalizing slots with
  | nil => exact h
  | cons n ns ih =>
    rw [List.foldl_cons]
    have hns' := fun m hm ↦ hns m (List.mem_cons_of_mem _ hm)
    obtain ⟨hn, hroot, hparent⟩ := hns n List.mem_cons_self
    unfold NodeTree.adopt
    split
    · exact ih hns' h hs
    · rename_i hfree
      apply ih hns' (h.adopt hs hn hroot hparent (by simpa using hfree))
      rw [List.getElem?_append_left (List.getElem?_eq_some_iff.mp hs).1, hs]

theorem Grown.expand (h : Grown rows slots) (i : Nat) : Grown rows (expand rows slots i) := by
  unfold NodeTree.expand
  split
  · exact h
  · rename_i s hs
    exact h.foldl_adopt _ (fun n hn ↦ mem_kin.mp hn) hs

theorem build_slots_grown (rows : List Node) :
    build rows = {} ∨ Grown rows (build rows).slots := by
  unfold build
  split
  · exact Or.inl rfl
  · rename_i root hroot
    right
    refine List.foldlRecOn (motive := Grown rows) _ _ ?_ fun slots hgrown i _ ↦ hgrown.expand i
    exact Grown.root (List.mem_of_find?_eq_some hroot) (List.find?_some hroot)

/-! ## What holds of every grown tree -/

/-- Parent places agree with parent ids, and ids are distinct. -/
structure Linked (t : NodeTree) : Prop where
  nodup : (t.flatten.map Node.id).Nodup
  top : ∀ n, t.node? 0 = some n → n.isRoot = true
  link : ∀ i p n m, t.parent? i = some p → t.node? i = some n → t.node? p = some m →
    n.isRoot = false ∧ n.parentId = m.id

theorem Linked.place_eq {t : NodeTree} (h : t.Linked) {i j : Nat} {n m : Node}
    (hn : t.node? i = some n) (hm : t.node? j = some m) (hid : n.id = m.id) : i = j := by
  have hget : ∀ k, (t.flatten.map Node.id)[k]? = (t.node? k).map Node.id := by
    intro k
    rw [List.getElem?_map, getElem?_flatten]
  have hlt : i < (t.flatten.map Node.id).length := by
    simpa [flatten, size] using lt_size_iff.mpr ⟨n, hn⟩
  apply (List.getElem?_inj hlt h.nodup).mp
  rw [hget, hget, hn, hm, Option.map_some, Option.map_some, hid]

/-- A node that does not stand at the top has the node that it names in front of it. -/
theorem Linked.exists_above {t : NodeTree} (h : t.Linked) (ht : t.Rooted) {i : Nat} {n : Node}
    (hpos : 0 < i) (hn : t.node? i = some n) :
    ∃ p m, p < i ∧ t.parent? i = some p ∧ t.node? p = some m ∧ n.isRoot = false ∧
      n.parentId = m.id := by
  obtain ⟨p, hlt, hp⟩ := ht.parent i hpos (lt_size_iff.mpr ⟨n, hn⟩)
  obtain ⟨m, hm⟩ := ht.exists_parent_node hp
  exact ⟨p, m, hlt, hp, hm, h.link i p n m hp hn hm⟩

section Append

variable {s : Slot} {i : Nat}

theorem node?_append_of_lt (hi : i < slots.length) :
    node? ⟨slots ++ [s]⟩ i = node? ⟨slots⟩ i := by
  simp [node?, List.getElem?_append_left hi]

theorem parent?_append_of_lt (hi : i < slots.length) :
    parent? ⟨slots ++ [s]⟩ i = parent? ⟨slots⟩ i := by
  simp [parent?, List.getElem?_append_left hi]

theorem node?_append_length : node? ⟨slots ++ [s]⟩ slots.length = some s.node := by
  simp [node?]

theorem parent?_append_length : parent? ⟨slots ++ [s]⟩ slots.length = s.parent := by
  simp [parent?]

end Append

theorem Grown.rooted (h : Grown rows slots) : Rooted ⟨slots⟩ := by
  induction h with
  | root hn hroot =>
    refine ⟨rfl, fun i hpos hi ↦ ?_⟩
    have hi' : i < 1 := hi
    omega
  | @adopt slots s p n hgrown hs hn hroot hparent hfree ih =>
    have hp : p < slots.length := (List.getElem?_eq_some_iff.mp hs).1
    refine ⟨?_, fun i hpos hi ↦ ?_⟩
    · rw [parent?_append_of_lt (by omega)]
      exact ih.top
    · have hi' : i < slots.length + 1 := by simpa [size] using hi
      rcases Nat.lt_succ_iff_lt_or_eq.mp hi' with hlt | rfl
      · obtain ⟨q, hq, hparent⟩ := ih.parent i hpos hlt
        exact ⟨q, hq, (parent?_append_of_lt hlt).trans hparent⟩
      · exact ⟨p, hp, parent?_append_length⟩

theorem Grown.linked (h : Grown rows slots) : Linked ⟨slots⟩ := by
  induction h with
  | root hn hroot =>
    refine ⟨by simp [flatten], fun n hn ↦ ?_, fun i p n m hp ↦ ?_⟩
    · cases hn
      exact hroot
    · rcases i with - | i
      · cases hp
      · cases hp
  | @adopt slots s p n hgrown hs hn hroot hparent hfree ih =>
    have hlt : p < slots.length := (List.getElem?_eq_some_iff.mp hs).1
    refine ⟨?_, fun m hm ↦ ?_, fun i q m m' hq hm hm' ↦ ?_⟩
    · simp only [flatten, List.map_append, List.map_cons, List.map_nil, List.nodup_append]
      refine ⟨ih.nodup, List.nodup_singleton _, fun a ha b hb ↦ ?_⟩
      simp only [List.map_map, List.mem_map, Function.comp_apply] at ha
      obtain ⟨s', hs', rfl⟩ := ha
      exact List.mem_singleton.mp hb ▸ hasId_eq_false.mp hfree s' hs'
    · rw [node?_append_of_lt (by omega)] at hm
      exact ih.top m hm
    · have hi : i < slots.length + 1 := by simpa [size] using lt_size_of_parent? hq
      rcases Nat.lt_succ_iff_lt_or_eq.mp hi with hi | rfl
      · rw [parent?_append_of_lt hi] at hq
        have hqi := hgrown.rooted.lt_of_parent? hq
        rw [node?_append_of_lt hi] at hm
        rw [node?_append_of_lt (by omega)] at hm'
        exact ih.link i q m m' hq hm hm'
      · rw [parent?_append_length] at hq
        rw [node?_append_length] at hm
        cases hq
        cases hm
        rw [node?_append_of_lt hlt, node?, hs] at hm'
        cases hm'
        exact ⟨hroot, hparent⟩

theorem Grown.subset (h : Grown rows slots) : ∀ n ∈ (NodeTree.mk slots).flatten, n ∈ rows := by
  induction h with
  | root hn hroot => simpa [flatten] using hn
  | adopt hgrown hs hn hroot hparent hfree ih =>
    intro m hm
    simp only [flatten, List.map_append, List.mem_append, List.map_cons, List.map_nil,
      List.mem_singleton] at hm
    rcases hm with hm | rfl
    · exact ih m hm
    · exact hn

/-! ## What holds of a built tree -/

theorem build_rooted (rows : List Node) : (build rows).Rooted := by
  rcases build_slots_grown rows with hempty | hgrown
  · rw [hempty]
    exact ⟨rfl, fun i _ hi ↦ absurd hi i.not_lt_zero⟩
  · exact hgrown.rooted

theorem build_linked (rows : List Node) : (build rows).Linked := by
  rcases build_slots_grown rows with hempty | hgrown
  · rw [hempty]
    refine ⟨List.nodup_nil, fun n hn ↦ ?_, fun i p n m hp ↦ ?_⟩
    · cases hn
    · cases hp
  · exact hgrown.linked

theorem mem_of_mem_build {n : Node} (hn : n ∈ (build rows).flatten) : n ∈ rows := by
  rcases build_slots_grown rows with hempty | hgrown
  · rw [hempty] at hn
    cases hn
  · exact hgrown.subset n hn

/-- A tree with as many slots as there are rows holds each row once. -/
theorem build_perm (h : (build rows).size = rows.length) : (build rows).flatten.Perm rows := by
  have hnodup : (build rows).flatten.Nodup := (build_linked rows).nodup.of_map
  refine (List.subperm_of_subset hnodup fun n hn ↦ mem_of_mem_build hn).perm_of_length_le ?_
  rw [flatten, List.length_map, ← h]
  exact Nat.le_refl _

/-! ## Rows that form a tree are all found -/

theorem hasId_eq_true {id : Int} : hasId slots id = true ↔ ∃ s ∈ slots, s.node.id = id := by
  simp [hasId]

theorem hasId_of_extends {slots' : List Slot} (h : slots <+: slots') {id : Int}
    (hid : hasId slots id = true) : hasId slots' id = true := by
  obtain ⟨s, hs, hid⟩ := hasId_eq_true.mp hid
  exact hasId_eq_true.mpr ⟨s, h.subset hs, hid⟩

theorem adopt_extends (i : Nat) (slots : List Slot) (n : Node) : slots <+: adopt i slots n := by
  unfold adopt
  split
  · exact List.prefix_rfl
  · exact List.prefix_append ..

theorem hasId_adopt (i : Nat) (slots : List Slot) (n : Node) :
    hasId (adopt i slots n) n.id = true := by
  unfold adopt
  split
  · assumption
  · exact hasId_eq_true.mpr ⟨_, List.mem_concat_self, rfl⟩

theorem foldl_adopt_extends (i : Nat) (ns : List Node) (slots : List Slot) :
    slots <+: ns.foldl (adopt i) slots := by
  induction ns generalizing slots with
  | nil => exact List.prefix_rfl
  | cons n ns ih => exact (adopt_extends i slots n).trans (ih _)

theorem hasId_foldl_adopt {i : Nat} {ns : List Node} {n : Node} (hn : n ∈ ns) :
    hasId (ns.foldl (adopt i) slots) n.id = true := by
  induction ns generalizing slots with
  | nil => cases hn
  | cons m ns ih =>
    rcases List.mem_cons.mp hn with rfl | hn
    · exact hasId_of_extends (foldl_adopt_extends i ns _) (hasId_adopt i slots n)
    · exact ih hn

theorem expand_extends (rows : List Node) (slots : List Slot) (i : Nat) :
    slots <+: expand rows slots i := by
  unfold expand
  split
  · exact List.prefix_rfl
  · exact foldl_adopt_extends ..

/-- The rows that name one of the first `k` slots as their parent are in the tree. -/
def ExpandedTo (rows : List Node) (k : Nat) (slots : List Slot) : Prop :=
  ∀ i s, i < k → slots[i]? = some s → ∀ n ∈ kin rows s.node.id, hasId slots n.id = true

theorem ExpandedTo.succ {k : Nat} (h : ExpandedTo rows k slots) :
    ExpandedTo rows (k + 1) (expand rows slots k) := by
  intro i s hi hs n hn
  cases hk : slots[k]? with
  | none =>
    -- Behind the last slot nothing is left to expand.
    have hsame : expand rows slots k = slots := by
      unfold expand
      rw [hk]
    rw [hsame] at hs ⊢
    have hlast := List.getElem?_eq_none_iff.mp hk
    have hlt := (List.getElem?_eq_some_iff.mp hs).1
    exact h i s (by omega) hs n hn
  | some parent =>
    have hlt := (List.getElem?_eq_some_iff.mp hk).1
    obtain ⟨more, hmore⟩ := expand_extends rows slots k
    have hsame : slots[i]? = some s := by
      rwa [← hmore, List.getElem?_append_left (by omega)] at hs
    rcases Nat.lt_succ_iff_lt_or_eq.mp hi with hlt' | rfl
    · exact hasId_of_extends ⟨more, hmore⟩ (h i s hlt' hsame n hn)
    · unfold expand
      rw [hsame]
      exact hasId_foldl_adopt hn

theorem expandedTo_foldl (rows : List Node) (slots : List Slot) (k : Nat) :
    ExpandedTo rows k ((List.range k).foldl (expand rows) slots) := by
  induction k with
  | zero => exact fun i s hi ↦ absurd hi i.not_lt_zero
  | succ k ih =>
    rw [List.range_succ, List.foldl_concat]
    exact ih.succ

theorem foldl_expand_extends (rows : List Node) (slots : List Slot) (places : List Nat) :
    slots <+: places.foldl (expand rows) slots := by
  induction places generalizing slots with
  | nil => exact List.prefix_rfl
  | cons i places ih => exact (expand_extends rows slots i).trans (ih _)

theorem Grown.length_le (h : Grown rows slots) : slots.length ≤ rows.length := by
  have hsub := List.subperm_of_subset h.linked.nodup.of_map h.subset
  simpa [flatten] using hsub.length_le

theorem build_slots_expanded (rows : List Node) :
    ExpandedTo rows rows.length (build rows).slots := by
  unfold build
  split
  · intro i s _ hs
    cases hs
  · exact expandedTo_foldl rows _ rows.length

/-- Every row that names a row of the tree as its parent is in the tree. -/
theorem build_closed {n m : Node} (hm : m ∈ (build rows).flatten) (hn : n ∈ rows)
    (hroot : n.isRoot = false) (hparent : n.parentId = m.id) :
    hasId (build rows).slots n.id = true := by
  have hgrown : Grown rows (build rows).slots := by
    refine (build_slots_grown rows).resolve_left fun hempty ↦ ?_
    rw [hempty] at hm
    cases hm
  have hle := hgrown.length_le
  obtain ⟨s, hs, rfl⟩ := List.mem_map.mp hm
  obtain ⟨i, hi, hs⟩ := List.getElem_of_mem hs
  exact build_slots_expanded rows i s (by omega) (List.getElem?_eq_some_iff.mpr ⟨hi, hs⟩) n
    (mem_kin.mpr ⟨hn, hroot, hparent⟩)

theorem mem_build_of_hasId (hids : (rows.map Node.id).Nodup) {n : Node} (hn : n ∈ rows)
    (hid : hasId (build rows).slots n.id = true) : n ∈ (build rows).flatten := by
  obtain ⟨s, hs, hid⟩ := hasId_eq_true.mp hid
  have hmem : s.node ∈ (build rows).flatten := List.mem_map_of_mem hs
  exact List.inj_on_of_nodup_map hids (mem_of_mem_build hmem) hn hid ▸ hmem

theorem node?_build_zero {root : Node} (hroot : rows.find? Node.isRoot = some root) :
    (build rows).node? 0 = some root := by
  obtain ⟨more, hmore⟩ := foldl_expand_extends rows [⟨root, none⟩] (List.range rows.length)
  have hslots : (build rows).slots = [⟨root, none⟩] ++ more := by
    unfold build
    rw [hroot]
    exact hmore.symm
  rw [node?, hslots]
  rfl

/-- Of rows that form a tree the built tree holds each once. -/
theorem build_perm_of_isTree {root : Node} (hids : (rows.map Node.id).Nodup)
    (h : IsTree rows root) : (build rows).flatten.Perm rows := by
  have htop : root ∈ (build rows).flatten :=
    mem_flatten.mpr ⟨0, node?_build_zero (find?_isRoot_of_roots h.roots)⟩
  have hall : ∀ {c : Int}, Below rows c root.id → ∀ n ∈ rows, n.id = c →
      n ∈ (build rows).flatten := by
    intro c hbelow
    induction hbelow using Relation.ReflTransGen.head_induction_on with
    | refl => exact fun n hn hid ↦ List.inj_on_of_nodup_map hids hn h.root_mem hid ▸ htop
    | head hlink hrest ih =>
      obtain ⟨m, hm, rfl, rfl⟩ := hlink
      intro n hn hid
      obtain rfl := List.inj_on_of_nodup_map hids hn hm hid
      by_cases hroot : n.isRoot
      · exact h.eq_root hn hroot ▸ htop
      · obtain ⟨p, hp, hpid⟩ := h.parents n hn (by simpa using hroot)
        exact mem_build_of_hasId hids hn
          (build_closed (ih p hp hpid) hn (by simpa using hroot) hpid.symm)
  refine (List.perm_ext_iff_of_nodup (build_linked rows).nodup.of_map hids.of_map).mpr ?_
  exact fun n ↦ ⟨mem_of_mem_build, fun hn ↦ hall (h.below_root n hn) n hn rfl⟩

end AddressPlan.NodeTree
