import AddressPlan.Proofs.NodeTree.Rebuild
import Mathlib.Data.List.Sort
import Mathlib.Order.Bounds.Basic

/-!
# Searching breadth-first

A search keeps a queue of places: it takes the first one and puts what it finds from there at
the end.  Building is such a search among the rows, and it comes to an end with all that can be
reached from the first root.  A search along the children of the tree meets the slots in the
order in which they stand.
-/

namespace AddressPlan

open Rows

/-- The search has found something and still has some places to look at; it comes to an end
with the result. -/
inductive Search {α : Type} (look : α → Nat → α × List Nat) : α → List Nat → α → Prop
  | done (found : α) : Search look found [] found
  | next {found result : α} {i : Nat} {queue : List Nat}
    (h : Search look (look found i).1 (queue ++ (look found i).2) result) :
    Search look found (i :: queue) result

namespace Search

variable {α : Type} {look : α → Nat → α × List Nat} {found result result' : α} {queue : List Nat}

theorem unique (h : Search look found queue result) (h' : Search look found queue result') :
    result = result' := by
  induction h with
  | done =>
    cases h'
    rfl
  | next _ ih =>
    cases h' with
    | next h' => exact ih h'

theorem iff_eq (h : Search look found queue result) (result' : α) :
    Search look found queue result' ↔ result' = result :=
  ⟨fun h' ↦ h'.unique h, fun heq ↦ heq ▸ h⟩

/-- A search that takes the places in turn ends where the next place is the first one that it has
not found. -/
theorem of_rounds {state : Nat → α} {count : Nat → Nat} {last : Nat}
    (hround : ∀ k < last, look (state k) k =
      (state (k + 1), List.range' (count k) (count (k + 1) - count k)))
    (hahead : ∀ k < last, k < count k) (hgrow : ∀ k, count k ≤ count (k + 1))
    (hlast : count last = last) {k : Nat} (hk : k ≤ last) :
    Search look (state k) (List.range' k (count k - k)) (state last) := by
  induction hk using Nat.decreasingInduction with
  | self =>
    rw [hlast, Nat.sub_self]
    exact done _
  | of_succ k hk ih =>
    have hlt := hahead k hk
    have hle := hgrow k
    have hqueue : List.range' (k + 1) (count k - k - 1) ++
        List.range' (count k) (count (k + 1) - count k) =
          List.range' (k + 1) (count (k + 1) - (k + 1)) := by
      have happend := List.range'_append_1 (s := k + 1) (m := count k - k - 1)
        (n := count (k + 1) - count k)
      rw [show k + 1 + (count k - k - 1) = count k by omega] at happend
      rw [happend]
      congr 1
      omega
    rw [show count k - k = count k - k - 1 + 1 by omega, List.range'_succ]
    refine next ?_
    rw [hround k hk, hqueue]
    exact ih

end Search

namespace NodeTree

variable {t : NodeTree} {rows : List Node} {root : Node} {i k : Nat}

/-- Looks for the rows that name the node at a place as their parent. -/
def discover (rows : List Node) (slots : List Slot) (i : Nat) : List Slot × List Nat :=
  let slots' := expand rows slots i
  (slots', List.range' slots.length (slots'.length - slots.length))

/-- Lists a place and goes on with its children. -/
def visit (t : NodeTree) (order : List Nat) (i : Nat) : List Nat × List Nat :=
  (order ++ [i], (t.children i).map Placed.place)

/-! ## Stages of a tree in breadth-first order -/

theorem BreadthFirst.rank_le_iff (h : t.BreadthFirst) {s : Slot} (hs : t.slots[i]? = some s) :
    s.rank ≤ k ↔ i < (t.stage k).length := by
  rw [← h.stage_append k] at hs
  constructor
  · intro hrank
    by_contra hi
    rw [List.getElem?_append_right (Nat.le_of_not_lt hi)] at hs
    have hbehind := (List.mem_filter.mp (List.mem_of_getElem? hs)).2
    exact absurd (decide_eq_true_eq.mp hbehind) (Nat.not_lt.mpr hrank)
  · intro hi
    rw [List.getElem?_append_left hi] at hs
    exact decide_eq_true_eq.mp (List.mem_filter.mp (List.mem_of_getElem? hs)).2

theorem BreadthFirst.length_stage_le (h : t.BreadthFirst) (k : Nat) :
    (t.stage k).length ≤ (t.stage (k + 1)).length := by
  rw [h.stage_succ, List.length_append]
  exact Nat.le_add_right _ _

theorem BreadthFirst.lt_length_stage (h : t.BreadthFirst) (ht : t.Rooted) (hk : k < t.size) :
    k < (t.stage k).length := by
  obtain ⟨s, hs⟩ : ∃ s, t.slots[k]? = some s := ⟨_, List.getElem?_eq_getElem hk⟩
  exact (h.rank_le_iff hs).mp (ht.rank_le hs)

theorem rank_eq_succ_iff {s : Slot} : s.rank = k + 1 ↔ s.parent = some k := by
  cases hparent : s.parent with
  | none => simp [Slot.rank, hparent]
  | some p => simp [Slot.rank, hparent]

/-- The children of a place stand side by side, right behind the slots of its stage. -/
theorem BreadthFirst.children_places (h : t.BreadthFirst) (ht : t.Rooted) (k : Nat) :
    (t.children k).map Placed.place =
      List.range' (t.stage k).length ((t.stage (k + 1)).length - (t.stage k).length) := by
  have hle := h.length_stage_le k
  refine List.Pairwise.eq_of_mem_iff (List.pairwise_map.mpr (children_pairwise t k))
    List.pairwise_lt_range' fun i ↦ ?_
  rw [List.mem_range'_1]
  constructor
  · intro hi
    obtain ⟨c, hc, rfl⟩ := List.mem_map.mp hi
    obtain ⟨s, hs, hparent⟩ := parent?_eq_some_iff.mp (ht.mem_children.mp hc).2
    have hrank := rank_eq_succ_iff.mpr hparent
    have hfront := h.rank_le_iff (k := k) hs
    have hupto := h.rank_le_iff (k := k + 1) hs
    omega
  · intro hi
    have hsize : i < t.slots.length := by
      have hlength := List.length_filter_le (fun s : Slot ↦ decide (s.rank ≤ k + 1)) t.slots
      have hstage : (t.stage (k + 1)).length ≤ t.slots.length := hlength
      omega
    have hs := List.getElem?_eq_getElem hsize
    have hfront := h.rank_le_iff (k := k) hs
    have hupto := h.rank_le_iff (k := k + 1) hs
    have hparent := rank_eq_succ_iff.mp (show t.slots[i].rank = k + 1 by omega)
    exact List.mem_map.mpr ⟨⟨i, t.slots[i].node⟩, ht.mem_children.mpr
      ⟨node?_eq_some_iff.mpr ⟨_, hs, rfl⟩, parent?_eq_some_iff.mpr ⟨_, hs, hparent⟩⟩, rfl⟩

/-- Along its children, a tree in breadth-first order is met as it stands. -/
theorem BreadthFirst.search_visit (h : t.BreadthFirst) (ht : t.Rooted) (hsize : 0 < t.size) :
    Search t.visit [] [0] (List.range t.size) := by
  have hrounds : ∀ k < t.size, t.visit (List.range k) k = (List.range (k + 1),
      List.range' (t.stage k).length ((t.stage (k + 1)).length - (t.stage k).length)) := by
    intro k _
    rw [visit, h.children_places ht, List.range_succ]
  obtain ⟨s, hs⟩ : ∃ s, t.slots[0]? = some s := ⟨_, List.getElem?_eq_getElem hsize⟩
  have hsearch := Search.of_rounds hrounds
    (fun k hk ↦ h.lt_length_stage ht hk) h.length_stage_le
    (congrArg List.length (ht.stage_eq (Nat.le_succ _))) (Nat.zero_le _)
  rwa [ht.stage_zero hs] at hsearch

/-! ## Building in stages -/

theorem exists_expand (rows : List Node) (slots : List Slot) (i : Nat) :
    ∃ ms : List Node, expand rows slots i = slots ++ ms.map (fun m ↦ ⟨m, some i⟩) ∧
      ∀ s, slots[i]? = some s → ms.Sublist (kin rows s.node.id) := by
  unfold expand
  cases slots[i]? with
  | none => exact ⟨[], (List.append_nil _).symm, fun s hs ↦ by cases hs⟩
  | some parent =>
    obtain ⟨ms, hsub, hfold⟩ := exists_foldl_adopt i (kin rows parent.node.id) slots
    exact ⟨ms, hfold, fun s hs ↦ Option.some.inj hs ▸ hsub⟩

/-- Places from `k` on adopt nothing for a place in front of them. -/
theorem exists_foldl_expand (rows : List Node) (slots : List Slot) (k count : Nat) :
    ∃ more, (List.range' k count).foldl (expand rows) slots = slots ++ more ∧
      ∀ s ∈ more, k < s.rank := by
  induction count generalizing slots k with
  | zero => exact ⟨[], (List.append_nil _).symm, fun s hs ↦ absurd hs List.not_mem_nil⟩
  | succ count ih =>
    obtain ⟨ms, hexpand, -⟩ := exists_expand rows slots k
    obtain ⟨more, hmore, hrank⟩ := ih (expand rows slots k) (k + 1)
    refine ⟨ms.map (fun m ↦ ⟨m, some k⟩) ++ more, ?_, fun s hs ↦ ?_⟩
    · rw [List.range'_succ, List.foldl_cons, hmore, hexpand, List.append_assoc]
    · rcases List.mem_append.mp hs with hs | hs
      · obtain ⟨m, -, rfl⟩ := List.mem_map.mp hs
        exact Nat.lt_succ_self k
      · exact Nat.lt_of_succ_lt (hrank s hs)

theorem foldl_expand_eq_stage (hroot : rows.find? Node.isRoot = some root)
    (hk : k ≤ rows.length) :
    (List.range k).foldl (expand rows) [⟨root, none⟩] = (build rows).stage k := by
  obtain ⟨more, hmore, hbehind⟩ := exists_foldl_expand rows
    ((List.range k).foldl (expand rows) [⟨root, none⟩]) k (rows.length - k)
  have hfront := (foldl_expand_breadthFirst rows root k).2
  have hrange : List.range rows.length = List.range k ++ List.range' k (rows.length - k) := by
    have happend := List.range'_append_1 (s := 0) (m := k) (n := rows.length - k)
    rw [Nat.zero_add, Nat.add_sub_cancel' hk] at happend
    rw [List.range_eq_range', List.range_eq_range', happend]
  have hslots : (build rows).slots =
      (List.range k).foldl (expand rows) [⟨root, none⟩] ++ more := by
    unfold build
    rw [hroot, ← hmore, ← List.foldl_append, ← hrange]
  rw [stage, hslots, List.filter_append,
    List.filter_eq_self.mpr fun s hs ↦ decide_eq_true (hfront s hs),
    List.filter_eq_nil_iff.mpr fun s hs hle ↦ ?_, List.append_nil]
  exact absurd (decide_eq_true_eq.mp hle) (Nat.not_le.mpr (hbehind s hs))

theorem expand_build_stage (hroot : rows.find? Node.isRoot = some root) (hk : k < rows.length) :
    expand rows ((build rows).stage k) k = (build rows).stage (k + 1) := by
  rw [← foldl_expand_eq_stage hroot (Nat.le_of_lt hk), ← foldl_expand_eq_stage hroot hk,
    List.range_succ, List.foldl_concat]

theorem build_size_le (rows : List Node) : (build rows).size ≤ rows.length := by
  rcases build_slots_grown rows with hempty | hgrown
  · rw [hempty]
    exact Nat.zero_le _
  · exact hgrown.length_le

theorem search_discover (hroot : rows.find? Node.isRoot = some root) :
    Search (discover rows) [⟨root, none⟩] [0] (build rows).slots := by
  have hsize := build_size_le rows
  have hrounds : ∀ k < (build rows).size, discover rows ((build rows).stage k) k =
      ((build rows).stage (k + 1), List.range' ((build rows).stage k).length
        (((build rows).stage (k + 1)).length - ((build rows).stage k).length)) := by
    intro k hk
    rw [discover, expand_build_stage hroot (Nat.lt_of_lt_of_le hk hsize)]
  have hlast := (build_rooted rows).stage_eq (Nat.le_succ _)
  have hsearch := Search.of_rounds hrounds
    (fun k hk ↦ (build_breadthFirst rows).lt_length_stage (build_rooted rows) hk)
    (build_breadthFirst rows).length_stage_le (congrArg List.length hlast) (Nat.zero_le _)
  rwa [hlast, ← foldl_expand_eq_stage hroot (Nat.zero_le _)] at hsearch

/-! ## Children of a built tree -/

theorem Rooted.children_nodes (ht : t.Rooted) (k : Nat) :
    (t.children k).map Placed.node =
      (t.slots.filter fun s ↦ decide (s.rank = k + 1)).map Slot.node := by
  rw [children, List.map_filterMap, ← List.filterMap_eq_map, List.filterMap_filter]
  nth_rewrite 2 [← List.zipIdx_map_fst 0 t.slots]
  rw [List.filterMap_map]
  refine List.filterMap_congr fun a hmem ↦ ?_
  obtain ⟨s, j⟩ := a
  have hs := List.mem_zipIdx_iff_getElem?.mp hmem
  have hiff : (k < j ∧ s.parent = some k) ↔ s.rank = k + 1 := by
    rw [rank_eq_succ_iff]
    refine and_iff_right_of_imp fun hparent ↦ ?_
    exact ht.lt_of_parent? (parent?_eq_some_iff.mpr ⟨s, hs, hparent⟩)
  by_cases hrank : s.rank = k + 1
  · simp [hiff.mpr hrank, hrank]
  · simp [hiff.not.mpr hrank, hrank]

/-- Of the rows that name the node at a place as their parent, the tree keeps those that come
first under their ids. -/
theorem children_sublist_kin (hroot : rows.find? Node.isRoot = some root) (k : Nat) :
    ∃ id, (((build rows).children k).map Placed.node).Sublist (kin rows id) := by
  have hrooted := build_rooted rows
  have hbreadth := build_breadthFirst rows
  cases hk : (build rows).slots[k]? with
  | none =>
    have hnone : (build rows).children k = [] := by
      refine List.eq_nil_iff_forall_not_mem.mpr fun c hc ↦ ?_
      have hlt := lt_of_mem_children hc
      have hsize : (build rows).size ≤ k := List.getElem?_eq_none_iff.mp hk
      omega
    exact ⟨0, hnone ▸ List.nil_sublist _⟩
  | some s =>
    have hlt : k < (build rows).size := (List.getElem?_eq_some_iff.mp hk).1
    obtain ⟨ms, hexpand, hsub⟩ := exists_expand rows ((build rows).stage k) k
    rw [expand_build_stage hroot (Nat.lt_of_lt_of_le hlt (build_size_le rows)),
      hbreadth.stage_succ] at hexpand
    have hnodes : ms.map (Slot.node ∘ fun m ↦ ⟨m, some k⟩) = ms := List.map_id ms
    rw [hrooted.children_nodes, List.append_cancel_left hexpand, List.map_map, hnodes]
    exact ⟨s.node.id, hsub s ((hbreadth.getElem?_stage hrooted k).trans hk)⟩

/-- Rows of one sequence number keep the order in which they came. -/
theorem filter_sublist_of_sublist_kin {ns : List Node} {id : Int} (h : ns.Sublist (kin rows id))
    (sequence : Int) : (ns.filter fun n ↦ n.sequence == sequence).Sublist rows := by
  refine (h.filter _).trans ?_
  rw [kin, Order.filter_sortBy]
  · exact List.filter_sublist.trans List.filter_sublist
  · intro a b ha hb
    rw [beq_iff_eq] at ha hb
    exact decide_eq_true (by omega)

/-! ## What building finds -/

/-- The ids hold that of the root and, with any id, those of all rows that name it as their
parent. -/
structure ClosedBelow (rows : List Node) (root : Node) (ids : Set Int) : Prop where
  root : root.id ∈ ids
  child : ∀ n ∈ rows, n.isRoot = false → n.parentId ∈ ids → n.id ∈ ids

theorem isLeast_ids (hroot : rows.find? Node.isRoot = some root) :
    IsLeast {ids | ClosedBelow rows root ids} {id | ∃ n ∈ (build rows).flatten, n.id = id} := by
  have htop := node?_build_zero hroot
  refine ⟨⟨⟨root, mem_flatten.mpr ⟨0, htop⟩, rfl⟩, fun n hn hisRoot hparent ↦ ?_⟩, ?_⟩
  · obtain ⟨m, hm, hid⟩ := hparent
    obtain ⟨s, hs, hsid⟩ := hasId_eq_true.mp (build_closed hm hn hisRoot hid.symm)
    exact ⟨s.node, List.mem_map_of_mem hs, hsid⟩
  · rintro ids hids _ ⟨n, hn, rfl⟩
    obtain ⟨i, hi⟩ := mem_flatten.mp hn
    induction i using Nat.strongRecOn generalizing n with
    | _ i ih =>
      rcases Nat.eq_zero_or_pos i with rfl | hpos
      · cases htop.symm.trans hi
        exact hids.root
      · obtain ⟨p, m, hlt, -, hm, hisRoot, hparent⟩ :=
          (build_linked rows).exists_above (build_rooted rows) hpos hi
        exact hids.child n (mem_of_mem_build hn) hisRoot
          (hparent ▸ ih p hlt m (mem_flatten.mpr ⟨p, hm⟩) hm)

/-- The tree is what a breadth-first search among the rows finds from the root. -/
structure FoundFrom (rows : List Node) (root : Node) (t : NodeTree) : Prop where
  search : ∀ slots, Search (discover rows) [⟨root, none⟩] [0] slots ↔ slots = t.slots
  top : t.node? 0 = some root
  nodup : (t.flatten.map Node.id).Nodup
  least : IsLeast {ids | ClosedBelow rows root ids} {id | ∃ n ∈ t.flatten, n.id = id}
  subset : ∀ n ∈ t.flatten, n ∈ rows
  /-- Every other node is a child of one place only, in front of its own. -/
  child : ∀ i n, 0 < i → t.node? i = some n → n.isRoot = false ∧
    ∃ p < i, ∃ m, t.node? p = some m ∧ m.id = n.parentId ∧ ∀ q, ⟨i, n⟩ ∈ t.children q ↔ q = p
  siblings : ∀ i, ((t.children i).map Placed.node).Pairwise fun n m ↦ n.sequence ≤ m.sequence
  ties : ∀ i sequence,
    (((t.children i).map Placed.node).filter fun n ↦ n.sequence == sequence).Sublist rows
  listing : ∀ order, Search t.visit [] [0] order ↔ order = List.range t.size
  flatten : (List.range t.size).filterMap t.node? = t.flatten

/-- Building finds exactly what can be reached from the first root, breadth-first. -/
theorem build_foundFrom (rows : List Node) :
    (rows.find? Node.isRoot = none → build rows = {}) ∧
      ∀ root, rows.find? Node.isRoot = some root → FoundFrom rows root (build rows) := by
  have hrooted := build_rooted rows
  have hlinked := build_linked rows
  constructor
  · intro hnone
    unfold build
    rw [hnone]
  intro root hroot
  have htop := node?_build_zero hroot
  have hsize : 0 < (build rows).size := lt_size_iff.mpr ⟨root, htop⟩
  exact {
    search := (search_discover hroot).iff_eq
    top := htop
    nodup := hlinked.nodup
    least := isLeast_ids hroot
    subset := fun n ↦ mem_of_mem_build
    child := fun i n hpos hi ↦ by
      obtain ⟨p, m, hlt, hp, hm, hisRoot, hparent⟩ := hlinked.exists_above hrooted hpos hi
      refine ⟨hisRoot, p, hlt, m, hm, hparent.symm, fun q ↦ ?_⟩
      rw [hrooted.mem_children]
      refine (and_iff_right hi).trans ?_
      rw [hp, Option.some.injEq, eq_comm]
    siblings := fun i ↦ by
      obtain ⟨id, hsub⟩ := children_sublist_kin hroot i
      exact (kin_pairwise rows id).sublist hsub
    ties := fun i sequence ↦ by
      obtain ⟨id, hsub⟩ := children_sublist_kin hroot i
      exact filter_sublist_of_sublist_kin hsub sequence
    listing := ((build_breadthFirst rows).search_visit hrooted hsize).iff_eq
    flatten := filterMap_node?_range _ }

/-- Two roots, a repeated id with a child, siblings of one sequence number, and rows that do not
lead to a root. -/
def tangled : List Node :=
  [{ id := 3, parentId := 3, name := "own parent" },
    { id := 5, parentId := 2, name := "grandchild" },
    { id := 2, parentId := 1, name := "second of its id", sequence := 4 },
    { id := 1, name := "root" },
    { id := 2, parentId := 1, name := "first of its id", sequence := 1 },
    { id := 4, parentId := 1, name := "as early", sequence := 1 },
    { id := 6, name := "second root" },
    { id := 7, parentId := 8, name := "cycle" },
    { id := 8, parentId := 7, name := "cycle" },
    { id := 1, parentId := 5, name := "below itself" },
    { id := 9, parentId := 10, name := "orphan" }]

theorem build_tangled :
    tangled.find? Node.isRoot = some { id := 1, name := "root" } ∧
      FoundFrom tangled { id := 1, name := "root" } (build tangled) ∧
      (build tangled).flatten.map Node.name =
        ["root", "first of its id", "as early", "grandchild"] ∧
      build (tangled.take 3) = {} := by
  have hroot : tangled.find? Node.isRoot = some { id := 1, name := "root" } := by decide
  exact ⟨hroot, (build_foundFrom tangled).2 _ hroot, by decide,
    (build_foundFrom (tangled.take 3)).1 (by decide)⟩

end NodeTree

end AddressPlan
