import AddressPlan.Proofs.NodeTree.Build
import AddressPlan.Proofs.Store.Lawful

/-!
# Trees that are found again

A built tree stands in breadth-first order, siblings by their sequence numbers, so it is built
again from its own nodes.  If the ids grow in this order too, then it can be built again from
its nodes as a store lists them, by sequence and then by id: siblings of one sequence number
keep their order.
-/

namespace AddressPlan

open Rows

/-- The place of the parent, counted from 1, and 0 for the root. -/
def Slot.rank (s : Slot) : Nat :=
  s.parent.elim 0 Nat.succ

/-- The slot may stand in front of the other one: its parent does, or they are siblings in
order. -/
def Slot.Precedes (s s' : Slot) : Prop :=
  s.rank < s'.rank ∨ s.rank = s'.rank ∧ s.node.sequence ≤ s'.node.sequence

theorem Slot.Precedes.rank_le {s s' : Slot} (h : s.Precedes s') : s.rank ≤ s'.rank := by
  unfold Slot.Precedes at h
  omega

namespace Order

variable {α : Type}

theorem sortBy_of_pairwise {le : α → α → Bool} {as : List α}
    (h : as.Pairwise fun a b ↦ le a b = true) : sortBy le as = as := by
  induction as with
  | nil => rfl
  | cons a as ih =>
    rw [List.pairwise_cons] at h
    rw [sortBy, ih h.2]
    cases as with
    | nil => rfl
    | cons b bs => rw [insertBy, if_pos (h.1 b List.mem_cons_self)]

theorem lexLe_iff {a b : Int × Int} : lexLe a b = true ↔ a.1 < b.1 ∨ a.1 = b.1 ∧ a.2 ≤ b.2 := by
  simp [lexLe]

theorem lexLe_total (a b : Int × Int) : lexLe a b = true ∨ lexLe b a = true := by
  simp only [lexLe_iff]
  omega

theorem lexLe_trans (a b c : Int × Int) (hab : lexLe a b = true) (hbc : lexLe b c = true) :
    lexLe a c = true := by
  simp only [lexLe_iff] at *
  omega

end Order

namespace NodeTree

def BreadthFirst (t : NodeTree) : Prop :=
  t.slots.Pairwise Slot.Precedes

variable {t : NodeTree} {rows : List Node} {slots : List Slot} {i k : Nat}

/-! ## Building goes on breadth-first -/

theorem exists_foldl_adopt (i : Nat) (ns : List Node) (slots : List Slot) :
    ∃ ms : List Node, ms.Sublist ns ∧
      ns.foldl (adopt i) slots = slots ++ ms.map fun m ↦ ⟨m, some i⟩ := by
  induction ns generalizing slots with
  | nil => exact ⟨[], List.Sublist.refl _, (List.append_nil _).symm⟩
  | cons n ns ih =>
    obtain ⟨ms, hsub, hfold⟩ := ih (adopt i slots n)
    rw [List.foldl_cons, hfold]
    unfold adopt
    split
    · exact ⟨ms, hsub.cons n, rfl⟩
    · exact ⟨n :: ms, hsub.cons_cons n, by rw [List.map_cons, List.append_assoc]; rfl⟩

theorem kin_pairwise (rows : List Node) (id : Int) :
    (kin rows id).Pairwise fun n m ↦ n.sequence ≤ m.sequence := by
  refine (Order.sortBy_pairwise (fun a b ↦ ?_) (fun a b c hab hbc ↦ ?_) _).imp fun h ↦
    decide_eq_true_eq.mp h
  · simp only [decide_eq_true_eq]
    omega
  · simp only [decide_eq_true_eq] at *
    omega

/-- What is adopted at a place stands behind everything that was adopted before. -/
theorem expand_breadthFirst (h : slots.Pairwise Slot.Precedes) (hrank : ∀ s ∈ slots, s.rank ≤ k) :
    (expand rows slots k).Pairwise Slot.Precedes ∧
      ∀ s ∈ expand rows slots k, s.rank ≤ k + 1 := by
  unfold expand
  split
  · exact ⟨h, fun s hs ↦ Nat.le_succ_of_le (hrank s hs)⟩
  · rename_i parent _
    obtain ⟨ms, hsub, hfold⟩ := exists_foldl_adopt k (kin rows parent.node.id) slots
    have hadopted : ∀ s ∈ ms.map (fun m ↦ (⟨m, some k⟩ : Slot)), s.rank = k + 1 := by
      intro s hs
      obtain ⟨m, -, rfl⟩ := List.mem_map.mp hs
      rfl
    rw [hfold, List.pairwise_append]
    refine ⟨⟨h, ?_, fun s hs s' hs' ↦ Or.inl ?_⟩, fun s hs ↦ ?_⟩
    · rw [List.pairwise_map]
      exact ((kin_pairwise rows parent.node.id).sublist hsub).imp fun hle ↦ Or.inr ⟨rfl, hle⟩
    · have hbefore := hrank s hs
      have hbehind := hadopted s' hs'
      omega
    · rcases List.mem_append.mp hs with hs | hs
      · exact Nat.le_succ_of_le (hrank s hs)
      · exact Nat.le_of_eq (hadopted s hs)

/-- After its first `k` places are expanded, a tree stands in breadth-first order, and no slot has
a parent behind them. -/
theorem foldl_expand_breadthFirst (rows : List Node) (root : Node) (k : Nat) :
    ((List.range k).foldl (expand rows) [⟨root, none⟩]).Pairwise Slot.Precedes ∧
      ∀ s ∈ (List.range k).foldl (expand rows) [⟨root, none⟩], s.rank ≤ k := by
  induction k with
  | zero =>
    refine ⟨List.pairwise_singleton _ _, fun s hs ↦ ?_⟩
    obtain rfl := List.mem_singleton.mp hs
    exact Nat.le_refl _
  | succ k ih =>
    rw [List.range_succ, List.foldl_concat]
    exact expand_breadthFirst ih.1 ih.2

theorem build_breadthFirst (rows : List Node) : (build rows).BreadthFirst := by
  unfold BreadthFirst build
  split
  · exact List.Pairwise.nil
  · rename_i root _
    exact (foldl_expand_breadthFirst rows root rows.length).1

/-! ## Building again -/

theorem foldl_adopt_of_free {ns : List Node} (i : Nat)
    (hfree : ∀ n ∈ ns, ∀ s ∈ slots, s.node.id ≠ n.id) (hnodup : (ns.map Node.id).Nodup) :
    ns.foldl (adopt i) slots = slots ++ ns.map fun n ↦ ⟨n, some i⟩ := by
  induction ns generalizing slots with
  | nil => exact (List.append_nil _).symm
  | cons n ns ih =>
    rw [List.map_cons, List.nodup_cons] at hnodup
    have hadopt : adopt i slots n = slots ++ [⟨n, some i⟩] := by
      unfold adopt
      rw [if_neg]
      exact Bool.not_eq_true _ ▸ hasId_eq_false.mpr (hfree n List.mem_cons_self)
    rw [List.foldl_cons, hadopt, ih ?_ hnodup.2, List.map_cons, List.append_assoc]
    · rfl
    · intro m hm s hs
      rcases List.mem_append.mp hs with hs | hs
      · exact hfree m (List.mem_cons_of_mem _ hm) s hs
      · obtain rfl := List.mem_singleton.mp hs
        exact fun hid ↦ hnodup.1 (hid ▸ List.mem_map_of_mem hm)

/-- The slots whose parents are among the first `k` places, the root included. -/
def stage (t : NodeTree) (k : Nat) : List Slot :=
  t.slots.filter fun s ↦ decide (s.rank ≤ k)

theorem Rooted.rank_le (h : t.Rooted) {s : Slot} (hs : t.slots[i]? = some s) : s.rank ≤ i := by
  cases hparent : s.parent with
  | none =>
    rw [Slot.rank, hparent]
    exact Nat.zero_le i
  | some p =>
    have hlt := h.lt_of_parent? (parent?_eq_some_iff.mpr ⟨s, hs, hparent⟩)
    rw [Slot.rank, hparent]
    exact hlt

theorem Rooted.parent_eq_none_iff (h : t.Rooted) {s : Slot} (hs : t.slots[i]? = some s) :
    s.parent = none ↔ i = 0 := by
  have hparent : t.parent? i = s.parent := by rw [parent?, hs, Option.bind_some]
  rw [← hparent]
  constructor
  · intro hnone
    by_contra hne
    obtain ⟨p, -, hp⟩ := h.parent i (Nat.pos_of_ne_zero hne) (List.getElem?_eq_some_iff.mp hs).1
    cases hnone.symm.trans hp
  · rintro rfl
    exact h.top

theorem Rooted.stage_eq (h : t.Rooted) (hk : t.size ≤ k + 1) : t.stage k = t.slots := by
  refine List.filter_eq_self.mpr fun s hs ↦ decide_eq_true ?_
  obtain ⟨i, hi, hs⟩ := List.getElem_of_mem hs
  have hrank := h.rank_le (List.getElem?_eq_some_iff.mpr ⟨hi, hs⟩)
  have hsize : i < t.size := hi
  omega

theorem Rooted.stage_zero (h : t.Rooted) {s : Slot} (hs : t.slots[0]? = some s) :
    t.stage 0 = [⟨s.node, none⟩] := by
  have hparent := (h.parent_eq_none_iff hs).mpr rfl
  obtain ⟨slots⟩ := t
  cases slots with
  | nil => cases hs
  | cons root slots =>
    cases hs
    have hnone : slots.filter (fun s ↦ decide (s.rank ≤ 0)) = [] := by
      refine List.filter_eq_nil_iff.mpr fun s' hs' hle ↦ ?_
      obtain ⟨j, hj, hs'⟩ := List.getElem_of_mem hs'
      have hchild : s'.parent ≠ none := fun hnone ↦ Nat.succ_ne_zero j <|
        (h.parent_eq_none_iff (List.getElem?_eq_some_iff.mpr ⟨Nat.succ_lt_succ hj, hs'⟩)).mp hnone
      obtain ⟨p, hp⟩ := Option.ne_none_iff_exists'.mp hchild
      rw [Slot.rank, hp] at hle
      exact absurd (decide_eq_true_eq.mp hle) (Nat.not_succ_le_zero p)
    obtain ⟨n, parent⟩ := s
    cases hparent
    rw [stage, List.filter_cons, hnone]
    rfl

/-- In breadth-first order an earlier stage stands in front of what comes later. -/
theorem BreadthFirst.stage_append (h : t.BreadthFirst) (k : Nat) :
    t.stage k ++ t.slots.filter (fun s ↦ decide (k < s.rank)) = t.slots := by
  obtain ⟨slots⟩ := t
  unfold BreadthFirst at h
  unfold stage
  dsimp only at h ⊢
  induction slots with
  | nil => rfl
  | cons s slots ih =>
    rw [List.pairwise_cons] at h
    by_cases hs : s.rank ≤ k
    · rw [List.filter_cons, if_pos (decide_eq_true hs), List.filter_cons,
        if_neg (by simpa using hs), List.cons_append, ih h.2]
    · have hnone : slots.filter (fun s ↦ decide (s.rank ≤ k)) = [] := by
        refine List.filter_eq_nil_iff.mpr fun s' hs' hle ↦ hs ?_
        exact Nat.le_trans (h.1 s' hs').rank_le (decide_eq_true_eq.mp hle)
      have hrest := ih h.2
      rw [hnone, List.nil_append] at hrest
      rw [List.filter_cons, if_neg (by simpa using hs), hnone, List.nil_append,
        List.filter_cons, if_pos (by simpa using hs), hrest]

/-- The next stage adds the children of one place. -/
theorem BreadthFirst.stage_succ (h : t.BreadthFirst) (k : Nat) :
    t.stage (k + 1) = t.stage k ++ t.slots.filter fun s ↦ decide (s.rank = k + 1) := by
  have hpart : BreadthFirst ⟨t.stage (k + 1)⟩ := h.sublist List.filter_sublist
  refine (hpart.stage_append k).symm.trans ?_
  simp only [stage, List.filter_filter]
  congr 1
  · refine List.filter_congr fun s _ ↦ ?_
    rw [← Bool.decide_and, decide_eq_decide]
    omega
  · refine List.filter_congr fun s _ ↦ ?_
    rw [← Bool.decide_and, decide_eq_decide]
    omega

theorem BreadthFirst.getElem?_stage (h : t.BreadthFirst) (ht : t.Rooted) (k : Nat) :
    (t.stage k)[k]? = t.slots[k]? := by
  cases hk : t.slots[k]? with
  | none =>
    rw [List.getElem?_eq_none_iff] at hk ⊢
    exact Nat.le_trans (List.length_filter_le _ _) hk
  | some s =>
    have hall := hk
    rw [← h.stage_append k, List.getElem?_append] at hall
    split at hall
    · exact hall
    · have hbehind := (List.mem_filter.mp (List.mem_of_getElem? hall)).2
      have hrank := ht.rank_le hk
      have hlt := decide_eq_true_eq.mp hbehind
      omega

theorem Linked.isRoot_and_parentId_iff (h : t.Linked) (ht : t.Rooted) {s parent : Slot}
    (hs : t.slots[i]? = some s) (hparent : t.slots[k]? = some parent) :
    (s.node.isRoot = false ∧ s.node.parentId = parent.node.id) ↔ s.rank = k + 1 := by
  have hnode : t.node? i = some s.node := node?_eq_some_iff.mpr ⟨s, hs, rfl⟩
  have hnode' : t.node? k = some parent.node := node?_eq_some_iff.mpr ⟨parent, hparent, rfl⟩
  cases hup : s.parent with
  | none =>
    obtain rfl := (ht.parent_eq_none_iff hs).mp hup
    rw [h.top s.node hnode, Slot.rank, hup]
    simp
  | some p =>
    have hp : t.parent? i = some p := parent?_eq_some_iff.mpr ⟨s, hs, hup⟩
    obtain ⟨m, hm⟩ := ht.exists_parent_node hp
    obtain ⟨hroot, hid⟩ := h.link i p s.node m hp hnode hm
    rw [hroot, hid, and_iff_right rfl, Slot.rank, hup]
    constructor
    · intro heq
      exact congrArg Nat.succ (h.place_eq hm hnode' heq)
    · intro heq
      obtain rfl : p = k := Nat.succ.inj heq
      cases hm.symm.trans hnode'
      rfl

theorem inOrder_pairwise (ns : List Node) : (inOrder ns).Pairwise fun a b ↦
    Order.lexLe (a.sequence, a.id) (b.sequence, b.id) = true := by
  refine Order.sortBy_pairwise (fun a b ↦ ?_) (fun a b c hab hbc ↦ ?_) ns
  · exact Order.lexLe_total _ _
  · exact Order.lexLe_trans _ _ _ hab hbc

theorem kin_inOrder (ns : List Node) (id : Int) :
    kin (inOrder ns) id = (inOrder ns).filter fun n ↦ !n.isRoot && n.parentId == id := by
  have hrows := (inOrder_pairwise ns).sublist
    (List.filter_sublist (p := fun n ↦ !n.isRoot && n.parentId == id))
  refine Order.sortBy_of_pairwise (hrows.imp fun hle ↦ decide_eq_true ?_)
  have hlex := Order.lexLe_iff.mp hle
  dsimp only at hlex
  omega

theorem filter_children (ht : t.Rooted) (hlinked : t.Linked) {parent : Slot}
    (hparent : t.slots[k]? = some parent) :
    (t.flatten.filter fun n ↦ !n.isRoot && n.parentId == parent.node.id) =
      (t.slots.filter fun s ↦ decide (s.rank = k + 1)).map Slot.node := by
  rw [flatten, List.filter_map]
  congr 1
  refine List.filter_congr fun s hs ↦ ?_
  obtain ⟨i, hi, hs⟩ := List.getElem_of_mem hs
  rw [Bool.eq_iff_iff, decide_eq_true_eq,
    ← hlinked.isRoot_and_parentId_iff ht (List.getElem?_eq_some_iff.mpr ⟨hi, hs⟩) hparent]
  simp

/-- Siblings stand by sequence and then by id. -/
theorem BreadthFirst.siblings_pairwise (h : t.BreadthFirst)
    (hids : (t.flatten.map Node.id).Pairwise (· < ·)) (k : Nat) :
    ((t.slots.filter fun s ↦ decide (s.rank = k)).map Slot.node).Pairwise fun a b ↦
      Order.lexLe (a.sequence, a.id) (b.sequence, b.id) = true ∧
        Order.lexLe (b.sequence, b.id) (a.sequence, a.id) = false := by
  rw [flatten, List.map_map, List.pairwise_map] at hids
  rw [List.pairwise_map]
  have hboth := (h.and hids).sublist (List.filter_sublist (p := fun s ↦ decide (s.rank = k)))
  refine hboth.imp_of_mem fun ha hb hab ↦ ?_
  obtain ⟨hprecedes, hlt⟩ := hab
  have hrank := decide_eq_true_eq.mp (List.mem_filter.mp ha).2
  have hrank' := decide_eq_true_eq.mp (List.mem_filter.mp hb).2
  unfold Slot.Precedes at hprecedes
  simp only [Function.comp_apply] at hlt
  refine ⟨Order.lexLe_iff.mpr ?_, Bool.eq_false_iff.mpr fun hle ↦ ?_⟩
  · dsimp only
    omega
  · have hlex := Order.lexLe_iff.mp hle
    dsimp only at hlex
    omega

/-- The nodes by sequence and then by id hold the children of a place in their order. -/
theorem kin_inOrder_flatten (h : t.BreadthFirst) (ht : t.Rooted) (hlinked : t.Linked)
    (hids : (t.flatten.map Node.id).Pairwise (· < ·)) {parent : Slot}
    (hparent : t.slots[k]? = some parent) :
    kin (inOrder t.flatten) parent.node.id =
      (t.slots.filter fun s ↦ decide (s.rank = k + 1)).map Slot.node := by
  have hchildren := filter_children ht hlinked hparent
  let p (n : Node) : Bool := !n.isRoot && n.parentId == parent.node.id
  let le (a b : Node) : Bool := Order.lexLe (a.sequence, a.id) (b.sequence, b.id)
  have htotal : ∀ a b, le a b = true ∨ le b a = true := fun _ _ ↦ Order.lexLe_total _ _
  have htrans : ∀ a b c, le a b = true → le b c = true → le a c = true :=
    fun _ _ _ ↦ Order.lexLe_trans _ _ _
  have hrows : ((inOrder t.flatten).filter p).Pairwise fun a b ↦ le a b = true :=
    (inOrder_pairwise t.flatten).sublist List.filter_sublist
  have hstrict : (t.flatten.filter p).Pairwise fun a b ↦ le a b = true ∧ le b a = false :=
    hchildren ▸ h.siblings_pairwise hids (k + 1)
  calc
    kin (inOrder t.flatten) parent.node.id = (inOrder t.flatten).filter p := kin_inOrder _ _
    _ = Order.sortBy le ((inOrder t.flatten).filter p) := (Order.sortBy_of_pairwise hrows).symm
    _ = t.flatten.filter p :=
      Order.sortBy_eq htotal htrans ((Order.sortBy_perm _ _).filter p) hstrict
    _ = _ := hchildren

/-- The rows name the children of every place in their order. -/
def Lists (rows : List Node) (t : NodeTree) : Prop :=
  ∀ k parent, t.slots[k]? = some parent →
    kin rows parent.node.id = (t.slots.filter fun s ↦ decide (s.rank = k + 1)).map Slot.node

/-- Expanding a place of a tree that is built again adds the slots of its children. -/
theorem expand_stage (h : t.BreadthFirst) (ht : t.Rooted) (hlinked : t.Linked)
    (hlists : Lists rows t) (k : Nat) : expand rows (t.stage k) k = t.stage (k + 1) := by
  unfold expand
  rw [h.getElem?_stage ht k]
  cases hk : t.slots[k]? with
  | none =>
    have hsize : t.size ≤ k := List.getElem?_eq_none_iff.mp hk
    dsimp only
    rw [ht.stage_eq (by omega), ht.stage_eq (by omega)]
  | some parent =>
    dsimp only
    have hslots : (t.slots.map fun s ↦ s.node.id).Nodup := by
      have hnodup := hlinked.nodup
      rwa [flatten, List.map_map] at hnodup
    rw [hlists k parent hk, foldl_adopt_of_free, h.stage_succ, List.map_map]
    · congr 1
      refine (List.map_congr_left fun s hs ↦ ?_).trans (List.map_id _)
      have hrank := decide_eq_true_eq.mp (List.mem_filter.mp hs).2
      obtain ⟨n, parent⟩ := s
      cases parent with
      | none => cases hrank
      | some q =>
        cases hrank
        rfl
    · rw [← h.stage_append k, List.map_append, List.nodup_append] at hslots
      intro n hn s hs hid
      obtain ⟨s', hs', rfl⟩ := List.mem_map.mp hn
      obtain ⟨hmem, hrank⟩ := List.mem_filter.mp hs'
      refine hslots.2.2 _ (List.mem_map_of_mem hs) _ (List.mem_map_of_mem (a := s') ?_) hid
      rw [List.mem_filter]
      exact ⟨hmem, decide_eq_true (by have := decide_eq_true_eq.mp hrank; omega)⟩
    · rw [List.map_map]
      exact hslots.sublist (List.filter_sublist.map _)

/-- The only node without a parent stands at the top. -/
theorem Linked.find?_isRoot (hlinked : t.Linked) (ht : t.Rooted)
    (hmem : ∀ n, n ∈ rows ↔ n ∈ t.flatten) : rows.find? Node.isRoot = t.root? := by
  rw [root?_eq_node?]
  cases hfind : rows.find? Node.isRoot with
  | none =>
    cases htop : t.node? 0 with
    | none => rfl
    | some root =>
      have hroot := (hmem root).mpr (mem_flatten.mpr ⟨0, htop⟩)
      exact absurd (hlinked.top root htop) (List.find?_eq_none.mp hfind root hroot)
  | some n =>
    obtain ⟨i, hi⟩ := mem_flatten.mp ((hmem n).mp (List.mem_of_find?_eq_some hfind))
    rcases Nat.eq_zero_or_pos i with rfl | hpos
    · exact hi.symm
    · obtain ⟨_, _, -, -, -, hnotRoot, -⟩ := hlinked.exists_above ht hpos hi
      cases hnotRoot.symm.trans (List.find?_some hfind)

/-- A tree in breadth-first order is built again from its nodes, if these come with the children
of every place in their order. -/
theorem build_of_lists (h : t.BreadthFirst) (ht : t.Rooted) (hlinked : t.Linked)
    (hrows : rows.Perm t.flatten) (hlists : Lists rows t) : build rows = t := by
  have hroot := hlinked.find?_isRoot ht fun n ↦ hrows.mem_iff
  unfold build
  rw [hroot]
  split
  · rename_i hnone
    cases t
    exact congrArg NodeTree.mk (List.head?_eq_none_iff.mp (Option.map_eq_none_iff.mp hnone)).symm
  · rename_i root htop
    obtain ⟨s, hs, rfl⟩ := node?_eq_some_iff.mp ((root?_eq_node? t).symm.trans htop)
    have hstages : ∀ k, (List.range k).foldl (expand rows) [⟨s.node, none⟩] = t.stage k := by
      intro k
      induction k with
      | zero => exact (ht.stage_zero hs).symm
      | succ k ih =>
        rw [List.range_succ, List.foldl_concat, ih, expand_stage h ht hlinked hlists]
    rw [hstages, ht.stage_eq]
    rw [hrows.length_eq, flatten, List.length_map]
    exact Nat.le_succ _

/-- A tree in breadth-first order with growing ids is built again from its nodes by sequence and
then by id. -/
theorem build_inOrder_flatten (h : t.BreadthFirst) (ht : t.Rooted) (hlinked : t.Linked)
    (hids : (t.flatten.map Node.id).Pairwise (· < ·)) : build (inOrder t.flatten) = t :=
  build_of_lists h ht hlinked (Order.sortBy_perm _ t.flatten)
    fun _ _ hparent ↦ kin_inOrder_flatten h ht hlinked hids hparent

theorem BreadthFirst.lists_flatten (h : t.BreadthFirst) (ht : t.Rooted) (hlinked : t.Linked) :
    Lists t.flatten t := by
  intro k parent hparent
  rw [kin, filter_children ht hlinked hparent]
  refine Order.sortBy_of_pairwise (List.pairwise_map.mpr ?_)
  refine (h.sublist List.filter_sublist).imp_of_mem fun {a b} ha hb hprecedes ↦ ?_
  have hrank := decide_eq_true_eq.mp (List.mem_filter.mp ha).2
  have hrank' := decide_eq_true_eq.mp (List.mem_filter.mp hb).2
  unfold Slot.Precedes at hprecedes
  exact decide_eq_true (by omega)

/-! ## The order of the rows -/

theorem find?_eq_of_perm {rows' : List Node} (hperm : rows.Perm rows')
    (hroots : (rows.filter Node.isRoot).length ≤ 1) :
    rows.find? Node.isRoot = rows'.find? Node.isRoot := by
  have hfilter := hperm.filter Node.isRoot
  rw [← List.head?_filter, ← List.head?_filter]
  rcases hfound : rows.filter Node.isRoot with - | ⟨root, - | ⟨second, others⟩⟩
  · rw [hfound] at hfilter
    rw [hfilter.nil_eq]
  · rw [hfound] at hfilter
    rw [hfilter.singleton_eq]
  · rw [hfound, List.length_cons, List.length_cons] at hroots
    omega

/-- Children of different sequence numbers are found in one order. -/
theorem kin_eq_of_perm {rows' : List Node} (hperm : rows.Perm rows')
    (hsequence : rows.Pairwise fun a b ↦ a.parentId = b.parentId → a.sequence ≠ b.sequence)
    (id : Int) : kin rows id = kin rows' id := by
  let p (n : Node) : Bool := !n.isRoot && n.parentId == id
  refine Order.sortBy_eq (fun a b ↦ ?_) (fun a b c hab hbc ↦ ?_)
    ((hperm.filter p).trans (Order.sortBy_perm _ _).symm) ?_
  · simp only [decide_eq_true_eq]
    omega
  · simp only [decide_eq_true_eq] at *
    omega
  · have hkin : (kin rows' id).Pairwise fun a b ↦
        a.parentId = b.parentId → a.sequence ≠ b.sequence := by
      have hsub := hsequence.sublist (List.filter_sublist (p := p))
      refine (List.Perm.pairwise_iff (fun {a b} hab hparent hseq ↦ ?_) ?_).mp hsub
      · exact hab hparent.symm hseq.symm
      · exact (hperm.filter p).trans (Order.sortBy_perm _ _).symm
    refine ((kin_pairwise rows' id).and hkin).imp_of_mem fun {a b} ha hb hab ↦ ?_
    have hne := hab.2 ((mem_kin.mp ha).2.2.trans (mem_kin.mp hb).2.2.symm)
    exact ⟨decide_eq_true hab.1, decide_eq_false (by omega)⟩

/-- A built tree is found again from its own nodes.  Rows with one root at most and different
sequence numbers among siblings give the same tree in any order. -/
theorem build_flatten_and_build_perm :
    (∀ rows, build (build rows).flatten = build rows) ∧
      ∀ rows rows' : List Node, rows.Perm rows' →
        (rows.filter Node.isRoot).length ≤ 1 →
        (rows.Pairwise fun a b ↦ a.parentId = b.parentId → a.sequence ≠ b.sequence) →
        build rows = build rows' := by
  constructor
  · intro rows
    have hbreadth := build_breadthFirst rows
    have hrooted := build_rooted rows
    have hlinked := build_linked rows
    exact build_of_lists hbreadth hrooted hlinked (List.Perm.refl _)
      (hbreadth.lists_flatten hrooted hlinked)
  · intro rows rows' hperm hroots hsequence
    have hexpand : expand rows = expand rows' := by
      funext slots i
      unfold expand
      cases slots[i]? with
      | none => rfl
      | some s => exact congrArg (List.foldl (adopt i) slots) (kin_eq_of_perm hperm hsequence _)
    unfold build
    rw [find?_eq_of_perm hperm hroots, hexpand, hperm.length_eq]

/-- Two branches below a root, and rows that do not lead to it. -/
def scattered : List Node :=
  [{ id := 4, parentId := 2, name := "leaf", sequence := 1 },
    { id := 2, parentId := 1, name := "second", sequence := 2 },
    { id := 7, parentId := 8, name := "cycle", sequence := 1 },
    { id := 1, name := "root" },
    { id := 8, parentId := 7, name := "cycle", sequence := 1 },
    { id := 3, parentId := 1, name := "first", sequence := 1 },
    { id := 5, parentId := 9, name := "orphan", sequence := 1 }]

theorem build_scattered_reverse :
    (scattered.filter Node.isRoot).length ≤ 1 ∧
      (scattered.Pairwise fun a b ↦ a.parentId = b.parentId → a.sequence ≠ b.sequence) ∧
      build scattered = build scattered.reverse ∧
      (build scattered).flatten.map Node.id = [1, 3, 2, 4] := by
  have hroots : (scattered.filter Node.isRoot).length ≤ 1 := by decide
  have hsequence : scattered.Pairwise fun a b ↦
      a.parentId = b.parentId → a.sequence ≠ b.sequence := by decide
  exact ⟨hroots, hsequence, build_flatten_and_build_perm.2 scattered scattered.reverse
    (List.reverse_perm scattered).symm hroots hsequence, by decide⟩

end NodeTree

end AddressPlan
