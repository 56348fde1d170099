import AddressPlan.Proofs.NodeTree.Alike

/-!
# Trees under other ids

Two trees match if they have one shape and their nodes agree in everything but their ids, which
only correspond.  Building, checking and numbering matching trees gives matching results: no
id is compared with anything but another id, and none is looked at by a check.
-/

namespace AddressPlan

open List Relator

variable {P Q : Int → Int → Prop}

/-- The ids correspond by `P`.  The layouts may be any. -/
structure Node.Matches (P : Int → Int → Prop) (n n' : Node) : Prop where
  id : P n.id n'.id
  parentId : P n.parentId n'.parentId
  rest : n' = { n with id := n'.id, parentId := n'.parentId, layoutId := n'.layoutId }

instance [DecidableRel P] (n n' : Node) : Decidable (n.Matches P n') :=
  decidable_of_iff (P n.id n'.id ∧ P n.parentId n'.parentId ∧
    n' = { n with id := n'.id, parentId := n'.parentId, layoutId := n'.layoutId })
    ⟨fun h ↦ ⟨h.1, h.2.1, h.2.2⟩, fun h ↦ ⟨h.id, h.parentId, h.rest⟩⟩

structure Slot.Matches (P : Int → Int → Prop) (s s' : Slot) : Prop where
  node : s.node.Matches P s'.node
  parent : s'.parent = s.parent

structure Placed.Matches (P : Int → Int → Prop) (p p' : Placed) : Prop where
  place : p'.place = p.place
  node : p.node.Matches P p'.node

def NodeTree.Matches (P : Int → Int → Prop) (t t' : NodeTree) : Prop :=
  Forall₂ (Slot.Matches P) t.slots t'.slots

namespace Node.Matches

variable {n n' m m' : Node}

theorem mono (h : n.Matches P n') (hle : P ≤ Q) : n.Matches Q n' :=
  { h with
    id := hle _ _ h.id
    parentId := hle _ _ h.parentId }

theorem flip (h : n.Matches P n') : n'.Matches (flip P) n where
  id := h.id
  parentId := h.parentId
  rest := by rw [h.rest]

theorem alike (h : n.Matches P n') : n.Alike n' where
  name_eq := by rw [h.rest]
  bitWidth_eq := by rw [h.rest]
  literals_eq := by rw [h.rest]

theorem sequence_eq (h : n.Matches P n') : n'.sequence = n.sequence := by
  rw [h.rest]

theorem modified_eq (h : n.Matches P n') : n'.modified = n.modified := by
  rw [h.rest]

theorem isRoot_eq (hP : BiUnique P) (hzero : P 0 0) (h : n.Matches P n') :
    n'.isRoot = n.isRoot :=
  beq_eq_of_pairs hP h.parentId hzero

end Node.Matches

namespace NodeTree

variable {t t' : NodeTree} {ns ns' : List Node} {slots slots' : List Slot}

namespace Matches

theorem mono (h : t.Matches P t') (hle : P ≤ Q) : t.Matches Q t' :=
  h.imp fun _ _ hs ↦ ⟨hs.node.mono hle, hs.parent⟩

theorem related (h : t.Matches P t') : t.Related (Node.Matches P) t' :=
  h.imp fun _ _ hs ↦ ⟨hs.node, hs.parent⟩

theorem alike (h : t.Matches P t') : t.Related Node.Alike t' :=
  h.related.mono fun _ _ hn ↦ hn.alike

theorem size_eq (h : t.Matches P t') : t'.size = t.size := h.related.size_eq

theorem isEmpty_eq (h : t.Matches P t') : t'.isEmpty = t.isEmpty := h.related.isEmpty_eq

theorem parents_eq (h : t.Matches P t') : t'.slots.map Slot.parent = t.slots.map Slot.parent :=
  h.related.parents_eq

theorem flatten (h : t.Matches P t') : Forall₂ (Node.Matches P) t.flatten t'.flatten :=
  rel_map (fun _ _ hs ↦ hs.node) h

theorem node? (h : t.Matches P t') (i : Nat) :
    Option.Rel (Node.Matches P) (t.node? i) (t'.node? i) :=
  h.related.node? i

theorem root? (h : t.Matches P t') : Option.Rel (Node.Matches P) t.root? t'.root? := h.related.root?

theorem update (h : t.Matches P t') (i : Nat) {f f' : Node → Node}
    (hf : ∀ n n', n.Matches P n' → (f n).Matches P (f' n')) :
    (t.update i f).Matches P (t'.update i f') :=
  forall₂_modify (fun _ _ hs ↦ ⟨hf _ _ hs.node, hs.parent⟩) h i

end Matches

/-! ## Building -/

section Build

variable (hP : BiUnique P) (hzero : P 0 0)

include hP

theorem hasId_eq_of_matches (h : Forall₂ (Slot.Matches P) slots slots') {id id' : Int}
    (hid : P id id') : hasId slots' id' = hasId slots id :=
  any_eq_of_forall₂ (fun _ _ hs ↦ beq_eq_of_pairs hP hs.node.id hid) h

theorem adopt_matches (i : Nat) (h : Forall₂ (Slot.Matches P) slots slots') {n n' : Node}
    (hn : n.Matches P n') : Forall₂ (Slot.Matches P) (adopt i slots n) (adopt i slots' n') := by
  unfold adopt
  rw [hasId_eq_of_matches hP h hn.id]
  split
  · exact h
  · exact rel_append h (.cons ⟨hn, rfl⟩ .nil)

include hzero

theorem kin_matches (h : Forall₂ (Node.Matches P) ns ns') {id id' : Int} (hid : P id id') :
    Forall₂ (Node.Matches P) (kin ns id) (kin ns' id') := by
  refine Order.forall₂_sortBy (fun n n' m m' hn hm ↦ ?_) (forall₂_filter (fun n n' hn ↦ ?_) h)
  · rw [hn.sequence_eq, hm.sequence_eq]
  · rw [hn.isRoot_eq hP hzero, beq_eq_of_pairs hP hn.parentId hid]

theorem expand_matches (hns : Forall₂ (Node.Matches P) ns ns')
    (h : Forall₂ (Slot.Matches P) slots slots') (i : Nat) :
    Forall₂ (Slot.Matches P) (expand ns slots i) (expand ns' slots' i) := by
  have hslot := forall₂_getElem? h i
  unfold expand
  generalize slots[i]? = slot at hslot ⊢
  generalize slots'[i]? = slot' at hslot ⊢
  cases hslot with
  | none => exact h
  | some hs =>
    exact rel_foldl (P := Forall₂ (Slot.Matches P)) (R := Node.Matches P)
      (fun _ _ hslots _ _ hn ↦ adopt_matches hP i hslots hn) h
      (kin_matches hP hzero hns hs.node.id)

theorem build_matches (h : Forall₂ (Node.Matches P) ns ns') :
    (build ns).Matches P (build ns') := by
  have hroot := forall₂_find? (fun _ _ hn ↦ hn.isRoot_eq hP hzero) h
  unfold build
  generalize ns.find? Node.isRoot = found at hroot ⊢
  generalize ns'.find? Node.isRoot = found' at hroot ⊢
  cases hroot with
  | none => exact .nil
  | some hn =>
    dsimp only [Matches]
    rw [← h.length_eq]
    have hstart : Slot.Matches P ⟨_, none⟩ ⟨_, none⟩ := ⟨hn, rfl⟩
    refine rel_foldl (P := Forall₂ (Slot.Matches P)) (R := Eq)
      (fun slots slots' hslots i j hij ↦ ?_) (.cons hstart .nil) (forall₂_same.mpr fun _ _ ↦ rfl)
    exact hij ▸ expand_matches hP hzero h hslots i

end Build

/-! ## Checking and numbering -/

theorem branch?_matches (h : t.Matches P t') :
    Option.Rel (Rose.Matches (Placed.Matches P)) t.branch? t'.branch? :=
  branch?_related (fun _ _ hp ↦ hp.place) (fun _ _ _ hn ↦ ⟨rfl, hn⟩) h.related

theorem check_eq_of_matches (h : t.Matches P t') (allowed : Int) (strict : Bool) :
    t'.check allowed strict = t.check allowed strict :=
  check_eq_of_alike h.alike allowed strict

theorem fill_matches (h : t.Matches P t') (base : Network) (maskLength : Nat) :
    (t'.fill base maskLength).1 = (t.fill base maskLength).1 ∧
      (t.fill base maskLength).2.Matches P (t'.fill base maskLength).2 := by
  refine ⟨fill_fst_eq_of_alike h.alike base maskLength, ?_⟩
  refine (fill_related (fun _ _ hn ↦ hn.alike) (fun n n' cidr number hn ↦ ?_) h.related base
    maskLength).imp fun _ _ hs ↦ ⟨hs.1, hs.2⟩
  exact ⟨hn.id, hn.parentId, by rw [hn.rest]⟩

/-! ## Dirty places -/

theorem contains_eq_of_pairs (hP : BiUnique P) {ids ids' : List Int} (hids : Forall₂ P ids ids')
    {id id' : Int} (hid : P id id') : ids'.contains id' = ids.contains id := by
  rw [Bool.eq_iff_iff, contains_iff_mem, contains_iff_mem]
  exact (rel_mem hP hid hids).symm

variable {stored stored' : List Int}

theorem isDirty_eq_of_matches (hP : BiUnique P) (hids : Forall₂ P stored stored') {n n' : Node}
    (h : n.Matches P n') : isDirty stored' n' = isDirty stored n := by
  rw [isDirty, isDirty, h.modified_eq, contains_eq_of_pairs hP hids h.id]

mutual
theorem dirtyIn_matches (hP : BiUnique P) (hids : Forall₂ P stored stored') :
    ∀ {b b' : Rose Placed}, b.Matches (Placed.Matches P) b' →
    Forall₂ (Placed.Matches P) (dirtyIn stored b) (dirtyIn stored' b')
  | .node p ts, .node p' ts', .node hp hts => by
    rw [dirtyIn, dirtyIn, isDirty_eq_of_matches hP hids hp.node]
    split
    · exact .cons hp .nil
    · exact dirtyAmong_matches hP hids hts

theorem dirtyAmong_matches (hP : BiUnique P) (hids : Forall₂ P stored stored') :
    ∀ {ts ts' : List (Rose Placed)}, Forall₂ (Rose.Matches (Placed.Matches P)) ts ts' →
    Forall₂ (Placed.Matches P) (dirtyAmong stored ts) (dirtyAmong stored' ts')
  | [], [], .nil => .nil
  | _ :: _, _ :: _, .cons ht hts =>
    rel_append (dirtyIn_matches hP hids ht) (dirtyAmong_matches hP hids hts)
end

theorem dirtyTops_matches (hP : BiUnique P) (hids : Forall₂ P stored stored')
    (h : t.Matches P t') :
    Forall₂ (Placed.Matches P) (t.dirtyTops stored) (t'.dirtyTops stored') := by
  have hbranch := branch?_matches h
  unfold dirtyTops
  generalize t.branch? = b at hbranch ⊢
  generalize t'.branch? = b' at hbranch ⊢
  cases hbranch with
  | none => exact .nil
  | some hb => exact dirtyAmong_matches hP hids (.cons hb .nil)

/-- Trees match if they have one shape and their nodes match in breadth-first order. -/
theorem matches_of_flatten (h : t'.slots.map Slot.parent = t.slots.map Slot.parent)
    (hnodes : Forall₂ (Node.Matches P) t.flatten t'.flatten) : t.Matches P t' := by
  have hparents : Forall₂ (fun s s' : Slot ↦ s.parent = s'.parent) t.slots t'.slots :=
    forall₂_map_right_iff.mp (forall₂_map_left_iff.mp (forall₂_eq_eq_eq (α := Option Nat) ▸ h.symm))
  have hslots : Forall₂ (fun s s' : Slot ↦ s.node.Matches P s'.node) t.slots t'.slots :=
    forall₂_map_right_iff.mp (forall₂_map_left_iff.mp hnodes)
  exact (forall₂_both hparents hslots).imp fun _ _ hs ↦ ⟨hs.2, hs.1.symm⟩

end NodeTree

end AddressPlan
