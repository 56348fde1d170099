import AddressPlan.Proofs.NodeTree.Preorder
import Mathlib.Data.Nat.Digits.Lemmas

/-!
# Labels of places

The label of a place lists the positions among siblings, counted from 1, from the root down to
it.  In a rooted tree every place has one label and no other place has the same.  As positions
are never zero, labels can be told apart by the number that their positions make up as digits.
-/

namespace AddressPlan

namespace NodeTree

/-- The places on the way from the root down to this one stand at these positions. -/
inductive Labelled (t : NodeTree) : Nat → List Nat → Prop where
  | root : Labelled t 0 []
  | child {p k : Nat} {label : List Nat} {c : Placed} (hp : Labelled t p label)
    (hc : (t.children p)[k]? = some c) : Labelled t c.place (label ++ [k + 1])

variable {t : NodeTree} {i j : Nat} {label label' : List Nat}

theorem Rooted.exists_label (h : t.Rooted) (hi : i < t.size) : ∃ label, t.Labelled i label := by
  induction i using Nat.strongRecOn with
  | _ i ih =>
    rcases Nat.eq_zero_or_pos i with rfl | hpos
    · exact ⟨[], .root⟩
    · obtain ⟨p, hlt, hp⟩ := h.parent i hpos hi
      obtain ⟨label, hlabel⟩ := ih p hlt (Nat.lt_trans hlt hi)
      obtain ⟨n, hn⟩ := lt_size_iff.mp hi
      obtain ⟨k, hk⟩ := List.mem_iff_getElem?.mp
        (h.mem_children.mpr ⟨hn, hp⟩ : (⟨i, n⟩ : Placed) ∈ t.children p)
      exact ⟨label ++ [k + 1], hlabel.child hk⟩

/-- Places under one label are the same. -/
theorem Labelled.place_eq (h : t.Labelled i label) (h' : t.Labelled j label) : i = j := by
  induction h generalizing j with
  | root =>
    obtain ⟨l, hl⟩ : ∃ l : List Nat, [] = l := ⟨_, rfl⟩
    rw [hl] at h'
    cases h' with
    | root => rfl
    | child hp hc => cases List.append_ne_nil_of_right_ne_nil _ (List.cons_ne_nil _ _) hl.symm
  | @child p k label c hp hc ih =>
    obtain ⟨l, hl⟩ : ∃ l, label ++ [k + 1] = l := ⟨_, rfl⟩
    rw [hl] at h'
    cases h' with
    | root => cases List.append_ne_nil_of_right_ne_nil _ (List.cons_ne_nil _ _) hl
    | @child q m label' d hq hd =>
      obtain ⟨rfl, hlast⟩ := List.append_inj' hl rfl
      cases hlast
      obtain rfl := ih hq
      cases hc.symm.trans hd
      rfl

/-- The number that the positions of a label make up if each is a digit of `width` bits. -/
def labelNumber (width : Nat) (label : List Nat) : Nat :=
  Nat.ofDigits (2 ^ width) label.reverse

@[simp] theorem labelNumber_nil (width : Nat) : labelNumber width [] = 0 := rfl

theorem labelNumber_concat (width : Nat) (label : List Nat) (position : Nat) :
    labelNumber width (label ++ [position]) = labelNumber width label * 2 ^ width + position := by
  rw [labelNumber, List.reverse_concat, Nat.ofDigits_cons, Nat.mul_comm, Nat.add_comm]
  rfl

/-- Positions that are never zero are the digits of the number that they make up. -/
theorem reverse_eq_digits {width : Nat} (hbase : 1 < 2 ^ width)
    (h : ∀ v ∈ label, 0 < v ∧ v < 2 ^ width) :
    label.reverse = Nat.digits (2 ^ width) (labelNumber width label) := by
  refine (Nat.digits_ofDigits _ hbase _ (fun v hv ↦ (h v (List.mem_reverse.mp hv)).2) ?_).symm
  exact fun hne ↦ Nat.ne_of_gt (h _ (List.mem_reverse.mp (List.getLast_mem hne))).1

/-- Labels without a zero are told apart by their numbers, whatever their lengths. -/
theorem labelNumber_injective {width : Nat} (h : ∀ v ∈ label, 0 < v ∧ v < 2 ^ width)
    (h' : ∀ v ∈ label', 0 < v ∧ v < 2 ^ width)
    (heq : labelNumber width label = labelNumber width label') : label = label' := by
  by_cases hbase : 1 < 2 ^ width
  · apply List.reverse_injective
    rw [reverse_eq_digits hbase h, reverse_eq_digits hbase h', heq]
  · have hnil : ∀ {label : List Nat}, (∀ v ∈ label, 0 < v ∧ v < 2 ^ width) → label = [] := by
      intro label h
      rw [List.eq_nil_iff_forall_not_mem]
      intro v hv
      have hrange := h v hv
      omega
    rw [hnil h, hnil h']

end NodeTree

end AddressPlan
