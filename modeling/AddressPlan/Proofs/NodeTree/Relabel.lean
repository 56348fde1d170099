import AddressPlan.NodeTree.Fill
import AddressPlan.Proofs.NodeTree.Build
import AddressPlan.Proofs.NodeTree.Tops

/-!
# Numbering keeps the shape

Numbering a tree gives its nodes blocks and numbers and changes nothing else.  So whatever
does not look at blocks and numbers holds of the numbered tree as well.
-/

namespace AddressPlan.NodeTree

/-- The second tree is the first one up to the blocks and numbers of its nodes. -/
structure Relabelled (t t' : NodeTree) : Prop where
  parent? : ∀ i, t'.parent? i = t.parent? i
  node? : ∀ i, ∃ cidr value, t'.node? i = (t.node? i).map fun n ↦ { n with cidr, value }

namespace Relabelled

variable {t t' t'' : NodeTree} {ids : List Int} {i j : Nat}

theorem refl (t : NodeTree) : Relabelled t t := by
  refine ⟨fun _ ↦ rfl, fun i ↦ ?_⟩
  cases h : t.node? i with
  | none => exact ⟨"", 0, rfl⟩
  | some n => exact ⟨n.cidr, n.value, rfl⟩

theorem trans (h : Relabelled t t') (h' : Relabelled t' t'') : Relabelled t t'' := by
  refine ⟨fun i ↦ (h'.parent? i).trans (h.parent? i), fun i ↦ ?_⟩
  obtain ⟨cidr, value, hi⟩ := h.node? i
  obtain ⟨cidr', value', hi'⟩ := h'.node? i
  refine ⟨cidr', value', ?_⟩
  rw [hi', hi, Option.map_map]
  rfl

theorem of_node? (h : Relabelled t t') {n : Node} (hn : t.node? i = some n) :
    ∃ cidr value, t'.node? i = some { n with cidr, value } := by
  obtain ⟨cidr, value, hi⟩ := h.node? i
  exact ⟨cidr, value, by rw [hi, hn, Option.map_some]⟩

theorem exists_node? (h : Relabelled t t') {m : Node} (hm : t'.node? i = some m) :
    ∃ n, t.node? i = some n ∧ m = { n with cidr := m.cidr, value := m.value } := by
  obtain ⟨cidr, value, hi⟩ := h.node? i
  rw [hi, Option.map_eq_some_iff] at hm
  obtain ⟨n, hn, rfl⟩ := hm
  exact ⟨n, hn, rfl⟩

/-- What does not look at blocks and numbers holds of the same nodes. -/
theorem exists_node_iff (h : Relabelled t t') {P : Node → Prop}
    (hP : ∀ n cidr value, P { n with cidr, value } ↔ P n) :
    (∃ m, t'.node? i = some m ∧ P m) ↔ ∃ n, t.node? i = some n ∧ P n := by
  constructor
  · rintro ⟨m, hm, hPm⟩
    obtain ⟨n, hn, heq⟩ := h.exists_node? hm
    exact ⟨n, hn, (hP n _ _).mp (heq ▸ hPm)⟩
  · rintro ⟨n, hn, hPn⟩
    obtain ⟨cidr, value, hm⟩ := h.of_node? hn
    exact ⟨_, hm, (hP n cidr value).mpr hPn⟩

theorem sameShape (h : Relabelled t t') : SameShape t t' where
  parent? := h.parent?
  node? := fun i ↦ by simpa using h.exists_node_iff (P := fun _ ↦ True) fun _ _ _ ↦ Iff.rfl

theorem dirty_iff (h : Relabelled t t') : t'.Dirty ids i ↔ t.Dirty ids i :=
  h.exists_node_iff fun _ _ _ ↦ Iff.rfl

theorem topmostDirty_iff (h : Relabelled t t') :
    t'.TopmostDirty ids i ↔ t.TopmostDirty ids i :=
  topmostDirty_congr (fun _ ↦ h.sameShape.under_iff) fun _ ↦ h.dirty_iff

theorem linked (h : Relabelled t t') (ht : t.Linked) : t'.Linked where
  nodup := by
    have hids : t'.flatten.map Node.id = t.flatten.map Node.id := by
      apply List.ext_getElem?
      intro i
      rw [List.getElem?_map, List.getElem?_map, getElem?_flatten, getElem?_flatten]
      obtain ⟨cidr, value, hi⟩ := h.node? i
      rw [hi, Option.map_map]
      rfl
    exact hids ▸ ht.nodup
  top := fun m hm ↦ by
    obtain ⟨n, hn, heq⟩ := h.exists_node? hm
    rw [heq]
    exact ht.top n hn
  link := fun i p m m' hp hm hm' ↦ by
    obtain ⟨n, hn, heq⟩ := h.exists_node? hm
    obtain ⟨n', hn', heq'⟩ := h.exists_node? hm'
    rw [heq, heq']
    exact ht.link i p n n' (h.parent? i ▸ hp) hn hn'

end Relabelled

theorem relabelled_assign (t : NodeTree) (a : Allocation) : Relabelled t (t.assign a) := by
  refine ⟨parent?_update t a.place _, fun i ↦ ?_⟩
  rw [assign, node?_update]
  cases h : t.node? i with
  | none => exact ⟨"", 0, by simp⟩
  | some n =>
    by_cases hplace : a.place = i
    · exact ⟨_, _, by rw [if_pos hplace]; rfl⟩
    · exact ⟨n.cidr, n.value, by rw [if_neg hplace]; rfl⟩

theorem relabelled_assignAll (as : List (Except PlanError Allocation)) (t : NodeTree) :
    Relabelled t (assignAll as t).2 := by
  induction as generalizing t with
  | nil => exact .refl t
  | cons a as ih =>
    cases a with
    | error e => exact .refl t
    | ok a => exact (relabelled_assign t a).trans (ih _)

/-- Numbering, carried out or refused, changes nothing but blocks and numbers. -/
theorem relabelled_fill (t : NodeTree) (base : Network) (maskLength : Nat) :
    Relabelled t (t.fill base maskLength).2 :=
  relabelled_assignAll _ t

theorem relabelled_of_fill {t t' : NodeTree} {base : Network} {maskLength : Nat}
    (h : t.fill base maskLength = (.ok (), t')) : Relabelled t t' := by
  have hfill := relabelled_fill t base maskLength
  rwa [h] at hfill

end AddressPlan.NodeTree
