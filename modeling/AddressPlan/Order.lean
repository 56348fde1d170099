/-!
# Stable sorting

`sortBy` orders a list by a relation and keeps the order of entries that the
relation does not tell apart.
-/

namespace AddressPlan.Order

variable {α : Type}

/-- Puts `a` in front of the first entry that it may precede. -/
def insertBy (le : α → α → Bool) (a : α) : List α → List α
  | [] => [a]
  | b :: bs => if le a b then a :: b :: bs else b :: insertBy le a bs

def sortBy (le : α → α → Bool) : List α → List α
  | [] => []
  | a :: as => insertBy le a (sortBy le as)

def lexLe (a b : Int × Int) : Bool :=
  decide (a.1 < b.1) || (decide (a.1 = b.1) && decide (a.2 ≤ b.2))

theorem insertBy_perm (le : α → α → Bool) (a : α) (bs : List α) :
    (insertBy le a bs).Perm (a :: bs) := by
  induction bs with
  | nil => exact .refl _
  | cons b bs ih =>
    unfold insertBy
    split
    · exact .refl _
    · exact (ih.cons b).trans (.swap a b bs)

theorem sortBy_perm (le : α → α → Bool) (as : List α) : (sortBy le as).Perm as := by
  induction as with
  | nil => exact .refl _
  | cons a as ih => exact (insertBy_perm le a _).trans (ih.cons a)

section Stable

variable {le : α → α → Bool} {p : α → Bool}
  (alike : ∀ a b, p a = true → p b = true → le a b = true)

include alike

theorem filter_insertBy (a : α) (bs : List α) :
    (insertBy le a bs).filter p = (a :: bs).filter p := by
  induction bs with
  | nil => rfl
  | cons b bs ih =>
    unfold insertBy
    split
    · rfl
    · rename_i hab
      rw [List.filter_cons, ih, List.filter_cons, List.filter_cons, List.filter_cons]
      by_cases ha : p a = true
      · have hb : ¬ p b = true := fun hb ↦ hab (alike a b ha hb)
        rw [if_neg hb, if_pos ha, if_neg hb, if_pos ha]
      · rw [if_neg ha, if_neg ha]

/-- Entries that the relation does not tell apart stay in their order. -/
theorem filter_sortBy (as : List α) : (sortBy le as).filter p = as.filter p := by
  induction as with
  | nil => rfl
  | cons a as ih =>
    rw [sortBy, filter_insertBy alike, List.filter_cons, List.filter_cons, ih]

end Stable

section Sorted

variable {le : α → α → Bool} (total : ∀ a b, le a b = true ∨ le b a = true)
  (trans : ∀ a b c, le a b = true → le b c = true → le a c = true)

include total trans

theorem insertBy_pairwise (a : α) {bs : List α} (h : bs.Pairwise fun a b ↦ le a b = true) :
    (insertBy le a bs).Pairwise fun a b ↦ le a b = true := by
  induction bs with
  | nil => exact List.pairwise_singleton _ a
  | cons b bs ih =>
    rw [List.pairwise_cons] at h
    unfold insertBy
    split
    · rename_i hab
      refine .cons (fun c hc ↦ ?_) (.cons h.1 h.2)
      rcases List.mem_cons.mp hc with rfl | hc
      · exact hab
      · exact trans a b c hab (h.1 c hc)
    · rename_i hab
      refine .cons (fun c hc ↦ ?_) (ih h.2)
      rcases List.mem_cons.mp ((insertBy_perm le a bs).mem_iff.mp hc) with rfl | hc
      · exact (total b c).resolve_right hab
      · exact h.1 c hc

theorem sortBy_pairwise (as : List α) : (sortBy le as).Pairwise fun a b ↦ le a b = true := by
  induction as with
  | nil => exact .nil
  | cons a as ih => exact insertBy_pairwise total trans a ih

/-- A list in strict order is what sorting its entries gives. -/
theorem sortBy_eq {as bs : List α} (hperm : as.Perm bs)
    (hbs : bs.Pairwise fun a b ↦ le a b = true ∧ le b a = false) : sortBy le as = bs := by
  have hsorted : (sortBy le as).Perm bs := (sortBy_perm le as).trans hperm
  refine hsorted.eq_of_pairwise (fun a b ha hb hab hba ↦ ?_) (sortBy_pairwise total trans as)
    (hbs.imp And.left)
  have ha' := hsorted.mem_iff.mp ha
  obtain ⟨i, hi, rfl⟩ := List.getElem_of_mem ha'
  obtain ⟨j, hj, rfl⟩ := List.getElem_of_mem hb
  rcases Nat.lt_trichotomy i j with hlt | rfl | hlt
  · have hstrict := (List.pairwise_iff_getElem.mp hbs i j hi hj hlt).2
    rw [hba] at hstrict
    cases hstrict
  · rfl
  · have hstrict := (List.pairwise_iff_getElem.mp hbs j i hj hi hlt).2
    rw [hab] at hstrict
    cases hstrict

end Sorted

end AddressPlan.Order
