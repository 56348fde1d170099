import AddressPlan.Node
import Mathlib.Data.List.Nodup
import Mathlib.Logic.Relation

/-!
# Ancestry among rows

Rows point to their parents by id.  Whatever a table holds, following these links is a
relation on ids; if the ids are distinct there is only one way to follow them.  The rows
of a layout form a tree if they have one root and every row leads to it.
-/

namespace AddressPlan.Rows

open Relation

def ofLayout (rows : List Node) (layoutId : Int) : List Node :=
  rows.filter (·.layoutId == layoutId)

structure Keyed (rows : List Node) : Prop where
  nodup : (rows.map Node.id).Nodup
  pos : ∀ n ∈ rows, 0 < n.id

/-- A row with the first id names the second one as its parent. -/
def ParentLink (rows : List Node) (child parent : Int) : Prop :=
  ∃ n ∈ rows, n.id = child ∧ n.parentId = parent

/-- Parent links lead from the first id to the second one, in any number of steps. -/
def Below (rows : List Node) : Int → Int → Prop :=
  ReflTransGen (ParentLink rows)

variable {rows rows' : List Node} {layoutId : Int}

@[simp] theorem mem_ofLayout {n : Node} :
    n ∈ ofLayout rows layoutId ↔ n ∈ rows ∧ n.layoutId = layoutId := by
  simp [ofLayout]

@[simp] theorem ofLayout_append (rows rows' : List Node) (layoutId : Int) :
    ofLayout (rows ++ rows') layoutId = ofLayout rows layoutId ++ ofLayout rows' layoutId :=
  List.filter_append ..

theorem isRoot_iff {n : Node} : n.isRoot = true ↔ n.parentId = 0 := by
  simp [Node.isRoot, Node.rootParent]

theorem not_isRoot_iff {n : Node} : n.isRoot = false ↔ n.parentId ≠ 0 := by
  simp [Node.isRoot, Node.rootParent]

/-! ## Links -/

theorem ParentLink.mono (hsub : rows ⊆ rows') {c p : Int} (h : ParentLink rows c p) :
    ParentLink rows' c p := by
  obtain ⟨n, hn, hc, hp⟩ := h
  exact ⟨n, hsub hn, hc, hp⟩

theorem Below.mono (hsub : rows ⊆ rows') {c a : Int} (h : Below rows c a) : Below rows' c a :=
  ReflTransGen.mono (fun _ _ ↦ ParentLink.mono hsub) _ _ h

theorem Below.refl (c : Int) : Below rows c c := ReflTransGen.refl

theorem Below.head {c p a : Int} (h : ParentLink rows c p) (h' : Below rows p a) :
    Below rows c a :=
  ReflTransGen.head h h'

theorem Below.of_mem {n : Node} (hn : n ∈ rows) {a : Int} (h : Below rows n.parentId a) :
    Below rows n.id a :=
  h.head ⟨n, hn, rfl, rfl⟩

theorem Below.cases_head {c a : Int} (h : Below rows c a) :
    c = a ∨ ∃ n ∈ rows, n.id = c ∧ Below rows n.parentId a := by
  rcases ReflTransGen.cases_head h with rfl | ⟨p, ⟨n, hn, hc, rfl⟩, hp⟩
  · exact Or.inl rfl
  · exact Or.inr ⟨n, hn, hc, hp⟩

namespace Keyed

theorem sublist (h : Keyed rows') (hsub : rows.Sublist rows') : Keyed rows where
  nodup := h.nodup.sublist (hsub.map Node.id)
  pos := fun n hn ↦ h.pos n (hsub.subset hn)

theorem ofLayout (h : Keyed rows) (layoutId : Int) : Keyed (ofLayout rows layoutId) :=
  h.sublist List.filter_sublist

theorem eq_of_id_eq (h : Keyed rows) {n m : Node} (hn : n ∈ rows) (hm : m ∈ rows)
    (hid : n.id = m.id) : n = m :=
  List.inj_on_of_nodup_map h.nodup hn hm hid

theorem rows_nodup (h : Keyed rows) : rows.Nodup := h.nodup.of_map

theorem below_iff (h : Keyed rows) {n : Node} (hn : n ∈ rows) {a : Int} :
    Below rows n.id a ↔ n.id = a ∨ Below rows n.parentId a := by
  constructor
  · intro hbelow
    rcases hbelow.cases_head with heq | ⟨m, hm, hid, hm'⟩
    · exact Or.inl heq
    · rw [h.eq_of_id_eq hm hn hid] at hm'
      exact Or.inr hm'
  · rintro (rfl | hp)
    · exact Below.refl _
    · exact hp.of_mem hn

theorem eq_of_below_root (h : Keyed rows) {n : Node} (hn : n ∈ rows) (hroot : n.isRoot)
    {a : Int} (ha : 0 < a) (hbelow : Below rows n.id a) : n.id = a := by
  rcases (h.below_iff hn).mp hbelow with heq | hp
  · exact heq
  · rw [isRoot_iff.mp hroot] at hp
    rcases hp.cases_head with heq | ⟨m, hm, hid, -⟩
    · omega
    · have hpos := h.pos m hm
      omega

end Keyed

/-- Ids are distinct and positive, and `last` is ahead of them. -/
structure NumberedTo (rows : List Node) (last : Int) : Prop where
  keyed : Keyed rows
  le_last : ∀ n ∈ rows, n.id ≤ last
  last_nonneg : 0 ≤ last

namespace NumberedTo

variable {last : Int}

theorem sublist (h : NumberedTo rows' last) (hsub : rows.Sublist rows') :
    NumberedTo rows last where
  keyed := h.keyed.sublist hsub
  le_last := fun n hn ↦ h.le_last n (hsub.subset hn)
  last_nonneg := h.last_nonneg

theorem succ (h : NumberedTo rows last) : NumberedTo rows (last + 1) where
  keyed := h.keyed
  le_last := fun n hn ↦ by
    have hle := h.le_last n hn
    omega
  last_nonneg := by
    have hle := h.last_nonneg
    omega

/-- A row may come with a positive id that is free, or gets the next one. -/
theorem append_row (h : NumberedTo rows last) {n : Node} {id : Int}
    (hid : 0 < n.id ∧ id = n.id ∧ (∀ m ∈ rows, m.id ≠ n.id) ∨ n.id ≤ 0 ∧ id = last + 1) :
    NumberedTo (rows ++ [{ n with id }]) (max last id) := by
  have hlast := h.last_nonneg
  have hpos : 0 < id := by omega
  have hfresh : ∀ m ∈ rows, m.id ≠ id := by
    intro m hm
    have hle := h.le_last m hm
    rcases hid with ⟨-, rfl, hfree⟩ | ⟨-, rfl⟩
    · exact hfree m hm
    · omega
  refine ⟨⟨?_, ?_⟩, ?_, by omega⟩
  · simp only [List.map_append, List.map_cons, List.map_nil, List.nodup_append]
    refine ⟨h.keyed.nodup, List.nodup_singleton _, ?_⟩
    intro a ha b hb
    obtain ⟨m, hm, rfl⟩ := List.mem_map.mp ha
    exact List.mem_singleton.mp hb ▸ hfresh m hm
  · intro m hm
    rcases List.mem_append.mp hm with hm | hm
    · exact h.keyed.pos m hm
    · exact List.mem_singleton.mp hm ▸ hpos
  · intro m hm
    rcases List.mem_append.mp hm with hm | hm
    · have hle := h.le_last m hm
      omega
    · rw [List.mem_singleton.mp hm]
      exact Int.le_max_right last id

end NumberedTo

/-! ## Trees of rows -/

def ParentsIn (rows : List Node) : Prop :=
  ∀ n ∈ rows, n.isRoot = false → ∃ p ∈ rows, p.id = n.parentId

theorem parentsIn_nil : ParentsIn [] := fun _ hn ↦ absurd hn List.not_mem_nil

/-- Links that start in a part whose parents are its own rows stay in it. -/
theorem Keyed.below_part (h : Keyed rows) {part : List Node} (hsub : part ⊆ rows)
    (hparents : ParentsIn part) {n : Node} (hn : n ∈ part) {a : Int} (ha : 0 < a)
    (hbelow : Below rows n.id a) : Below part n.id a := by
  obtain ⟨c, hc⟩ : ∃ c, n.id = c := ⟨_, rfl⟩
  rw [hc] at hbelow ⊢
  induction hbelow using ReflTransGen.head_induction_on generalizing n with
  | refl => exact Below.refl _
  | head hlink hrest ih =>
    obtain ⟨m, hm, hid, rfl⟩ := hlink
    obtain rfl := h.eq_of_id_eq hm (hsub hn) (hid.trans hc.symm)
    subst hc
    by_cases hroot : m.isRoot
    · exact h.eq_of_below_root hm hroot ha (hrest.head ⟨m, hm, rfl, rfl⟩) ▸ Below.refl _
    · obtain ⟨p, hp, hpid⟩ := hparents m hn (by simpa using hroot)
      exact (ih hp hpid).of_mem hn

theorem ParentsIn.exists_of_below (h : ParentsIn rows) {c a : Int} (ha : 0 < a)
    (hc : ∃ n ∈ rows, n.id = c) (hbelow : Below rows c a) : ∃ m ∈ rows, m.id = a := by
  rcases ReflTransGen.cases_tail hbelow with rfl | ⟨b, -, n, hn, -, rfl⟩
  · exact hc
  · exact h n hn (not_isRoot_iff.mpr (by omega))

/-- The rows form one tree: `root` is the only one without a parent, parents are rows of
the list, and every row leads to the root. -/
structure IsTree (rows : List Node) (root : Node) : Prop where
  roots : rows.filter Node.isRoot = [root]
  parents : ParentsIn rows
  below_root : ∀ n ∈ rows, Below rows n.id root.id

def EmptyOrTree (rows : List Node) : Prop :=
  rows = [] ∨ ∃ root, IsTree rows root

theorem find?_isRoot_of_roots {root : Node} (hroots : rows.filter Node.isRoot = [root]) :
    rows.find? Node.isRoot = some root := by
  rw [← List.head?_filter, hroots, List.head?_cons]

namespace IsTree

variable {root : Node}

theorem root_mem (h : IsTree rows root) : root ∈ rows := by
  have hmem : root ∈ rows.filter Node.isRoot := by simp [h.roots]
  exact List.mem_of_mem_filter hmem

theorem root_isRoot (h : IsTree rows root) : root.isRoot := by
  have hmem : root ∈ rows.filter Node.isRoot := by simp [h.roots]
  exact (List.mem_filter.mp hmem).2

theorem eq_root (h : IsTree rows root) {n : Node} (hn : n ∈ rows) (hroot : n.isRoot) :
    n = root := by
  have hmem : n ∈ rows.filter Node.isRoot := List.mem_filter.mpr ⟨hn, hroot⟩
  simpa [h.roots] using hmem

/-- Rows with distinct ids form a tree if one of them is the only root, parents are rows, and
every row leads to it. -/
theorem of_unique (hkeyed : Keyed rows) (hmem : root ∈ rows) (hroot : root.isRoot = true)
    (hunique : ∀ n ∈ rows, n.isRoot = true → n = root) (hparents : ParentsIn rows)
    (hbelow : ∀ n ∈ rows, Below rows n.id root.id) : IsTree rows root where
  roots := by
    refine List.perm_singleton.mp ((List.perm_ext_iff_of_nodup
      (hkeyed.rows_nodup.filter _) (List.nodup_singleton root)).mpr fun n ↦ ?_)
    rw [List.mem_filter, List.mem_singleton]
    constructor
    · rintro ⟨hn, hisRoot⟩
      exact hunique n hn hisRoot
    · rintro rfl
      exact ⟨hmem, hroot⟩
  parents := hparents
  below_root := hbelow

/-- Rows of a tree that hold the root and the parents of their own form a tree. -/
theorem part (h : IsTree rows root) (hkeyed : Keyed rows) {part : List Node}
    (hsub : part.Sublist rows) (hroot : root ∈ part) (hparents : ParentsIn part) :
    IsTree part root := by
  refine .of_unique (hkeyed.sublist hsub) hroot h.root_isRoot
    (fun n hn ↦ h.eq_root (hsub.subset hn)) hparents fun n hn ↦ ?_
  have hpos := hkeyed.pos root h.root_mem
  exact hkeyed.below_part hsub.subset hparents hn hpos (h.below_root n (hsub.subset hn))

end IsTree

theorem Keyed.perm (h : Keyed rows) (hperm : rows.Perm rows') : Keyed rows' where
  nodup := (hperm.map Node.id).nodup_iff.mp h.nodup
  pos := fun n hn ↦ h.pos n (hperm.mem_iff.mpr hn)

theorem EmptyOrTree.perm (h : EmptyOrTree rows) (hperm : rows.Perm rows') :
    EmptyOrTree rows' := by
  rcases h with rfl | ⟨root, hroot⟩
  · exact Or.inl hperm.nil_eq.symm
  · refine Or.inr ⟨root, ?_, fun n hn hnotRoot ↦ ?_, fun n hn ↦ ?_⟩
    · have hroots := hperm.filter Node.isRoot
      rw [hroot.roots] at hroots
      exact List.perm_singleton.mp hroots.symm
    · obtain ⟨p, hp, hid⟩ := hroot.parents n (hperm.mem_iff.mpr hn) hnotRoot
      exact ⟨p, hperm.mem_iff.mp hp, hid⟩
    · exact (hroot.below_root n (hperm.mem_iff.mpr hn)).mono hperm.subset

theorem EmptyOrTree.parentsIn (h : EmptyOrTree rows) : ParentsIn rows := by
  rcases h with rfl | ⟨root, hroot⟩
  · exact parentsIn_nil
  · exact hroot.parents

end AddressPlan.Rows
