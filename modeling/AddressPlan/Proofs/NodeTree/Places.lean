import AddressPlan.NodeTree.Basic
import Mathlib.Data.List.Basic
import Mathlib.Data.List.Induction
import Mathlib.Logic.Relation

/-!
# Places of a tree

A place holds a node and knows the place of its parent.  In a rooted tree parents stand in
front of their children, so everything stands under the root and of two places above a
third one is above the other.
-/

namespace AddressPlan.NodeTree

open Relation

def node? (t : NodeTree) (i : Nat) : Option Node :=
  t.slots[i]?.map Slot.node

def parent? (t : NodeTree) (i : Nat) : Option Nat :=
  t.slots[i]?.bind Slot.parent

/-- The first place has no parent, and every other one has one in front of it. -/
structure Rooted (t : NodeTree) : Prop where
  top : t.parent? 0 = none
  parent : ∀ i, 0 < i → i < t.size → ∃ p < i, t.parent? i = some p

/-- The second place is the first one or stands above it. -/
def Under (t : NodeTree) : Nat → Nat → Prop :=
  ReflTransGen fun i p ↦ t.parent? i = some p

def Holds (t : NodeTree) (p : Placed) : Prop :=
  t.node? p.place = some p.node

variable {t : NodeTree} {i j k p : Nat}

theorem node?_eq_some_iff {n : Node} :
    t.node? i = some n ↔ ∃ s, t.slots[i]? = some s ∧ s.node = n := by
  simp [node?]

theorem parent?_eq_some_iff :
    t.parent? i = some p ↔ ∃ s, t.slots[i]? = some s ∧ s.parent = some p := by
  simp [parent?, Option.bind_eq_some_iff]

theorem lt_size_iff : i < t.size ↔ ∃ n, t.node? i = some n := by
  constructor
  · intro hi
    exact ⟨_, node?_eq_some_iff.mpr ⟨_, List.getElem?_eq_getElem hi, rfl⟩⟩
  · rintro ⟨n, hn⟩
    obtain ⟨s, hs, -⟩ := node?_eq_some_iff.mp hn
    exact (List.getElem?_eq_some_iff.mp hs).1

theorem node?_eq_none (hi : ¬ i < t.size) : t.node? i = none :=
  Option.eq_none_iff_forall_ne_some.mpr fun n hn ↦ hi (lt_size_iff.mpr ⟨n, hn⟩)

theorem lt_size_of_parent? (h : t.parent? i = some p) : i < t.size := by
  obtain ⟨s, hs, -⟩ := parent?_eq_some_iff.mp h
  exact (List.getElem?_eq_some_iff.mp hs).1

theorem root?_eq_node? (t : NodeTree) : t.root? = t.node? 0 := by
  rw [root?, node?, List.head?_eq_getElem?]

theorem getElem?_flatten (t : NodeTree) (i : Nat) : t.flatten[i]? = t.node? i :=
  List.getElem?_map

theorem mem_flatten {n : Node} : n ∈ t.flatten ↔ ∃ i, t.node? i = some n := by
  simp only [List.mem_iff_getElem?, getElem?_flatten]

theorem filterMap_node?_range (t : NodeTree) :
    (List.range t.size).filterMap t.node? = t.flatten := by
  have hall : ∀ ns : List Node, (List.range ns.length).filterMap (ns[·]?) = ns := by
    intro ns
    induction ns using List.reverseRecOn with
    | nil => rfl
    | append_singleton ns n ih =>
      have hfront : (List.range ns.length).filterMap ((ns ++ [n])[·]?) = ns := by
        refine (List.filterMap_congr fun i hi ↦ ?_).trans ih
        exact List.getElem?_append_left (List.mem_range.mp hi)
      rw [List.length_append, List.length_singleton, List.range_succ, List.filterMap_append,
        hfront, List.filterMap_cons_some List.getElem?_concat_length, List.filterMap_nil]
  have hsize : t.size = t.flatten.length := by rw [flatten, List.length_map, size]
  rw [hsize]
  exact (List.filterMap_congr fun i _ ↦ (getElem?_flatten t i).symm).trans (hall t.flatten)

theorem node?_update (t : NodeTree) (i : Nat) (f : Node → Node) (j : Nat) :
    (t.update i f).node? j = if i = j then (t.node? j).map f else t.node? j := by
  simp only [node?, update, List.getElem?_modify]
  cases t.slots[j]? with
  | none => simp
  | some s =>
    by_cases hij : i = j
    · simp [hij]
    · simp [hij]

@[simp] theorem parent?_update (t : NodeTree) (i : Nat) (f : Node → Node) (j : Nat) :
    (t.update i f).parent? j = t.parent? j := by
  simp only [parent?, update, List.getElem?_modify]
  cases t.slots[j]? with
  | none => rfl
  | some s =>
    by_cases hij : i = j
    · simp [hij]
    · simp [hij]

theorem eq_of_places {t' : NodeTree} (hnode : ∀ i, t.node? i = t'.node? i)
    (hparent : ∀ i, t.parent? i = t'.parent? i) : t = t' := by
  suffices hslots : t.slots = t'.slots by
    rw [← show ⟨t.slots⟩ = t from rfl, hslots]
  apply List.ext_getElem?
  intro i
  have hn := hnode i
  have hp := hparent i
  unfold node? at hn
  unfold parent? at hp
  cases hs : t.slots[i]? with
  | none =>
    rw [hs] at hn
    exact (Option.map_eq_none_iff.mp hn.symm).symm
  | some s =>
    rw [hs, Option.map_some] at hn
    obtain ⟨s', hs', hsame⟩ := Option.map_eq_some_iff.mp hn.symm
    rw [hs, hs', Option.bind_some, Option.bind_some] at hp
    rw [hs', Option.some.injEq]
    rcases s with ⟨n, p⟩
    rcases s' with ⟨n', p'⟩
    cases hsame
    cases hp
    rfl

/-! ## Ancestry -/

theorem Under.refl (i : Nat) : t.Under i i := ReflTransGen.refl

theorem Under.trans (h : t.Under i j) (h' : t.Under j k) : t.Under i k :=
  ReflTransGen.trans h h'

theorem Under.of_parent (h : t.parent? i = some p) : t.Under i p :=
  ReflTransGen.single h

theorem under_iff : t.Under i j ↔ i = j ∨ ∃ p, t.parent? i = some p ∧ t.Under p j := by
  constructor
  · intro h
    rcases ReflTransGen.cases_head h with heq | ⟨p, hp, hrest⟩
    · exact Or.inl heq
    · exact Or.inr ⟨p, hp, hrest⟩
  · rintro (rfl | ⟨p, hp, hrest⟩)
    · exact Under.refl i
    · exact ReflTransGen.head hp hrest

theorem Under.cases_child (h : t.Under i j) : i = j ∨ ∃ c, t.Under i c ∧ t.parent? c = some j := by
  rcases ReflTransGen.cases_tail h with heq | ⟨c, hc, hparent⟩
  · exact Or.inl heq.symm
  · exact Or.inr ⟨c, hc, hparent⟩

theorem Under.total (h : t.Under i j) (h' : t.Under i k) : t.Under j k ∨ t.Under k j := by
  refine ReflTransGen.total_of_right_unique ?_ h h'
  intro a b c hb hc
  exact Option.some.inj (hb.symm.trans hc)

namespace Rooted

theorem lt_of_parent? (h : t.Rooted) (hp : t.parent? i = some p) : p < i := by
  rcases Nat.eq_zero_or_pos i with rfl | hpos
  · rw [h.top] at hp
    cases hp
  · obtain ⟨p', hlt, hp'⟩ := h.parent i hpos (lt_size_of_parent? hp)
    rw [hp] at hp'
    cases hp'
    exact hlt

theorem exists_parent_node (h : t.Rooted) (hp : t.parent? i = some p) :
    ∃ n, t.node? p = some n :=
  lt_size_iff.mp (Nat.lt_trans (h.lt_of_parent? hp) (lt_size_of_parent? hp))

theorem le_of_under (h : t.Rooted) (hunder : t.Under i j) : j ≤ i := by
  induction hunder with
  | refl => exact Nat.le_refl _
  | tail _ hp ih => exact Nat.le_trans (Nat.le_of_lt (h.lt_of_parent? hp)) ih

theorem under_zero (h : t.Rooted) (hi : i < t.size) : t.Under i 0 := by
  induction i using Nat.strongRecOn with
  | _ i ih =>
    rcases Nat.eq_zero_or_pos i with rfl | hpos
    · exact Under.refl 0
    · obtain ⟨p, hlt, hp⟩ := h.parent i hpos hi
      exact (Under.of_parent hp).trans (ih p hlt (Nat.lt_trans hlt hi))

/-- Nothing stands under two siblings. -/
theorem siblings_apart (h : t.Rooted) {c d : Nat} (hc : t.parent? c = some p)
    (hd : t.parent? d = some p) (hic : t.Under i c) (hid : t.Under i d) : c = d := by
  have hsub : ∀ {c d}, t.parent? c = some p → t.parent? d = some p → t.Under c d → c = d := by
    intro c d hc hd hcd
    rcases under_iff.mp hcd with heq | ⟨q, hq, hqd⟩
    · exact heq
    · cases Option.some.inj (hc.symm.trans hq)
      have hle := h.le_of_under hqd
      have hlt := h.lt_of_parent? hd
      omega
  rcases hic.total hid with hcd | hdc
  · exact hsub hc hd hcd
  · exact (hsub hd hc hdc).symm

/-- Two places of which none is above the other stand under two siblings. -/
theorem exists_siblings (h : t.Rooted) (hi : i < t.size) (hj : j < t.size)
    (hij : ¬ t.Under i j) (hji : ¬ t.Under j i) :
    ∃ p c d, t.parent? c = some p ∧ t.parent? d = some p ∧ c ≠ d ∧
      t.Under i c ∧ t.Under j d := by
  induction i using Nat.strongRecOn with
  | _ i ih =>
    rcases Nat.eq_zero_or_pos i with rfl | hpos
    · exact absurd (h.under_zero hj) hji
    obtain ⟨q, hlt, hq⟩ := h.parent i hpos hi
    by_cases hjq : t.Under j q
    · rcases hjq.cases_child with rfl | ⟨d, hjd, hd⟩
      · exact absurd (Under.of_parent hq) hij
      · refine ⟨q, i, d, hq, hd, ?_, Under.refl i, hjd⟩
        rintro rfl
        exact hji hjd
    · have hqj : ¬ t.Under q j := fun hqj ↦ hij ((Under.of_parent hq).trans hqj)
      obtain ⟨p, c, d, hc, hd, hne, hqc, hjd⟩ := ih q hlt (Nat.lt_trans hlt hi) hqj hjq
      exact ⟨p, c, d, hc, hd, hne, (Under.of_parent hq).trans hqc, hjd⟩

end Rooted

/-! ## Trees of one shape -/

/-- The second tree has the places of the first one, and each has the same parent. -/
structure SameShape (t t' : NodeTree) : Prop where
  node? : ∀ i, (∃ m, t'.node? i = some m) ↔ ∃ n, t.node? i = some n
  parent? : ∀ i, t'.parent? i = t.parent? i

namespace SameShape

variable {t' : NodeTree}

theorem size_eq (h : SameShape t t') : t'.size = t.size := by
  have hiff : ∀ i, i < t'.size ↔ i < t.size := by
    intro i
    rw [lt_size_iff, lt_size_iff, h.node?]
  have hle := (hiff t.size).mp
  have hge := (hiff t'.size).mpr
  omega

theorem under_iff (h : SameShape t t') : t'.Under i j ↔ t.Under i j := by
  unfold Under
  simp only [h.parent?]

theorem rooted (h : SameShape t t') (ht : t.Rooted) : t'.Rooted where
  top := (h.parent? 0).trans ht.top
  parent := by
    intro i hpos hi
    rw [h.parent? i]
    exact ht.parent i hpos (h.size_eq ▸ hi)

end SameShape

/-! The parents of all places tell the shape. -/

theorem parents_update (t : NodeTree) (i : Nat) (f : Node → Node) :
    (t.update i f).slots.map Slot.parent = t.slots.map Slot.parent := by
  refine List.ext_getElem? fun j ↦ ?_
  rw [List.getElem?_map, List.getElem?_map, update, List.getElem?_modify]
  cases t.slots[j]? with
  | none => rfl
  | some s => by_cases h : i = j <;> simp [h]

theorem parent?_congr {t t' : NodeTree} (h : t'.slots.map Slot.parent = t.slots.map Slot.parent)
    (i : Nat) : t'.parent? i = t.parent? i := by
  have hjoin : ∀ t : NodeTree, t.parent? i = ((t.slots.map Slot.parent)[i]?).join := by
    intro t
    rw [parent?, List.getElem?_map]
    cases t.slots[i]? <;> rfl
  rw [hjoin, hjoin, h]

theorem rooted_congr {t' : NodeTree} (h : t'.slots.map Slot.parent = t.slots.map Slot.parent)
    (ht : t.Rooted) : t'.Rooted where
  top := (parent?_congr h 0).trans ht.top
  parent := fun i hpos hi ↦ by
    have hsize := congrArg List.length h
    rw [List.length_map, List.length_map] at hsize
    rw [parent?_congr h]
    exact ht.parent i hpos (Nat.lt_of_lt_of_eq hi hsize)

/-! ## Children -/

theorem Rooted.mem_children (h : t.Rooted) {c : Placed} :
    c ∈ t.children i ↔ t.Holds c ∧ t.parent? c.place = some i := by
  simp only [children, List.mem_filterMap, Prod.exists, Holds, node?_eq_some_iff,
    parent?_eq_some_iff, List.mem_zipIdx_iff_getElem?]
  constructor
  · rintro ⟨s, j, hs, hc⟩
    split at hc
    · rename_i hj
      cases hc
      exact ⟨⟨s, hs, rfl⟩, s, hs, hj.2⟩
    · cases hc
  · rintro ⟨⟨s, hs, hnode⟩, s', hs', hparent⟩
    rw [hs] at hs'
    cases hs'
    have hlt := h.lt_of_parent? (parent?_eq_some_iff.mpr ⟨s, hs, hparent⟩)
    exact ⟨s, c.place, hs, by simp [hlt, hparent, hnode]⟩

theorem children_pairwise (t : NodeTree) (i : Nat) :
    (t.children i).Pairwise fun c d ↦ c.place < d.place := by
  have hplaces : (t.slots.zipIdx.map Prod.snd).Pairwise (· < ·) := by
    rw [List.zipIdx_map_snd]
    exact List.pairwise_lt_range'
  have hplace : ∀ {a : Slot × Nat} {c : Placed},
      (if i < a.2 ∧ a.1.parent = some i then some (⟨a.2, a.1.node⟩ : Placed) else none) = some c →
        c.place = a.2 := by
    intro a c hc
    split at hc
    · cases hc
      rfl
    · cases hc
  apply (List.pairwise_map.mp hplaces).filterMap _
  intro a b hab c hc d hd
  rw [hplace hc, hplace hd]
  exact hab

end AddressPlan.NodeTree
