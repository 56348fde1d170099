import AddressPlan.Proofs.Rows.Ancestry
import AddressPlan.Store.Database
import AddressPlan.Store.Recording

/-!
# Everything below an id

Both stores collect an id and the ids of all rows below it, one in rounds over the whole
table and one along a work list.  In either case every step grows a list by ids of rows
that were not in it, so that the list and the rows outside of it never get more.  That
bounds the steps, and a list that no longer grows is closed under parent links.
-/

namespace AddressPlan.Rows

open Relation

/-- Adds the ids of the rows that satisfy `p` and are not in the list. -/
def grow (rows : List Node) (p : Node → Bool) (ids : List Int) : List Int :=
  ids ++ (rows.filter fun n ↦ p n && !ids.contains n.id).map Node.id

def outside (rows : List Node) (ids : List Int) : List Node :=
  rows.filter fun n ↦ !ids.contains n.id

def ClosedUnderLinks (rows : List Node) (ids : List Int) : Prop :=
  ∀ n ∈ rows, n.parentId ∈ ids → n.id ∈ ids

variable {rows : List Node} {ids : List Int} {p : Node → Bool}

theorem mem_grow {x : Int} :
    x ∈ grow rows p ids ↔ x ∈ ids ∨ ∃ n ∈ rows, p n ∧ n.id = x := by
  simp only [grow, List.mem_append, List.mem_map, List.mem_filter, Bool.and_eq_true,
    Bool.not_eq_true', List.contains_eq_mem, decide_eq_false_iff_not]
  constructor
  · rintro (hx | ⟨n, ⟨hn, hp, -⟩, rfl⟩)
    · exact Or.inl hx
    · exact Or.inr ⟨n, hn, hp, rfl⟩
  · rintro (hx | ⟨n, hn, hp, rfl⟩)
    · exact Or.inl hx
    · by_cases hmem : n.id ∈ ids
      · exact Or.inl hmem
      · exact Or.inr ⟨n, ⟨hn, hp, hmem⟩, rfl⟩

/-- What the list gains was outside of it before. -/
theorem length_grow_add_outside_le (rows : List Node) (p : Node → Bool) (ids : List Int) :
    (grow rows p ids).length + (outside rows (grow rows p ids)).length ≤
      ids.length + (outside rows ids).length := by
  have hgained : (grow rows p ids).length = ids.length + ((outside rows ids).filter p).length := by
    simp [grow, outside, List.filter_filter]
  have hleft : (outside rows (grow rows p ids)).length ≤
      ((outside rows ids).filter fun n ↦ !p n).length := by
    simp only [outside, List.filter_filter, ← List.countP_eq_length_filter]
    apply List.countP_mono_left
    intro n hn hout
    simp only [Bool.and_eq_true, Bool.not_eq_true', List.contains_eq_mem,
      decide_eq_false_iff_not, mem_grow, not_or, not_exists, not_and] at hout ⊢
    exact ⟨Bool.eq_false_iff.mpr fun hp ↦ hout.2 n hn hp rfl, hout.1⟩
  have hsplit := List.length_eq_length_filter_add (l := outside rows ids) p
  omega

theorem below_of_mem_grow {d x : Int} (hp : ∀ n ∈ rows, p n → n.parentId ∈ ids)
    (h : ∀ i ∈ ids, Below rows i d) (hx : x ∈ grow rows p ids) : Below rows x d := by
  rcases mem_grow.mp hx with hx | ⟨n, hn, hpn, rfl⟩
  · exact h x hx
  · exact (h _ (hp n hn hpn)).of_mem hn

namespace ClosedUnderLinks

theorem mem_of_below (h : ClosedUnderLinks rows ids) {x d : Int}
    (hd : d ∈ ids) (hbelow : Below rows x d) : x ∈ ids := by
  induction hbelow using ReflTransGen.head_induction_on with
  | refl => exact hd
  | head hlink _ ih =>
    obtain ⟨n, hn, rfl, rfl⟩ := hlink
    exact h n hn ih

theorem of_outside_eq_nil (h : (outside rows ids).length = 0) : ClosedUnderLinks rows ids := by
  intro n hn _
  have hnil := List.length_eq_zero_iff.mp h
  simpa using List.filter_eq_nil_iff.mp hnil n hn

end ClosedUnderLinks

/-! ## In rounds -/

section Rounds

open Database

variable {d : Int}

theorem withChildren_eq_grow (rows : List Node) (ids : List Int) :
    withChildren rows ids = grow rows (fun n ↦ ids.contains n.parentId) ids := rfl

/-- A round that finds no row changes nothing, and then no later one does. -/
theorem withChildren_eq_self (h : ClosedUnderLinks rows ids) : withChildren rows ids = ids := by
  rw [withChildren_eq_grow, grow, List.append_right_eq_self, List.map_eq_nil_iff,
    List.filter_eq_nil_iff]
  intro n hn hnew
  simp only [Bool.and_eq_true, Bool.not_eq_true', List.contains_eq_mem, decide_eq_true_eq,
    decide_eq_false_iff_not] at hnew
  exact hnew.2 (h n hn hnew.1)

theorem closed_or_length_lt (rows : List Node) (ids : List Int) :
    ClosedUnderLinks rows ids ∨ ids.length < (withChildren rows ids).length := by
  by_cases hclosed : ClosedUnderLinks rows ids
  · exact Or.inl hclosed
  · right
    simp only [ClosedUnderLinks, not_forall] at hclosed
    obtain ⟨n, hn, hparent, hid⟩ := hclosed
    have hnew : 0 < (rows.filter fun n ↦ ids.contains n.parentId && !ids.contains n.id).length :=
      List.length_pos_of_mem (List.mem_filter.mpr ⟨hn, by simp [hparent, hid]⟩)
    simp only [withChildren, List.length_append, List.length_map]
    omega

theorem length_rounds_add_outside_le (rows : List Node) (d : Int) (k : Nat) :
    (k.repeat (withChildren rows) [d]).length +
      (outside rows (k.repeat (withChildren rows) [d])).length ≤ rows.length + 1 := by
  induction k with
  | zero =>
    have hle := List.length_filter_le (fun n : Node ↦ !([d].contains n.id)) rows
    simp only [Nat.repeat, outside, List.length_singleton]
    omega
  | succ k ih => exact Nat.le_trans (length_grow_add_outside_le _ _ _) ih

theorem closed_or_lt_length_rounds (rows : List Node) (d : Int) (k : Nat) :
    ClosedUnderLinks rows (k.repeat (withChildren rows) [d]) ∨
      k < (k.repeat (withChildren rows) [d]).length := by
  induction k with
  | zero => exact Or.inr Nat.zero_lt_one
  | succ k ih =>
    rw [Nat.repeat]
    rcases closed_or_length_lt rows (k.repeat (withChildren rows) [d]) with hclosed | hlt
    · rw [withChildren_eq_self hclosed]
      exact Or.inl hclosed
    · rcases ih with hclosed | hk
      · rw [withChildren_eq_self hclosed]
        exact Or.inl hclosed
      · exact Or.inr (by omega)

theorem closed_subtreeIds (rows : List Node) (d : Int) :
    ClosedUnderLinks rows (subtreeIds rows d) := by
  rcases closed_or_lt_length_rounds rows d rows.length with hclosed | hlt
  · exact hclosed
  · have hle := length_rounds_add_outside_le rows d rows.length
    exact .of_outside_eq_nil (by rw [subtreeIds]; omega)

theorem below_of_mem_rounds {x : Int} (k : Nat)
    (hx : x ∈ k.repeat (withChildren rows) [d]) : Below rows x d := by
  induction k generalizing x with
  | zero => exact List.mem_singleton.mp hx ▸ Below.refl _
  | succ k ih => exact below_of_mem_grow (by simp) (fun i hi ↦ ih hi) hx

theorem subset_rounds (k : Nat) : d ∈ k.repeat (withChildren rows) [d] := by
  induction k with
  | zero => exact List.mem_singleton_self d
  | succ k ih => exact mem_grow.mpr (Or.inl ih)

/-- The rounds find an id and the ids of all rows below it, and nothing else. -/
theorem mem_subtreeIds {x : Int} : x ∈ subtreeIds rows d ↔ Below rows x d :=
  ⟨below_of_mem_rounds rows.length,
    (closed_subtreeIds rows d).mem_of_below (subset_rounds rows.length)⟩

end Rounds

/-! ## Along a work list -/

section WorkList

open Recording

variable {d : Int}

/-- The children of the first `k` entries have been added. -/
def Served (rows : List Node) (doomed : List Int) (k : Nat) : Prop :=
  ∀ j < k, ∀ parent, doomed[j]? = some parent →
    ∀ n ∈ rows, n.parentId = parent → n.id ∈ doomed

theorem growDoomed_of_some {doomed : List Int} {k : Nat} {parent : Int}
    (h : doomed[k]? = some parent) :
    growDoomed rows doomed k = grow rows (·.parentId == parent) doomed := by
  simp [growDoomed, h, grow]

theorem growDoomed_of_none {doomed : List Int} {k : Nat} (h : doomed[k]? = none) :
    growDoomed rows doomed k = doomed := by
  simp [growDoomed, h]

theorem served_succ {doomed : List Int} {k : Nat} (h : Served rows doomed k) :
    Served rows (growDoomed rows doomed k) (k + 1) := by
  intro j hj
  cases hk : doomed[k]? with
  | none =>
    rw [growDoomed_of_none hk]
    intro parent hparent
    have hlt : j < k := by
      rcases Nat.lt_succ_iff_lt_or_eq.mp hj with hlt | rfl
      · exact hlt
      · rw [hk] at hparent
        cases hparent
    exact h j hlt parent hparent
  | some last =>
    have hbound : k < doomed.length := (List.getElem?_eq_some_iff.mp hk).1
    rw [growDoomed_of_some hk]
    intro parent hparent n hn hlink
    rw [grow, List.getElem?_append_left (by omega)] at hparent
    rcases Nat.lt_succ_iff_lt_or_eq.mp hj with hlt | rfl
    · exact mem_grow.mpr (Or.inl (h j hlt parent hparent n hn hlink))
    · rw [hk, Option.some.injEq] at hparent
      exact mem_grow.mpr (Or.inr ⟨n, hn, by simp [hlink, hparent], rfl⟩)

def workList (rows : List Node) (d : Int) (k : Nat) : List Int :=
  (List.range k).foldl (growDoomed rows) [d]

theorem workList_succ (rows : List Node) (d : Int) (k : Nat) :
    workList rows d (k + 1) = growDoomed rows (workList rows d k) k := by
  simp [workList, List.range_succ]

theorem served_workList (rows : List Node) (d : Int) (k : Nat) :
    Served rows (workList rows d k) k := by
  induction k with
  | zero => exact fun j hj ↦ absurd hj j.not_lt_zero
  | succ k ih => exact workList_succ rows d k ▸ served_succ ih

theorem length_workList_add_outside_le (rows : List Node) (d : Int) (k : Nat) :
    (workList rows d k).length + (outside rows (workList rows d k)).length ≤
      rows.length + 1 := by
  induction k with
  | zero => exact length_rounds_add_outside_le rows d 0
  | succ k ih =>
    rw [workList_succ]
    cases hk : (workList rows d k)[k]? with
    | none => rwa [growDoomed_of_none hk]
    | some last =>
      rw [growDoomed_of_some hk]
      exact Nat.le_trans (length_grow_add_outside_le _ _ _) ih

theorem below_of_mem_workList (k : Nat) {x : Int} (hx : x ∈ workList rows d k) :
    Below rows x d := by
  induction k generalizing x with
  | zero => exact List.mem_singleton.mp hx ▸ Below.refl _
  | succ k ih =>
    rw [workList_succ] at hx
    cases hk : (workList rows d k)[k]? with
    | none => exact ih (growDoomed_of_none hk ▸ hx)
    | some last =>
      rw [growDoomed_of_some hk] at hx
      refine below_of_mem_grow (fun n _ hparent ↦ ?_) (fun i hi ↦ ih hi) hx
      exact beq_iff_eq.mp hparent ▸ List.mem_of_getElem? hk

theorem mem_workList_self (k : Nat) : d ∈ workList rows d k := by
  induction k with
  | zero => exact List.mem_singleton_self d
  | succ k ih =>
    rw [workList_succ]
    cases hk : (workList rows d k)[k]? with
    | none => rwa [growDoomed_of_none hk]
    | some last => exact growDoomed_of_some hk ▸ mem_grow.mpr (Or.inl ih)

theorem closed_doomed (rows : List Node) (d : Int) : ClosedUnderLinks rows (doomed rows d) := by
  intro n hn hparent
  obtain ⟨j, hj⟩ := List.mem_iff_getElem?.mp hparent
  have hbound := (List.getElem?_eq_some_iff.mp hj).1
  have hle : (doomed rows d).length + _ ≤ _ :=
    length_workList_add_outside_le rows d (rows.length + 1)
  exact served_workList rows d (rows.length + 1) j (by omega) _ hj n hn rfl

/-- The work list comes to an id and the ids of all rows below it, and to nothing else. -/
theorem mem_doomed {x : Int} : x ∈ doomed rows d ↔ Below rows x d :=
  ⟨below_of_mem_workList (rows.length + 1),
    (closed_doomed rows d).mem_of_below (mem_workList_self (rows.length + 1))⟩

end WorkList

end AddressPlan.Rows
