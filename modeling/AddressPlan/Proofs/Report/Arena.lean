import AddressPlan.Proofs.Loop
import AddressPlan.Proofs.Report.Containers

/-!
# A forest in one list

The containment forest can be kept in a list in which every block tells the indices of the blocks
right below it.  A virtual root without a block stands in front.  A claim goes down from there as
long as a child surrounds its block, and then it takes the children in its block away from where
it stopped and comes between those that are left.

Whatever plain blocks are inserted, if none of them comes twice then going down always ends, and
right below every block stand, in order, the blocks whose smallest container it is.
-/

namespace AddressPlan.Report

open NodeTree (Claim)
open Network

/-- An entry between those with a property and those without it keeps a list in order. -/
theorem pairwise_takeWhile_cons_dropWhile {α : Type} {R S : α → α → Prop} {p : α → Bool}
    {as : List α} {a : α} (hsorted : as.Pairwise R) (hsub : ∀ x y, R x y → S x y)
    (hdown : ∀ x y, R x y → p y = true → p x = true) (hfront : ∀ x ∈ as, p x = true → S x a)
    (hback : ∀ x ∈ as, p x = false → S a x) :
    (as.takeWhile p ++ a :: as.dropWhile p).Pairwise S := by
  have hsplit := hsorted.imp (hsub _ _)
  rw [← List.takeWhile_append_dropWhile (p := p) (l := as), List.pairwise_append] at hsplit
  obtain ⟨htake, hdrop, hacross⟩ := hsplit
  have hbefore : ∀ x ∈ as.takeWhile p, S x a := fun x hx ↦
    hfront x ((List.takeWhile_sublist p).subset hx) (List.mem_takeWhile_imp hx)
  have hbehind : ∀ x ∈ as.dropWhile p, S a x := fun x hx ↦
    hback x ((List.dropWhile_sublist p).subset hx) (not_of_mem_dropWhile hsorted hdown hx)
  rw [List.pairwise_append, List.pairwise_cons]
  exact ⟨htake, ⟨hbehind, hdrop⟩, fun x hx ↦
    List.forall_mem_cons.mpr ⟨hbefore x hx, hacross x hx⟩⟩

/-- A block with the indices of the blocks right below it.  Only the virtual root has no claim. -/
structure Slot where
  claim? : Option Claim
  children : List Nat
  deriving DecidableEq, Repr

structure Arena where
  slots : List Slot
  deriving DecidableEq, Repr

namespace Arena

/-- Only the virtual root. -/
def bare : Arena where
  slots := [⟨none, []⟩]

def size (a : Arena) : Nat :=
  a.slots.length

def claim? (a : Arena) (i : Nat) : Option Claim :=
  a.slots[i]?.bind Slot.claim?

def block? (a : Arena) (i : Nat) : Option Network :=
  (a.claim? i).map Claim.block

def children (a : Arena) (i : Nat) : List Nat :=
  a.slots[i]?.elim [] Slot.children

def blockHas (a : Arena) (p : Network → Prop) [DecidablePred p] (i : Nat) : Bool :=
  (a.block? i).any p

/-- The first child that surrounds a block. -/
def inner? (a : Arena) (b : Network) (i : Nat) : Option Nat :=
  (a.children i).find? (a.blockHas (Surrounds · b))

/-- Goes down from an index as long as a child surrounds the block. -/
def descendFrom (a : Arena) (b : Network) : Nat → Nat → Nat
  | 0, i => i
  | steps + 1, i =>
    match a.inner? b i with
    | none => i
    | some j => a.descendFrom b steps j

/-- Where the way down from the virtual root ends.  The blocks on it get longer and stay shorter
than the block that goes down, so there are no more steps than that. -/
def descend (a : Arena) (b : Network) : Nat :=
  a.descendFrom b (b.length + 1) 0

/-- The children in the block of a claim. -/
def adopted (a : Arena) (c : Claim) (i : Nat) : List Nat :=
  (a.children i).filter (a.blockHas (c.block.Contains ·))

def kept (a : Arena) (c : Claim) (i : Nat) : List Nat :=
  (a.children i).filter fun j ↦ !a.blockHas (c.block.Contains ·) j

/-- The children that are kept, with the next free index at the place of a claim.  Children are in
order, so those before the claim all stand in front, and a binary search ends at the same place. -/
def siblings (a : Arena) (c : Claim) (i : Nat) : List Nat :=
  let earlier := a.blockHas (Precedes · c.block)
  (a.kept c i).takeWhile earlier ++ a.size :: (a.kept c i).dropWhile earlier

def settle (a : Arena) (c : Claim) (i : Nat) : Arena where
  slots := a.slots.modify i ({ · with children := a.siblings c i }) ++ [⟨some c, a.adopted c i⟩]

def insert (a : Arena) (c : Claim) : Arena :=
  a.settle c (a.descend c.block)

def ofClaims (claims : List Claim) : Arena :=
  claims.foldl insert bare

/-! ## Reading an arena -/

section Reading

variable {a : Arena} {b : Network} {c d : Claim} {i j k : Nat}

theorem blockHas_iff {p : Network → Prop} [DecidablePred p] :
    a.blockHas p i = true ↔ ∃ m, a.block? i = some m ∧ p m := by
  rw [blockHas, Option.any_eq_true]
  simp only [decide_eq_true_eq]

theorem block?_eq_some (h : a.claim? i = some c) : a.block? i = some c.block :=
  congrArg (Option.map Claim.block) h

theorem lt_size_of_claim? (h : a.claim? i = some c) : i < a.size := by
  by_contra hle
  rw [claim?, List.getElem?_eq_none (Nat.le_of_not_lt hle)] at h
  cases h

theorem lt_size_of_block? (h : a.block? i = some b) : i < a.size := by
  obtain ⟨c, hc, -⟩ := Option.map_eq_some_iff.mp h
  exact lt_size_of_claim? hc

theorem inner?_eq_none_iff :
    a.inner? b i = none ↔ ∀ j ∈ a.children i, ∀ m, a.block? j = some m → ¬ Surrounds m b := by
  simp only [inner?, List.find?_eq_none, blockHas_iff, not_exists, not_and]

theorem inner?_eq_some (h : a.inner? b i = some j) :
    j ∈ a.children i ∧ ∃ m, a.block? j = some m ∧ Surrounds m b :=
  ⟨List.mem_of_find?_eq_some h, blockHas_iff.mp (List.find?_some h)⟩

theorem getElem?_map_claim? (hi : i < a.size) :
    (a.slots.map Slot.claim?)[i]? = some (a.claim? i) := by
  rw [claim?, List.getElem?_map, List.getElem?_eq_getElem hi]
  rfl

/-! ### Settling -/

@[simp] theorem size_settle (a : Arena) (c : Claim) (i : Nat) :
    (a.settle c i).size = a.size + 1 := by
  rw [size, settle, List.length_append, List.length_modify, List.length_singleton, size]

theorem getElem?_settle_of_lt (hj : j < a.size) :
    (a.settle c i).slots[j]? =
      if i = j then a.slots[j]?.map ({ · with children := a.siblings c i }) else a.slots[j]? := by
  rw [settle, List.getElem?_append_left (by rwa [List.length_modify]), List.getElem?_modify]
  split
  · rfl
  · exact Option.map_id'

theorem getElem?_settle_size (a : Arena) (c : Claim) (i : Nat) :
    (a.settle c i).slots[a.size]? = some ⟨some c, a.adopted c i⟩ := by
  rw [settle, size, ← List.length_modify, List.getElem?_concat_length]

theorem map_claim?_settle (a : Arena) (c : Claim) (i : Nat) :
    (a.settle c i).slots.map Slot.claim? = a.slots.map Slot.claim? ++ [some c] := by
  rw [settle, List.map_append]
  congr 1
  apply List.ext_getElem?
  intro j
  rw [List.getElem?_map, List.getElem?_map, List.getElem?_modify]
  cases a.slots[j]? with
  | none => rfl
  | some s => by_cases hij : i = j <;> simp [hij]

theorem claim?_settle_of_lt (hj : j < a.size) : (a.settle c i).claim? j = a.claim? j := by
  rw [claim?, getElem?_settle_of_lt hj, claim?]
  split
  · cases a.slots[j]? <;> rfl
  · rfl

@[simp] theorem claim?_settle_size (a : Arena) (c : Claim) (i : Nat) :
    (a.settle c i).claim? a.size = some c := by
  rw [claim?, getElem?_settle_size, Option.bind_some]

theorem block?_settle_of_lt (hj : j < a.size) : (a.settle c i).block? j = a.block? j := by
  rw [block?, claim?_settle_of_lt hj, block?]

@[simp] theorem block?_settle_size (a : Arena) (c : Claim) (i : Nat) :
    (a.settle c i).block? a.size = some c.block := by
  rw [block?, claim?_settle_size, Option.map_some]

theorem claim?_settle_eq_some_iff :
    (a.settle c i).claim? j = some d ↔ j = a.size ∧ c = d ∨ a.claim? j = some d := by
  have hnone : ∀ {k}, a.size ≤ k → a.claim? k ≠ some d := fun hk hd ↦
    absurd (lt_size_of_claim? hd) (Nat.not_lt.mpr hk)
  rcases Nat.lt_trichotomy j a.size with hlt | rfl | hgt
  · rw [claim?_settle_of_lt hlt, or_iff_right fun h ↦ hlt.ne h.1]
  · rw [claim?_settle_size, or_iff_left (hnone le_rfl), Option.some.injEq, and_iff_right rfl]
  · have hsize : (a.settle c i).size ≤ j := (size_settle a c i).trans_le hgt
    rw [or_iff_left (hnone hgt.le), claim?, List.getElem?_eq_none hsize]
    exact iff_of_false nofun fun h ↦ hgt.ne' h.1

@[simp] theorem children_settle_size (a : Arena) (c : Claim) (i : Nat) :
    (a.settle c i).children a.size = a.adopted c i := by
  rw [children, getElem?_settle_size, Option.elim_some]

theorem children_settle_self (hi : i < a.size) :
    (a.settle c i).children i = a.siblings c i := by
  rw [children, getElem?_settle_of_lt hi, if_pos rfl, List.getElem?_eq_getElem hi]
  rfl

theorem children_settle_of_ne (hk : k ≠ i) (hk' : k ≠ a.size) :
    (a.settle c i).children k = a.children k := by
  rcases Nat.lt_or_ge k a.size with hlt | hge
  · rw [children, getElem?_settle_of_lt hlt, if_neg hk.symm, children]
  · rw [children, children, List.getElem?_eq_none hge, List.getElem?_eq_none]
    change (a.settle c i).size ≤ k
    rw [size_settle]
    omega

theorem mem_adopted : j ∈ a.adopted c i ↔
    j ∈ a.children i ∧ ∃ m, a.block? j = some m ∧ c.block.Contains m := by
  rw [adopted, List.mem_filter, blockHas_iff]

theorem mem_kept : j ∈ a.kept c i ↔
    j ∈ a.children i ∧ ¬ ∃ m, a.block? j = some m ∧ c.block.Contains m := by
  rw [kept, List.mem_filter, Bool.not_eq_true', ← Bool.not_eq_true, blockHas_iff]

theorem mem_siblings : j ∈ a.siblings c i ↔ j = a.size ∨ j ∈ a.kept c i := by
  have hkept := List.takeWhile_append_dropWhile
    (p := a.blockHas (Precedes · c.block)) (l := a.kept c i)
  rw [← hkept, siblings, List.mem_append, List.mem_cons, List.mem_append]
  tauto

end Reading

/-! ## What is kept -/

/-- The block of one claim comes before the block of the other. -/
def Ahead (x y : Option Claim) : Prop :=
  ∃ c d, x = some c ∧ y = some d ∧ Precedes c.block d.block

theorem Ahead.asymm {x y : Option Claim} (h : Ahead x y) : ¬ Ahead y x := by
  rintro ⟨d, c, rfl, rfl, hdc⟩
  obtain ⟨c', d', hc, hd, hcd⟩ := h
  cases hc
  cases hd
  exact hcd.asymm hdc

def Before (a : Arena) (i j : Nat) : Prop :=
  Ahead (a.claim? i) (a.claim? j)

theorem Before.settle {a : Arena} {i j : Nat} (h : a.Before i j) (e : Claim) (k : Nat) :
    (a.settle e k).Before i j := by
  obtain ⟨c, d, hc, hd, hcd⟩ := h
  refine ⟨c, d, ?_, ?_, hcd⟩
  · rw [claim?_settle_of_lt (lt_size_of_claim? hc), hc]
  · rw [claim?_settle_of_lt (lt_size_of_claim? hd), hd]

/-- Behind the virtual root stand the claims in the order in which they came, and right below
every block, in order, the blocks whose smallest container it is. -/
structure Arranged (claims : List Claim) (a : Arena) : Prop where
  claims_eq : a.slots.map Slot.claim? = none :: claims.map some
  mem_children : ∀ {i j}, j ∈ a.children i ↔ i < a.size ∧
    ∃ c, a.claim? j = some c ∧ container? (claims.map Claim.block) c.block = a.block? i
  sorted : ∀ i, (a.children i).Pairwise a.Before

theorem arranged_bare : Arranged [] bare where
  claims_eq := rfl
  mem_children {i j} := by
    refine iff_of_false (fun h ↦ ?_) (fun ⟨_, c, hc, _⟩ ↦ ?_)
    · cases i <;> cases h
    · cases j <;> cases hc
  sorted i := by cases i <;> exact .nil

/-- Where a block stands on a way down: the longer, the deeper, and the virtual root above all. -/
def level (a : Arena) (i : Nat) : Nat :=
  (a.block? i).elim 0 fun m ↦ m.length + 1

/-- Plain blocks of which none comes twice. -/
structure Distinct (claims : List Claim) : Prop where
  plain : ∀ c ∈ claims, c.block.Plain
  nodup : (claims.map Claim.block).Nodup

variable {claims claims' : List Claim} {a : Arena} {c d : Claim} {b : Network} {i j k : Nat}

namespace Distinct

theorem plain_blocks (h : Distinct claims) : ∀ m ∈ claims.map Claim.block, m.Plain := by
  simpa only [List.forall_mem_map] using h.plain

theorem sublist (h : Distinct claims) (hsub : claims'.Sublist claims) : Distinct claims' where
  plain c hc := h.plain c (hsub.subset hc)
  nodup := h.nodup.sublist (hsub.map Claim.block)

theorem front (h : Distinct (claims ++ [c])) : Distinct claims :=
  h.sublist (List.sublist_append_left claims [c])

theorem perm (h : Distinct claims) (hperm : claims'.Perm claims) : Distinct claims' where
  plain c hc := h.plain c (hperm.mem_iff.mp hc)
  nodup := (hperm.map Claim.block).nodup_iff.mpr h.nodup

theorem not_mem (h : Distinct (claims ++ [c])) : c.block ∉ claims.map Claim.block := by
  have hnodup := h.nodup
  rw [List.map_append, List.map_singleton] at hnodup
  exact fun hmem ↦ (List.nodup_append.mp hnodup).2.2 _ hmem _ (List.mem_singleton_self _) rfl

theorem nodup_keys (h : Distinct claims) :
    (none :: (claims.map Claim.block).map some).Nodup := by
  refine List.nodup_cons.mpr ⟨?_, h.nodup.map (Option.some_injective _)⟩
  simp

end Distinct

namespace Arranged

theorem size_eq (h : Arranged claims a) : a.size = claims.length + 1 := by
  have hlength := congrArg List.length h.claims_eq
  rwa [List.length_map, List.length_cons, List.length_map] at hlength

theorem claim?_eq (h : Arranged claims a) (hi : i < a.size) :
    (none :: claims.map some)[i]? = some (a.claim? i) := by
  rw [← h.claims_eq, getElem?_map_claim? hi]

theorem block?_eq (h : Arranged claims a) (hi : i < a.size) :
    (none :: (claims.map Claim.block).map some)[i]? = some (a.block? i) := by
  have hclaim := congrArg (Option.map (Option.map Claim.block)) (h.claim?_eq hi)
  rw [← List.getElem?_map, List.map_cons, List.map_map] at hclaim
  rwa [List.map_map]

theorem size_pos (h : Arranged claims a) : 0 < a.size :=
  h.size_eq ▸ Nat.succ_pos _

theorem claim?_zero (h : Arranged claims a) : a.claim? 0 = none :=
  (Option.some.inj (h.claim?_eq h.size_pos)).symm

theorem block?_zero (h : Arranged claims a) : a.block? 0 = none := by
  rw [block?, h.claim?_zero, Option.map_none]

theorem mem_claims (h : Arranged claims a) (hc : a.claim? i = some c) : c ∈ claims := by
  have hmem := List.mem_of_getElem? (h.claim?_eq (lt_size_of_claim? hc))
  rw [hc, List.mem_cons, List.mem_map] at hmem
  simpa using hmem

theorem exists_claim? (h : Arranged claims a) (hc : c ∈ claims) :
    ∃ i, a.claim? i = some c := by
  obtain ⟨i, hi, rfl⟩ := List.getElem_of_mem hc
  refine ⟨i + 1, ?_⟩
  have hlt : i + 1 < a.size := by
    rw [h.size_eq]
    omega
  have hclaim := h.claim?_eq hlt
  rw [List.getElem?_cons_succ, List.getElem?_map, List.getElem?_eq_getElem hi] at hclaim
  exact (Option.some.inj hclaim).symm

theorem mem_blocks (h : Arranged claims a) (hb : a.block? i = some b) :
    b ∈ claims.map Claim.block := by
  obtain ⟨c, hc, rfl⟩ := Option.map_eq_some_iff.mp hb
  exact List.mem_map.mpr ⟨c, h.mem_claims hc, rfl⟩

theorem exists_block? (h : Arranged claims a) (hb : b ∈ claims.map Claim.block) :
    ∃ i, a.block? i = some b := by
  obtain ⟨c, hc, rfl⟩ := List.mem_map.mp hb
  obtain ⟨i, hi⟩ := h.exists_claim? hc
  exact ⟨i, block?_eq_some hi⟩

/-- No two indices have the same block, and only the virtual root has none. -/
theorem index_eq (h : Arranged claims a) (hclaims : Distinct claims) (hi : i < a.size)
    (heq : a.block? i = a.block? j) (hj : j < a.size) : i = j := by
  have hlt : i < (none :: (claims.map Claim.block).map some).length := by
    rw [List.length_cons, List.length_map, List.length_map, ← h.size_eq]
    exact hi
  rw [← List.getElem?_inj hlt hclaims.nodup_keys, h.block?_eq hi, h.block?_eq hj, heq]

/-! ### Going down -/

theorem level_lt (h : Arranged claims a) (hclaims : Distinct claims) (hj : j ∈ a.children i) :
    a.level i < a.level j := by
  obtain ⟨-, d, hd, hcontainer⟩ := h.mem_children.mp hj
  have hblock := block?_eq_some hd
  rw [level, level, hblock]
  cases hi : a.block? i with
  | none => exact Nat.succ_pos _
  | some p =>
    obtain ⟨⟨hp, hs⟩, -⟩ := smallest_of_container? (hcontainer.trans hi)
    have hlt := hs.length_lt (hclaims.plain_blocks p hp) (hclaims.plain d (h.mem_claims hd))
    exact Nat.succ_lt_succ hlt

/-- Where a claim with this block is to settle: the loop on the way down ends here, right below
the smallest container. -/
structure Reached (claims : List Claim) (a : Arena) (b : Network) (i k : Nat) : Prop where
  loop : Loop (a.inner? b) i k
  lt_size : k < a.size
  container : container? (claims.map Claim.block) b = a.block? k

/-- Going down ends at the smallest container, with steps to spare. -/
theorem reached_descendFrom (h : Arranged claims a) (hclaims : Distinct (claims ++ [c]))
    (steps : Nat) (hi : i < a.size) (haround : ∀ p, a.block? i = some p → Surrounds p c.block)
    (hsteps : c.block.length + 1 ≤ a.level i + steps) :
    Reached claims a c.block i (a.descendFrom c.block steps i) := by
  have hplain := hclaims.front.plain_blocks
  have hc := hclaims.plain c List.mem_concat_self
  induction steps generalizing i with
  | zero =>
    -- No level is left for a block around the new one.
    exfalso
    cases hp : a.block? i with
    | none =>
      rw [level, hp] at hsteps
      exact absurd hsteps (Nat.not_succ_le_zero _)
    | some p =>
      have hlt := (haround p hp).length_lt (hplain p (h.mem_blocks hp)) hc
      rw [level, hp, Option.elim_some] at hsteps
      omega
  | succ steps ih =>
    rw [descendFrom]
    cases hinner : a.inner? c.block i with
    | some j =>
      obtain ⟨hj, m, hm, hs⟩ := inner?_eq_some hinner
      have hlevel := h.level_lt hclaims.front hj
      have haround' : ∀ p, a.block? j = some p → Surrounds p c.block := by
        intro p hp
        rw [hm, Option.some.injEq] at hp
        exact hp ▸ hs
      obtain ⟨hloop, hlt, hcontainer⟩ := ih (lt_size_of_block? hm) haround' (by omega)
      exact ⟨.step hinner hloop, hlt, hcontainer⟩
    | none =>
      -- If this is not the smallest container, then some child surrounds the new block.
      refine ⟨.done hinner, hi, ?_⟩
      by_contra hne
      obtain ⟨m, hm, hcontainer, hs⟩ := exists_container?_eq hplain hc
        (fun p hp ↦ ⟨h.mem_blocks hp, haround p hp⟩) hne
      obtain ⟨d, hd, rfl⟩ := List.mem_map.mp hm
      obtain ⟨j, hj⟩ := h.exists_claim? hd
      have hchild : j ∈ a.children i := h.mem_children.mpr ⟨hi, d, hj, hcontainer⟩
      exact inner?_eq_none_iff.mp hinner j hchild d.block (block?_eq_some hj) hs

theorem reached_descend (h : Arranged claims a) (hclaims : Distinct (claims ++ [c])) :
    Reached claims a c.block 0 (a.descend c.block) := by
  have haround : ∀ p, a.block? 0 = some p → Surrounds p c.block := by
    rw [h.block?_zero]
    exact nofun
  exact h.reached_descendFrom hclaims (c.block.length + 1) h.size_pos haround
    (Nat.le_add_left _ _)

/-! ### Settling -/

section Settle

variable (h : Arranged claims a) (hclaims : Distinct (claims ++ [c])) (hi : i < a.size)
  (hcontainer : container? (claims.map Claim.block) c.block = a.block? i)

include h hclaims

/-- For a stored block, to lie in the new block is to lie strictly inside it. -/
theorem contains_iff (hd : a.claim? j = some d) :
    (∃ m, a.block? j = some m ∧ c.block.Contains m) ↔ Surrounds c.block d.block := by
  have hblock := block?_eq_some hd
  have hne : c.block ≠ d.block := fun heq ↦ hclaims.not_mem (heq ▸ h.mem_blocks hblock)
  rw [hblock]
  constructor
  · rintro ⟨m, ⟨⟩, hcontains⟩
    exact ⟨hne, hcontains⟩
  · exact fun hs ↦ ⟨d.block, rfl, hs.2⟩

include hi hcontainer

theorem mem_adopted_iff : j ∈ a.adopted c i ↔ ∃ d, (a.settle c i).claim? j = some d ∧
    container? ((claims ++ [c]).map Claim.block) d.block = some c.block := by
  have hplain := hclaims.plain_blocks
  rw [List.map_append, List.map_singleton] at hplain ⊢
  simp only [mem_adopted, h.mem_children, claim?_settle_eq_some_iff,
    container?_concat_eq_self_iff hplain hclaims.not_mem]
  constructor
  · rintro ⟨⟨-, d, hd, hdi⟩, hcontains⟩
    exact ⟨d, Or.inr hd, (h.contains_iff hclaims hd).mp hcontains, hdi.trans hcontainer.symm⟩
  · rintro ⟨d, ⟨rfl, rfl⟩ | hd, hs, hdi⟩
    · exact absurd hs (Surrounds.irrefl _)
    · exact ⟨⟨hi, d, hd, hdi.trans hcontainer⟩, (h.contains_iff hclaims hd).mpr hs⟩

theorem mem_siblings_iff : j ∈ a.siblings c i ↔ ∃ d, (a.settle c i).claim? j = some d ∧
    container? ((claims ++ [c]).map Claim.block) d.block = a.block? i := by
  have hplain := hclaims.plain_blocks
  have hne : a.block? i ≠ some c.block := fun heq ↦ hclaims.not_mem (h.mem_blocks heq)
  rw [List.map_append, List.map_singleton] at hplain ⊢
  simp only [mem_siblings, mem_kept, h.mem_children, claim?_settle_eq_some_iff]
  constructor
  · rintro (rfl | ⟨⟨-, d, hd, hdi⟩, hcontains⟩)
    · exact ⟨c, Or.inl ⟨rfl, rfl⟩, (container?_concat_self _ _).trans hcontainer⟩
    · refine ⟨d, Or.inr hd, ?_⟩
      rw [container?_concat_eq_iff hplain hclaims.not_mem _ hne]
      exact ⟨hdi, fun hs ↦ hcontains ((h.contains_iff hclaims hd).mpr hs.1)⟩
  · rintro ⟨d, ⟨rfl, rfl⟩ | hd, hdi⟩
    · exact Or.inl rfl
    · rw [container?_concat_eq_iff hplain hclaims.not_mem _ hne] at hdi
      refine Or.inr ⟨⟨hi, d, hd, hdi.1⟩, fun hcontains ↦ hdi.2 ?_⟩
      exact ⟨(h.contains_iff hclaims hd).mp hcontains, hcontainer.symm⟩

theorem mem_children_iff_of_ne (hk : k < a.size) (hki : k ≠ i) :
    j ∈ a.children k ↔ ∃ d, (a.settle c i).claim? j = some d ∧
      container? ((claims ++ [c]).map Claim.block) d.block = a.block? k := by
  have hplain := hclaims.plain_blocks
  have hne : a.block? k ≠ some c.block := fun heq ↦ hclaims.not_mem (h.mem_blocks heq)
  have hother : a.block? k ≠ container? (claims.map Claim.block) c.block := fun heq ↦
    hki (h.index_eq hclaims.front hk (heq.trans hcontainer) hi)
  rw [List.map_append, List.map_singleton] at hplain ⊢
  simp only [h.mem_children, claim?_settle_eq_some_iff, and_iff_right hk]
  constructor
  · rintro ⟨d, hd, hdk⟩
    refine ⟨d, Or.inr hd, ?_⟩
    rw [container?_concat_eq_iff hplain hclaims.not_mem _ hne]
    exact ⟨hdk, fun hs ↦ hother hs.2⟩
  · rintro ⟨d, ⟨-, rfl⟩ | hd, hdk⟩
    · rw [container?_concat_self] at hdk
      exact absurd hdk.symm hother
    · rw [container?_concat_eq_iff hplain hclaims.not_mem _ hne] at hdk
      exact ⟨d, hd, hdk.1⟩

omit hi hcontainer in
theorem siblings_pairwise : (a.siblings c i).Pairwise (a.settle c i).Before := by
  have hsorted : (a.kept c i).Pairwise a.Before := (h.sorted i).sublist List.filter_sublist
  refine pairwise_takeWhile_cons_dropWhile hsorted (fun _ _ hjk ↦ hjk.settle c i) ?_ ?_ ?_
  · rintro j k ⟨d, e, hd, he, hde⟩ hk
    obtain ⟨m, hm, hprecedes⟩ := blockHas_iff.mp hk
    rw [block?_eq_some he, Option.some.injEq] at hm
    exact blockHas_iff.mpr ⟨d.block, block?_eq_some hd, hde.trans (hm ▸ hprecedes)⟩
  · intro j hj hearlier
    obtain ⟨m, hm, hprecedes⟩ := blockHas_iff.mp hearlier
    obtain ⟨d, hd, rfl⟩ := Option.map_eq_some_iff.mp hm
    refine ⟨d, c, ?_, claim?_settle_size a c i, hprecedes⟩
    rw [claim?_settle_of_lt (lt_size_of_claim? hd), hd]
  · intro j hj hlater
    obtain ⟨-, d, hd, -⟩ := h.mem_children.mp (mem_kept.mp hj).1
    have hmem := h.mem_blocks (block?_eq_some hd)
    have hne : c.block ≠ d.block := fun heq ↦ hclaims.not_mem (heq ▸ hmem)
    have hprecedes := precedes_or_precedes (hclaims.plain c List.mem_concat_self)
      (hclaims.front.plain_blocks _ hmem) hne
    refine ⟨c, d, claim?_settle_size a c i, ?_, hprecedes.resolve_right fun hback ↦ ?_⟩
    · rw [claim?_settle_of_lt (lt_size_of_claim? hd), hd]
    · rw [blockHas_iff.mpr ⟨_, block?_eq_some hd, hback⟩] at hlater
      cases hlater

/-- A claim that settles right below its smallest container finds the others as they should be. -/
theorem settle : Arranged (claims ++ [c]) (a.settle c i) where
  claims_eq := by
    rw [map_claim?_settle, h.claims_eq, List.map_append]
    rfl
  mem_children {k j} := by
    rw [size_settle]
    rcases Nat.lt_trichotomy k a.size with hlt | rfl | hgt
    · rw [block?_settle_of_lt hlt, and_iff_right (Nat.lt_succ_of_lt hlt)]
      by_cases hki : k = i
      · subst hki
        rw [children_settle_self hi]
        exact h.mem_siblings_iff hclaims hi hcontainer
      · rw [children_settle_of_ne hki hlt.ne]
        exact h.mem_children_iff_of_ne hclaims hi hcontainer hlt hki
    · rw [block?_settle_size, children_settle_size, and_iff_right (Nat.lt_succ_self _)]
      exact h.mem_adopted_iff hclaims hi hcontainer
    · rw [children_settle_of_ne (by omega) hgt.ne', h.mem_children]
      exact iff_of_false (fun hj ↦ absurd hj.1 (by omega)) fun hj ↦ absurd hj.1 (by omega)
  sorted k := by
    by_cases hk : k = a.size
    · subst hk
      rw [children_settle_size]
      exact ((h.sorted i).sublist List.filter_sublist).imp (·.settle c i)
    · by_cases hki : k = i
      · subst hki
        rw [children_settle_self hi]
        exact h.siblings_pairwise hclaims
      · rw [children_settle_of_ne hki hk]
        exact (h.sorted k).imp (·.settle c i)

end Settle

/-- One more block is put where it belongs. -/
theorem insert (h : Arranged claims a) (hclaims : Distinct (claims ++ [c])) :
    Arranged (claims ++ [c]) (a.insert c) :=
  have hreached := h.reached_descend hclaims
  h.settle hclaims hreached.lt_size hreached.container

end Arranged

/-- After any run of insertions every block is where it belongs. -/
theorem arranged_ofClaims (h : Distinct claims) : Arranged claims (ofClaims claims) := by
  induction claims using List.reverseRecOn with
  | nil => exact arranged_bare
  | append_singleton claims c ih =>
    rw [ofClaims, List.foldl_append]
    exact (ih h.front).insert h

end Arena

end AddressPlan.Report
