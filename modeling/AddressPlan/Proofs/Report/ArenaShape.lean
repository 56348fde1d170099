import AddressPlan.Proofs.Report.Arena
import AddressPlan.Proofs.Report.Shares
import Mathlib.Data.Set.Function
import Mathlib.Logic.Relation

/-!
# The shape of the forest in one list

Every block is a child of exactly one other one or of the virtual root, its smallest container,
and is reached from the virtual root.  The children of a block have no address in common and come
by address.  In whatever order blocks are inserted, only their indices differ, and read from the
virtual root down the list is the forest that the report goes through.
-/

namespace AddressPlan.Report

open NodeTree (Claim)
open Rose Network

namespace Arena

variable {claims claims' : List Claim} {a a' : Arena} {c d : Claim} {i j k : Nat}
  {is : List Nat} {ts us : List (Rose Claim)} {σ : Nat → Nat}

/-! ## Children and parents -/

/-- The one with the longest prefix among the blocks around a block, or nothing if there are
none. -/
def IsSmallest (blocks : List Network) (b : Network) : Option Network → Prop
  | none => ∀ m ∈ blocks, ¬ Surrounds m b
  | some p => p ∈ blocks ∧ Surrounds p b ∧
      ∀ m ∈ blocks, Surrounds m b → m ≠ p → m.length < p.length

/-- The virtual root and behind it the claims as they came, all of them below the root in a
tree in which a block stands right below its smallest container and siblings stand apart. -/
structure Shaped (claims : List Claim) (a : Arena) : Prop where
  claims_eq : a.slots.map Slot.claim? = none :: claims.map some
  children_stored : ∀ i, ∀ j ∈ a.children i, i < a.size ∧ 0 < j ∧ j < a.size
  children_nodup : ∀ i, (a.children i).Nodup
  parent : ∀ j, 0 < j → j < a.size → ∃! i, j ∈ a.children i
  reachable : ∀ j < a.size, Relation.ReflTransGen (fun i j ↦ j ∈ a.children i) 0 j
  smallest : ∀ i, ∀ j ∈ a.children i, ∃ b, a.block? j = some b ∧
    IsSmallest (claims.map Claim.block) b (a.block? i)
  siblings : ∀ i, (a.children i).Pairwise fun j k ↦ ∃ m n, a.block? j = some m ∧
    a.block? k = some n ∧ m.Disjoint n ∧ m.base.address < n.base.address

theorem isSmallest_container? {blocks : List Network} (hplain : ∀ m ∈ blocks, m.Plain)
    (b : Network) : IsSmallest blocks b (container? blocks b) := by
  cases hp : container? blocks b with
  | none => exact container?_eq_none_iff.mp hp
  | some p =>
    obtain ⟨⟨hmem, hpb⟩, hlongest⟩ := smallest_of_container? hp
    refine ⟨hmem, hpb, fun m hm hmb hne ↦ Nat.lt_of_le_of_ne (hlongest m hm hmb) fun heq ↦ ?_⟩
    exact hne (hmb.eq_of_length_eq (hplain m hm) (hplain p hmem) hpb heq)

namespace Arranged

theorem exists_claim?_of_pos (h : Arranged claims a) (hpos : 0 < j) (hj : j < a.size) :
    ∃ c, a.claim? j = some c := by
  obtain ⟨k, rfl⟩ := Nat.exists_eq_add_of_le' hpos
  have hclaim := h.claim?_eq hj
  rw [h.size_eq] at hj
  rw [List.getElem?_cons_succ, List.getElem?_map,
    List.getElem?_eq_getElem (Nat.lt_of_succ_lt_succ hj)] at hclaim
  exact ⟨_, (Option.some.inj hclaim).symm⟩

theorem exists_parent (h : Arranged claims a) (hc : a.claim? j = some c) :
    ∃ i, j ∈ a.children i := by
  have hindex : ∃ i < a.size, container? (claims.map Claim.block) c.block = a.block? i := by
    cases hp : container? (claims.map Claim.block) c.block with
    | none => exact ⟨0, h.size_pos, h.block?_zero.symm⟩
    | some p =>
      obtain ⟨i, hi⟩ := h.exists_block? (smallest_of_container? hp).1.1
      exact ⟨i, lt_size_of_block? hi, hi.symm⟩
  obtain ⟨i, hi, hcontainer⟩ := hindex
  exact ⟨i, h.mem_children.mpr ⟨hi, c, hc, hcontainer⟩⟩

theorem parent_unique (h : Arranged claims a) (hclaims : Distinct claims) (hi : j ∈ a.children i)
    (hk : j ∈ a.children k) : i = k := by
  obtain ⟨hi, c, hc, hci⟩ := h.mem_children.mp hi
  obtain ⟨hk, d, hd, hdk⟩ := h.mem_children.mp hk
  rw [hc, Option.some.injEq] at hd
  subst hd
  exact h.index_eq hclaims hi (hci.symm.trans hdk) hk

theorem reachable (h : Arranged claims a) (hclaims : Distinct claims) (hj : j < a.size) :
    Relation.ReflTransGen (fun i j ↦ j ∈ a.children i) 0 j := by
  induction hn : a.level j using Nat.strong_induction_on generalizing j with
  | h n ih =>
    rcases Nat.eq_zero_or_pos j with rfl | hpos
    · exact .refl
    · obtain ⟨c, hc⟩ := h.exists_claim?_of_pos hpos hj
      obtain ⟨i, hi⟩ := h.exists_parent hc
      have hlt : a.level i < n := hn ▸ h.level_lt hclaims hi
      exact (ih (a.level i) hlt (h.mem_children.mp hi).1 rfl).tail hi

/-- Of two blocks with one smallest container neither is in the other. -/
theorem not_surrounds_of_siblings (h : Arranged claims a) (hclaims : Distinct claims)
    (hj : j ∈ a.children i) (hk : k ∈ a.children i) (hc : a.claim? j = some c)
    (hd : a.claim? k = some d) : ¬ Surrounds c.block d.block := by
  intro hs
  have hmem := h.mem_blocks (block?_eq_some hc)
  obtain ⟨-, c', hc', hci⟩ := h.mem_children.mp hj
  obtain ⟨-, d', hd', hdi⟩ := h.mem_children.mp hk
  obtain rfl : c = c' := Option.some.inj (hc.symm.trans hc')
  obtain rfl : d = d' := Option.some.inj (hd.symm.trans hd')
  cases hp : a.block? i with
  | none => exact container?_eq_none_iff.mp (hdi.trans hp) _ hmem hs
  | some p =>
    have hle := (smallest_of_container? (hdi.trans hp)).2 _ hmem hs
    obtain ⟨⟨hpmem, hpc⟩, -⟩ := smallest_of_container? (hci.trans hp)
    have hlt := hpc.length_lt (hclaims.plain_blocks p hpmem) (hclaims.plain_blocks _ hmem)
    omega

theorem siblings_apart (h : Arranged claims a) (hclaims : Distinct claims) (i : Nat) :
    (a.children i).Pairwise fun j k ↦ ∃ m n, a.block? j = some m ∧ a.block? k = some n ∧
      m.Disjoint n ∧ m.base.address < n.base.address := by
  refine (h.sorted i).imp_of_mem fun {j k} hj hk ⟨c, d, hc, hd, hcd⟩ ↦
    ⟨c.block, d.block, block?_eq_some hc, block?_eq_some hd, ?_⟩
  have hplain := hclaims.plain c (h.mem_claims hc)
  have hplain' := hclaims.plain d (h.mem_claims hd)
  have hnot := h.not_surrounds_of_siblings hclaims hj hk hc hd
  have hapart : Apart c.block d.block := ⟨hcd, fun hcontains ↦ hnot ⟨hcd.ne, hcontains⟩⟩
  refine ⟨hapart.disjoint hplain hplain', hcd.resolve_right fun ⟨haddress, hlength⟩ ↦ ?_⟩
  -- A block that begins like a longer one contains it.
  rw [hplain.base_address, hplain'.base_address] at haddress
  exact hapart.2 ⟨hplain.1.trans hplain'.1.symm, hlength.le, by rw [haddress]⟩

theorem shaped (h : Arranged claims a) (hclaims : Distinct claims) : Shaped claims a where
  claims_eq := h.claims_eq
  children_stored i j hj := by
    obtain ⟨hi, c, hc, -⟩ := h.mem_children.mp hj
    refine ⟨hi, Nat.pos_of_ne_zero ?_, lt_size_of_claim? hc⟩
    rintro rfl
    cases h.block?_zero.symm.trans (block?_eq_some hc)
  children_nodup i := (h.sorted i).imp fun {j k} ⟨c, d, hc, hd, hcd⟩ heq ↦ by
    subst heq
    exact hcd.ne (congrArg Claim.block (Option.some.inj (hc.symm.trans hd)))
  parent j hpos hj := by
    obtain ⟨c, hc⟩ := h.exists_claim?_of_pos hpos hj
    obtain ⟨i, hi⟩ := h.exists_parent hc
    exact ⟨i, hi, fun k hk ↦ h.parent_unique hclaims hk hi⟩
  reachable j hj := h.reachable hclaims hj
  smallest i j hj := by
    obtain ⟨-, c, hc, hcontainer⟩ := h.mem_children.mp hj
    exact ⟨c.block, block?_eq_some hc,
      hcontainer ▸ isSmallest_container? hclaims.plain_blocks c.block⟩
  siblings i := h.siblings_apart hclaims i

end Arranged

/-! ## Lists in the order of their blocks -/

namespace Arranged

theorem pairwise_claim? (h : Arranged claims a) (i : Nat) :
    ((a.children i).map a.claim?).Pairwise Ahead :=
  List.pairwise_map.mpr (h.sorted i)

theorem mem_map_claim? (h : Arranged claims a) (hi : i < a.size) {x : Option Claim} :
    x ∈ (a.children i).map a.claim? ↔ ∃ c ∈ claims, x = some c ∧
      container? (claims.map Claim.block) c.block = a.block? i := by
  rw [List.mem_map]
  constructor
  · rintro ⟨j, hj, rfl⟩
    obtain ⟨-, c, hc, hcontainer⟩ := h.mem_children.mp hj
    exact ⟨c, h.mem_claims hc, hc, hcontainer⟩
  · rintro ⟨c, hc, rfl, hcontainer⟩
    obtain ⟨j, hj⟩ := h.exists_claim? hc
    exact ⟨j, h.mem_children.mpr ⟨hi, c, hj, hcontainer⟩, hj⟩

end Arranged

/-! ## Other indices -/

/-- One-to-one other indices, but for the virtual root, and the same in all slots otherwise. -/
structure Renumbers (σ : Nat → Nat) (a a' : Arena) : Prop where
  root : σ 0 = 0
  bijOn : Set.BijOn σ (Set.Iio a.size) (Set.Iio a'.size)
  slots : ∀ i < a.size, a'.slots[σ i]? =
    a.slots[i]?.map fun s ↦ { s with children := s.children.map σ }

/-- The index of a claim. -/
def place (a : Arena) (x : Option Claim) : Nat :=
  (a.slots.map Slot.claim?).idxOf x

theorem getElem?_slots (hi : i < a.size) : a.slots[i]? = some ⟨a.claim? i, a.children i⟩ := by
  rw [claim?, children, List.getElem?_eq_getElem hi]
  rfl

namespace Arranged

theorem place_claim? (h : Arranged claims a) (hclaims : Distinct claims) (hi : i < a.size) :
    a.place (a.claim? i) = i := by
  have hnodup : (a.slots.map Slot.claim?).Nodup := by
    rw [h.claims_eq, List.nodup_cons]
    exact ⟨by simp, hclaims.nodup.of_map.map (Option.some_injective _)⟩
  have hlt : i < (a.slots.map Slot.claim?).length := by rwa [List.length_map]
  have hget := getElem?_map_claim? hi
  rw [List.getElem?_eq_getElem hlt, Option.some.injEq] at hget
  rw [place, ← hget, hnodup.idxOf_getElem i hlt]

theorem map_place_children (h : Arranged claims a) (hclaims : Distinct claims) (i : Nat) :
    ((a.children i).map a.claim?).map a.place = a.children i := by
  rw [List.map_map]
  refine (List.map_congr_left fun j hj ↦ ?_).trans (List.map_id _)
  obtain ⟨-, c, hc, -⟩ := h.mem_children.mp hj
  exact h.place_claim? hclaims (lt_size_of_claim? hc)

/-- Each of the claims that another arena holds has a place. -/
theorem claim?_place (h : Arranged claims a) (h' : Arranged claims' a')
    (hperm : claims'.Perm claims) (hi : i < a.size) :
    a'.place (a.claim? i) < a'.size ∧ a'.claim? (a'.place (a.claim? i)) = a.claim? i := by
  have hmem : a.claim? i ∈ a'.slots.map Slot.claim? := by
    rw [h'.claims_eq, ((hperm.map some).cons none).mem_iff]
    exact List.mem_of_getElem? (h.claim?_eq hi)
  have hlt := List.idxOf_lt_length_of_mem hmem
  have hsize : a'.place (a.claim? i) < a'.size := by rwa [List.length_map] at hlt
  refine ⟨hsize, ?_⟩
  have hget := getElem?_map_claim? hsize
  rwa [place, List.getElem?_eq_getElem hlt, List.getElem_idxOf, Option.some.injEq, eq_comm] at hget

/-- Below a block stand the same claims in the same order, whatever their indices are. -/
theorem map_claim?_children (h : Arranged claims a) (hclaims : Distinct claims)
    (h' : Arranged claims' a') (hperm : claims'.Perm claims) (hi : i < a.size) (hj : j < a'.size)
    (hclaim : a'.claim? j = a.claim? i) :
    (a'.children j).map a'.claim? = (a.children i).map a.claim? := by
  have hblock : a'.block? j = a.block? i := congrArg (Option.map Claim.block) hclaim
  have hcontainer : container? (claims.map Claim.block) = container? (claims'.map Claim.block) :=
    funext (container?_congr hclaims.plain_blocks fun _ ↦ (hperm.map Claim.block).mem_iff.symm)
  refine eq_of_pairwise_of_mem_iff (fun _ _ ↦ Ahead.asymm) (h'.pairwise_claim? j)
    (h.pairwise_claim? i) fun x ↦ ?_
  simp only [h'.mem_map_claim? hj, h.mem_map_claim? hi, hperm.mem_iff, hblock, hcontainer]

theorem bijOn_place (h : Arranged claims a) (hclaims : Distinct claims)
    (h' : Arranged claims' a') (hclaims' : Distinct claims') (hperm : claims'.Perm claims) :
    Set.BijOn (fun i ↦ a'.place (a.claim? i)) (Set.Iio a.size) (Set.Iio a'.size) := by
  have hplace : ∀ i < a.size, a'.claim? (a'.place (a.claim? i)) = a.claim? i :=
    fun i hi ↦ (h.claim?_place h' hperm hi).2
  refine ⟨fun i hi ↦ (h.claim?_place h' hperm hi).1, fun i hi k hk heq ↦ ?_, fun j hj ↦ ?_⟩
  · have hclaim : a.claim? i = a.claim? k := by
      rw [← hplace i hi, ← hplace k hk]
      exact congrArg a'.claim? heq
    rw [← h.place_claim? hclaims hi, hclaim, h.place_claim? hclaims hk]
  · obtain ⟨hlt, hclaim⟩ := h'.claim?_place h hperm.symm hj
    refine ⟨a.place (a'.claim? j), hlt, ?_⟩
    dsimp only
    rw [hclaim, h'.place_claim? hclaims' hj]

theorem children_place (h : Arranged claims a) (hclaims : Distinct claims)
    (h' : Arranged claims' a') (hclaims' : Distinct claims') (hperm : claims'.Perm claims)
    (hi : i < a.size) : a'.children (a'.place (a.claim? i)) =
      (a.children i).map fun j ↦ a'.place (a.claim? j) := by
  obtain ⟨hlt, hclaim⟩ := h.claim?_place h' hperm hi
  calc
    a'.children (a'.place (a.claim? i))
      = ((a'.children (a'.place (a.claim? i))).map a'.claim?).map a'.place :=
        (h'.map_place_children hclaims' _).symm
    _ = ((a.children i).map a.claim?).map a'.place := by
        rw [h.map_claim?_children hclaims h' hperm hi hlt hclaim]
    _ = (a.children i).map fun j ↦ a'.place (a.claim? j) := List.map_map

theorem exists_renumbers (h : Arranged claims a) (hclaims : Distinct claims)
    (h' : Arranged claims' a') (hclaims' : Distinct claims') (hperm : claims'.Perm claims) :
    ∃ σ, Renumbers σ a a' := by
  refine ⟨fun i ↦ a'.place (a.claim? i), ?_,
    h.bijOn_place hclaims h' hclaims' hperm, fun i hi ↦ ?_⟩
  · have hzero : a.claim? 0 = a'.claim? 0 := by
      rw [h.claim?_zero, h'.claim?_zero]
    rw [hzero, h'.place_claim? hclaims' h'.size_pos]
  · obtain ⟨hlt, hclaim⟩ := h.claim?_place h' hperm hi
    rw [getElem?_slots hlt, getElem?_slots hi, hclaim,
      h.children_place hclaims h' hclaims' hperm hi, Option.map_some]

end Arranged

/-! ## Read from the virtual root -/

/-- What an arena shows at indices and below them. -/
inductive Unfolds (a : Arena) : List Nat → List (Rose Claim) → Prop
  | nil : Unfolds a [] []
  | cons {i : Nat} {c : Claim} {is : List Nat} {ts rest : List (Rose Claim)}
    (claim : a.claim? i = some c) (below : Unfolds a (a.children i) ts)
    (others : Unfolds a is rest) : Unfolds a (i :: is) (.node c ts :: rest)

theorem Unfolds.unique (h : Unfolds a is ts) (h' : Unfolds a is us) : ts = us := by
  induction h generalizing us with
  | nil =>
    cases h'
    rfl
  | cons hclaim _ _ ihbelow ihothers =>
    obtain _ | ⟨hclaim', hbelow', hothers'⟩ := h'
    rw [Option.some.inj (hclaim.symm.trans hclaim'), ihbelow hbelow', ihothers hothers']

/-- Other indices show the same. -/
theorem Unfolds.renumber (h : Unfolds a is ts) (hσ : Renumbers σ a a') :
    Unfolds a' (is.map σ) ts := by
  induction h with
  | nil => exact .nil
  | @cons i c is ts rest hclaim _ _ ihbelow ihothers =>
    have hi := lt_size_of_claim? hclaim
    have hslot := hσ.slots i hi
    rw [getElem?_slots hi, Option.map_some] at hslot
    refine .cons ?_ ?_ ihothers
    · rw [claim?, hslot, Option.bind_some, hclaim]
    · rwa [children, hslot, Option.elim_some]

theorem Renumbers.children_zero (hσ : Renumbers σ a a') (hpos : 0 < a.size) :
    a'.children 0 = (a.children 0).map σ := by
  have hslot := hσ.slots 0 hpos
  rw [hσ.root, getElem?_slots hpos] at hslot
  rw [children, hslot]
  rfl

/-- An arena shows a forest if everywhere the same claims stand right below a claim. -/
theorem unfolds_of_below (label : List Nat) (enclosing : List Claim) (position : Nat)
    (hbelow : ∀ e ∈ outlineFrom label enclosing position ts, ∀ i, a.claim? i = some e.value →
      (a.children i).map a.claim? = e.below.map some)
    (htop : is.map a.claim? = (ts.map Rose.value).map some) : Unfolds a is ts := by
  induction ts using forest_induction generalizing is label enclosing position with
  | nil =>
    rw [List.map_eq_nil_iff.mp htop]
    exact .nil
  | cons c ts rest ihts ihrest =>
    rw [outlineFrom_cons] at hbelow
    simp only [List.forall_mem_cons, List.forall_mem_append] at hbelow
    obtain ⟨hown, hts, hrest⟩ := hbelow
    cases is with
    | nil => cases htop
    | cons i is =>
      obtain ⟨hclaim, hothers⟩ := List.cons.inj htop
      exact .cons hclaim (ihts _ _ _ hts (hown i hclaim)) (ihrest _ _ _ hrest hothers)

namespace Arranged

/-- The claims right below a claim, or at the top, are those of the forest. -/
theorem map_claim?_eq (h : Arranged claims a) (hi : i < a.size) {below : List Claim}
    (hsorted : below.Pairwise fun c d ↦ Precedes c.block d.block)
    (hmem : ∀ c, c ∈ below ↔ c ∈ claims ∧
      container? (claims.map Claim.block) c.block = a.block? i) :
    (a.children i).map a.claim? = below.map some := by
  refine eq_of_pairwise_of_mem_iff (fun _ _ ↦ Ahead.asymm) (h.pairwise_claim? i) ?_ fun x ↦ ?_
  · exact List.pairwise_map.mpr (hsorted.imp fun hcd ↦ ⟨_, _, rfl, rfl, hcd⟩)
  · rw [h.mem_map_claim? hi, List.mem_map]
    constructor
    · rintro ⟨c, hc, rfl, hcontainer⟩
      exact ⟨c, (hmem c).mpr ⟨hc, hcontainer⟩, rfl⟩
    · rintro ⟨c, hc, rfl⟩
      exact ⟨c, ((hmem c).mp hc).1, rfl, ((hmem c).mp hc).2⟩

/-- From the virtual root an arena shows the forest of its claims. -/
theorem unfolds_forest (h : Arranged claims a) (hclaims : Distinct claims) :
    Unfolds a (a.children 0) (forest claims) := by
  obtain ⟨hshows, hperm⟩ := shows_forest_of_plain hclaims.plain hclaims.nodup
  have hcontainer : container? (claims.map Claim.block) =
      container? ((preorderAll (forest claims)).map Claim.block) :=
    funext (container?_congr hclaims.plain_blocks fun _ ↦ (hperm.map Claim.block).mem_iff.symm)
  refine unfolds_of_below [] [] 1 (fun e he i hi ↦ ?_) ?_
  · obtain ⟨ts, htidy, hbelow, -, -⟩ := hshows.exists_branches he
    refine h.map_claim?_eq (lt_size_of_claim? hi) ?_ fun c ↦ ?_
    · rw [hbelow]
      exact List.pairwise_map.mpr htidy.pairwise
    · rw [block?_eq_some hi, hcontainer, ← hperm.mem_iff]
      constructor
      · intro hc
        have hmem := hshows.below_subset he hc
        exact ⟨hmem, (hshows.container?_eq_some_iff he hmem).mpr hc⟩
      · exact fun ⟨hmem, hc⟩ ↦ (hshows.container?_eq_some_iff he hmem).mp hc
  · refine h.map_claim?_eq h.size_pos (List.pairwise_map.mpr hshows.tidy.pairwise) fun c ↦ ?_
    rw [h.block?_zero, hcontainer, ← hperm.mem_iff]
    constructor
    · intro hc
      have hmem := ((hshows.tidy.mem_map_value hshows.plain_preorder).mp hc).1
      exact ⟨hmem, (hshows.container?_eq_none_iff hmem).mpr hc⟩
    · exact fun ⟨hmem, hc⟩ ↦ (hshows.container?_eq_none_iff hmem).mp hc

end Arranged

/-! ## Any run of insertions -/

/-- However plain blocks of which none comes twice are inserted, going down always ends.  The arena
has its shape and shows the forest of the report, and another order of the same claims changes
nothing but the indices. -/
theorem inserted_shaped (claims : List Claim) (hplain : ∀ c ∈ claims, c.block.Plain)
    (hnodup : (claims.map Claim.block).Nodup) :
    (∀ front c back, claims = front ++ c :: back →
      Loop ((ofClaims front).inner? c.block) 0 ((ofClaims front).descend c.block)) ∧
    Shaped claims (ofClaims claims) ∧
    Unfolds (ofClaims claims) ((ofClaims claims).children 0) (forest claims) ∧
    ∀ claims', claims'.Perm claims →
      forest claims' = forest claims ∧ ∃ σ, Renumbers σ (ofClaims claims) (ofClaims claims') := by
  have hclaims : Distinct claims := ⟨hplain, hnodup⟩
  have harranged := arranged_ofClaims hclaims
  have hunfolds := harranged.unfolds_forest hclaims
  refine ⟨?_, harranged.shaped hclaims, hunfolds, fun claims' hperm ↦ ?_⟩
  · rintro front c back rfl
    have hfront : Distinct (front ++ [c]) := hclaims.sublist (by simp)
    exact ((arranged_ofClaims hfront.front).reached_descend hfront).loop
  · have hclaims' : Distinct claims' := hclaims.perm hperm
    have harranged' := arranged_ofClaims hclaims'
    obtain ⟨σ, hσ⟩ := harranged.exists_renumbers hclaims harranged' hclaims' hperm
    have hshown := hunfolds.renumber hσ
    rw [← hσ.children_zero harranged.size_pos] at hshown
    exact ⟨(harranged'.unfolds_forest hclaims').unique hshown, σ, hσ⟩

/-- The fourth block takes the first one in, the fifth one all but the third, and the last one
belongs deep inside. -/
def crowded : List Claim :=
  ["10.1.2.0/24", "10.3.0.0/16", "11.0.0.0/8", "10.1.0.0/16", "10.0.0.0/8",
    "10.1.2.128/25"].filterMap fun text ↦
      (Network.parse? text).map fun block ↦ ⟨⟨0, { name := text }⟩, block⟩

theorem inserted_shaped_crowded :
    (∀ c ∈ crowded, c.block.Plain) ∧ (crowded.map Claim.block).Nodup ∧
      (ofClaims crowded).slots.map Slot.children = [[5, 3], [6], [], [], [1], [4, 2], []] ∧
      (ofClaims crowded.reverse).slots.map Slot.children =
        [[2, 4], [], [3, 5], [6], [], [], [1]] ∧
      (∀ front c back, crowded = front ++ c :: back →
        Loop ((ofClaims front).inner? c.block) 0 ((ofClaims front).descend c.block)) ∧
      Shaped crowded (ofClaims crowded) ∧
      Unfolds (ofClaims crowded) [5, 3] (forest crowded) ∧
      forest crowded.reverse = forest crowded ∧
      ∃ σ, Renumbers σ (ofClaims crowded) (ofClaims crowded.reverse) := by
  have hplain : ∀ c ∈ crowded, c.block.Plain := by decide +kernel
  have hnodup : (crowded.map Claim.block).Nodup := by decide +kernel
  obtain ⟨hends, hshaped, hunfolds, horder⟩ := inserted_shaped crowded hplain hnodup
  exact ⟨hplain, hnodup, by decide +kernel, by decide +kernel, hends, hshaped, hunfolds,
    horder _ (List.reverse_perm crowded)⟩

end Arena

end AddressPlan.Report
