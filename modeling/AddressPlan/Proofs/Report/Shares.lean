import AddressPlan.Proofs.Network.Segment
import AddressPlan.Proofs.Report.Reference
import AddressPlan.Proofs.Words
import Mathlib.Algebra.Order.BigOperators.Group.Finset
import Mathlib.Data.Set.Card
import Mathlib.Order.Interval.Finset.Nat

/-!
# Shares of IPv4 blocks

The blocks right below a row of the containment report have no address in common, and every
block in the block of the row lies in one of them.  So their sizes add up to the number of
addresses covered by everything strictly inside the block, and the percentage of the row is the
share of these addresses, rounded down.
-/

namespace AddressPlan

namespace Network

variable {a b : Network} {x : Nat}

/-! ## The addresses of a block -/

/-- The addresses of a block. -/
def addresses (n : Network) : Finset Nat :=
  Finset.Ico n.base.address (n.base.address + n.size)

theorem mem_addresses : x ∈ a.addresses ↔ a.Covers x := by
  have hbase : a.base.address = a.size * (a.address / a.size) := Nat.mul_comm _ _
  rw [addresses, Finset.mem_Ico, hbase, Covers, Nat.div_eq_iff a.size_pos]
  have hpos := a.size_pos
  have hcomm := Nat.mul_comm a.size (a.address / a.size)
  omega

@[simp] theorem card_addresses (n : Network) : n.addresses.card = n.size := by
  rw [addresses, Nat.card_Ico, Nat.add_sub_cancel_left]

theorem Contains.covers (h : a.Contains b) (hx : b.Covers x) : a.Covers x := by
  unfold Covers at *
  rw [div_size_eq h.1 h.2.1, hx, ← div_size_eq h.1 h.2.1, h.2.2]

/-- Of two blocks with a common address the one with the shorter prefix contains the other. -/
theorem contains_of_covers (hfamily : a.family = b.family) (hle : a.length ≤ b.length)
    (ha : a.Covers x) (hb : b.Covers x) : a.Contains b := by
  refine ⟨hfamily, hle, ?_⟩
  unfold Covers at ha hb
  rw [div_size_eq hfamily hle, ← hb, ← div_size_eq hfamily hle, ha]

theorem Plain.size_le (h : a.Plain) : a.size ≤ 2 ^ 32 := by
  change 2 ^ (a.family.addressBits - a.length) ≤ _
  rw [h.1]
  exact Nat.pow_le_pow_right Nat.two_pos (Nat.sub_le _ _)

end Network

namespace Report

open NodeTree (Claim)
open Rose Network Word

/-! ## What is strictly inside a block -/

/-- The addresses in the blocks strictly inside a block. -/
def inside (blocks : List Network) (b : Network) : Set Nat :=
  {x | ∃ m ∈ blocks, Surrounds b m ∧ m.Covers x}

/-- The percentage is the share of the block that the blocks strictly inside it cover, rounded
down, and only a block that they cover as a whole is said to be full. -/
structure TrueShare (blocks : List Network) (b : Network) (percent : Nat) : Prop where
  le : percent ≤ 100
  share : percent = (inside blocks b).ncard * 100 / b.size
  full : percent = 100 ↔ ∀ x, b.Covers x → x ∈ inside blocks b

variable {blocks ms : List Network} {b m : Network} {x : Nat}

theorem inside_subset (blocks : List Network) (b : Network) :
    inside blocks b ⊆ (b.addresses : Set Nat) := by
  rintro x ⟨m, -, hs, hx⟩
  exact mem_addresses.mpr (hs.2.covers hx)

theorem ncard_inside_le (blocks : List Network) (b : Network) :
    (inside blocks b).ncard ≤ b.size := by
  have hle := Set.ncard_le_ncard (inside_subset blocks b) b.addresses.finite_toSet
  rwa [Set.ncard_coe_finset, card_addresses] at hle

/-- As many addresses as the block has are all of its addresses. -/
theorem ncard_inside_eq_iff :
    (inside blocks b).ncard = b.size ↔ ∀ x, b.Covers x → x ∈ inside blocks b := by
  have hsubset := inside_subset blocks b
  have hsize : (b.addresses : Set Nat).ncard = b.size := by
    rw [Set.ncard_coe_finset, card_addresses]
  constructor
  · intro hcard x hx
    have heq := Set.eq_of_subset_of_ncard_le hsubset (by rw [hsize, hcard])
      b.addresses.finite_toSet
    rw [heq]
    exact mem_addresses.mpr hx
  · intro hall
    have heq : inside blocks b = (b.addresses : Set Nat) :=
      Set.Subset.antisymm hsubset fun x hx ↦ hall x (mem_addresses.mp hx)
    rw [heq, hsize]

theorem inside_perm {blocks' : List Network} (h : blocks.Perm blocks') :
    inside blocks b = inside blocks' b := by
  unfold inside
  simp only [h.mem_iff]

theorem trueShare (blocks : List Network) (b : Network) :
    TrueShare blocks b ((inside blocks b).ncard * 100 / b.size) := by
  have hle := ncard_inside_le blocks b
  have hpos := b.size_pos
  have hbound : (inside blocks b).ncard * 100 / b.size ≤ 100 := by
    rw [Nat.div_le_iff_le_mul_add_pred hpos]
    omega
  refine ⟨hbound, rfl, ?_⟩
  rw [← ncard_inside_eq_iff]
  constructor
  · intro hfull
    have hmul : 100 * b.size ≤ (inside blocks b).ncard * 100 :=
      (Nat.le_div_iff_mul_le hpos).mp hfull.ge
    omega
  · intro heq
    rw [heq, Nat.mul_div_cancel_left 100 hpos]

/-! ## Blocks right below one another -/

theorem Apart.disjoint {a b : Network} (ha : a.Plain) (hb : b.Plain) (h : Apart a b) :
    a.Disjoint b := by
  intro hfamily x hxa hxb
  rcases Nat.le_total a.length b.length with hle | hle
  · exact h.2 (contains_of_covers hfamily hle hxa hxb)
  · exact h.not_contains ha hb (contains_of_covers hfamily.symm hle hxb hxa)

/-- Disjoint blocks have as many addresses as their sizes say. -/
theorem card_biUnion_addresses (hplain : ∀ m ∈ ms, m.Plain) (h : ms.Pairwise Network.Disjoint) :
    (ms.toFinset.biUnion addresses).card = (ms.map Network.size).sum := by
  induction ms with
  | nil => rfl
  | cons m ms ih =>
    obtain ⟨hm, hms⟩ := List.forall_mem_cons.mp hplain
    obtain ⟨hfirst, hrest⟩ := List.pairwise_cons.mp h
    have hapart : Disjoint m.addresses (ms.toFinset.biUnion addresses) := by
      rw [Finset.disjoint_biUnion_right]
      intro k hk
      rw [List.mem_toFinset] at hk
      rw [Finset.disjoint_left]
      intro x hxm hxk
      exact hfirst k hk (hm.1.trans (hms k hk).1.symm) x (mem_addresses.mp hxm)
        (mem_addresses.mp hxk)
    rw [List.toFinset_cons, Finset.biUnion_insert, Finset.card_union_of_disjoint hapart,
      card_addresses, ih hms hrest, List.map_cons, List.sum_cons]

/-! ## The percentage -/

theorem blockCount?_plain (h : m.Plain) : blockCount? 32 m.length = some m.size := by
  have hle := m.length_le
  rw [h.1] at hle
  change m.length ≤ 32 at hle
  rw [blockCount?, if_pos ⟨hle, by omega⟩]
  rw [size, h.1]
  rfl

theorem mapM_blockCount?_plain (h : ∀ m ∈ ms, m.Plain) :
    (ms.map Network.length).mapM (blockCount? 32) = some (ms.map Network.size) := by
  induction ms with
  | nil => rfl
  | cons m ms ih =>
    obtain ⟨hm, hms⟩ := List.forall_mem_cons.mp h
    rw [List.map_cons, List.mapM_cons, blockCount?_plain hm, ih hms]
    rfl

theorem usage?_plain (hb : b.Plain) (hms : ∀ m ∈ ms, m.Plain)
    (hroom : (ms.map Network.size).sum ≤ b.size) :
    usage? 32 b.length (ms.map Network.length) =
      some ((ms.map Network.size).sum * 100 / b.size) := by
  have hsize := hb.size_le
  have hword : (ms.map Network.size).sum * 100 < Nat.pow 2 128 := by
    have hlarge : 2 ^ 32 * 100 < Nat.pow 2 128 := by decide
    omega
  rw [usage?, blockCount?_plain hb, mapM_blockCount?_plain hms]
  exact if_pos hword

section Forest

variable {ts forest : List (Rose Claim)} {claims : List Claim} {e : Entry Claim}

theorem Tidy.pairwise_disjoint (h : Tidy ts) (hplain : ∀ d ∈ preorderAll ts, d.block.Plain) :
    (ts.map (·.value.block)).Pairwise Network.Disjoint := by
  induction ts with
  | nil => exact .nil
  | cons t ts ih =>
    obtain ⟨c, cs⟩ := t
    obtain ⟨-, hbehind, -, hts⟩ := tidy_cons_iff.mp h
    simp only [preorderAll_cons, List.forall_mem_cons, List.forall_mem_append] at hplain
    obtain ⟨hc, -, hrest⟩ := hplain
    rw [List.map_cons, List.pairwise_cons]
    refine ⟨fun m hm ↦ ?_, ih hts hrest⟩
    obtain ⟨u, hu, rfl⟩ := List.mem_map.mp hm
    have humem := value_mem_preorderAll hu
    exact (hbehind u.value humem).disjoint hc (hrest u.value humem)

/-- What the blocks of a tidy forest cover is covered by those that no other one surrounds. -/
theorem Tidy.exists_covers_iff (h : Tidy ts) :
    (∃ d ∈ preorderAll ts, d.block.Covers x) ↔ ∃ t ∈ ts, t.value.block.Covers x := by
  constructor
  · rintro ⟨d, hd, hx⟩
    obtain ⟨t, ht, hdt⟩ := mem_preorderAll.mp hd
    exact ⟨t, ht, (h.contains ht hdt).covers hx⟩
  · rintro ⟨t, ht, hx⟩
    exact ⟨t.value, value_mem_preorderAll ht, hx⟩

namespace Shows

/-- The case of a block with nothing right below it is not special. -/
theorem usage_eq (h : Shows forest claims) (he : e ∈ outline forest) :
    (rowOfClaim e).usage =
      usage? 32 e.value.block.length (e.below.map (·.block.length)) := by
  have hblock : e.value.block.Plain := h.plain _ (h.value_mem he)
  rw [rowOfClaim, hblock.1]
  cases hbelow : e.below with
  | nil =>
    have hnone := usage?_plain hblock (List.forall_mem_nil Network.Plain) (Nat.zero_le _)
    rw [List.map_nil, List.map_nil, List.sum_nil, Nat.zero_mul, Nat.zero_div] at hnone
    exact hnone.symm
  | cons d ds => rfl

/-- The blocks right below an entry add up to what is covered strictly inside its block. -/
theorem sum_below (h : Shows forest claims) (he : e ∈ outline forest) :
    (e.below.map (·.block.size)).sum =
      (inside (claims.map Claim.block) e.value.block).ncard := by
  obtain ⟨ts, htidy, hbelow, hplain, hmem⟩ := h.exists_branches he
  have htop : ∀ m ∈ ts.map (·.value.block), m.Plain := by
    intro m hm
    obtain ⟨t, ht, rfl⟩ := List.mem_map.mp hm
    exact hplain t.value (value_mem_preorderAll ht)
  have hinside : inside (claims.map Claim.block) e.value.block =
      ((ts.map (·.value.block)).toFinset.biUnion addresses : Set Nat) := by
    ext x
    rw [Finset.mem_coe, Finset.mem_biUnion]
    simp only [inside, Set.mem_ofPred_eq, List.mem_map, List.mem_toFinset, exists_exists_and_eq_and,
      mem_addresses, ← htidy.exists_covers_iff, hmem, and_assoc]
  rw [hinside, Set.ncard_coe_finset,
    card_biUnion_addresses htop (htidy.pairwise_disjoint hplain), hbelow]
  simp only [List.map_map, Function.comp_def]

end Shows

end Forest

/-! ## In words -/

/-- How many blocks make up a larger one, in words of 128 bits. -/
def countInWords? (maxLength length : Nat) : Option Nat := do
  shiftLeft? 128 1 (← sub? maxLength length)

/-- The share of the children in percent, in words of 128 bits. -/
def usageInWords? (maxLength length : Nat) (children : List Nat) : Option Nat := do
  let capacity ← countInWords? maxLength length
  let claimed ← children.foldlM (fun claimed child ↦ do
    add? 128 claimed (← countInWords? maxLength child)) 0
  return (← mul? 128 claimed 100) / capacity

theorem countInWords?_eq (maxLength length : Nat) :
    countInWords? maxLength length = blockCount? maxLength length := by
  unfold countInWords? sub? blockCount?
  by_cases hle : length ≤ maxLength
  · by_cases hlt : maxLength - length < 128
    · rw [if_pos hle, if_pos ⟨hle, hlt⟩]
      exact shiftLeft?_one hlt
    · rw [if_pos hle, if_neg fun h ↦ hlt h.2]
      exact if_neg hlt
  · rw [if_neg hle, if_neg fun h ↦ hle h.1]
    rfl

/-- Adding up stays in a word exactly as long as the whole sum is one. -/
theorem foldlM_add? (count? : Nat → Option Nat) (children : List Nat) {claimed : Nat}
    (hclaimed : claimed < 2 ^ 128) :
    children.foldlM (fun claimed child ↦ do add? 128 claimed (← count? child)) claimed =
      (children.mapM count?).bind fun counts ↦
        fit? 128 (claimed + counts.foldr (· + ·) 0) := by
  induction children generalizing claimed with
  | nil => exact (fit?_eq_some hclaimed).symm
  | cons child children ih =>
    rw [List.foldlM_cons, List.mapM_cons]
    cases count? child with
    | none => rfl
    | some count =>
      by_cases hfits : claimed + count < 2 ^ 128
      · change (add? 128 claimed count).bind _ = _
        rw [add?_eq_some hfits, Option.bind_some, ih hfits]
        cases children.mapM count? with
        | none => rfl
        | some counts => simp [Nat.add_assoc]
      · have hlarge := Nat.le_of_not_lt hfits
        change (fit? 128 (claimed + count)).bind _ = _
        rw [fit?_eq_none hlarge, Option.bind_none]
        cases children.mapM count? with
        | none => rfl
        | some counts =>
          refine (fit?_eq_none ?_).symm
          rw [List.foldr_cons]
          omega

theorem percent_of_fit? (claimed capacity : Nat) :
    ((fit? 128 claimed).bind fun claimed ↦ do return (← mul? 128 claimed 100) / capacity) =
      if claimed * 100 < 2 ^ 128 then some (claimed * 100 / capacity) else none := by
  by_cases hword : claimed * 100 < 2 ^ 128
  · have hfits : claimed < 2 ^ 128 := by omega
    rw [fit?_eq_some hfits, Option.bind_some, mul?_eq_some hword, if_pos hword]
    rfl
  · rw [if_neg hword]
    cases hfits : fit? 128 claimed with
    | none => rfl
    | some claimed' =>
      obtain ⟨-, rfl⟩ := fit?_eq_some_iff.mp hfits
      rw [Option.bind_some, mul?, fit?_eq_none (Nat.le_of_not_lt hword)]
      rfl

/-- The computation in words has a result whenever the one in numbers has. -/
theorem usageInWords?_eq (maxLength length : Nat) (children : List Nat) :
    usageInWords? maxLength length children = usage? maxLength length children := by
  unfold usageInWords? usage?
  simp only [countInWords?_eq]
  rw [foldlM_add? _ _ (Nat.two_pow_pos 128)]
  cases blockCount? maxLength length with
  | none => rfl
  | some capacity =>
    cases children.mapM (blockCount? maxLength) with
    | none => rfl
    | some counts =>
      change (fit? 128 (0 + counts.foldr (· + ·) 0)).bind _ = _
      rw [Nat.zero_add]
      exact percent_of_fit? (counts.foldr (· + ·) 0) capacity

/-! ## The report -/

/-- The percentages of the IPv4 report are true shares.  The report has a row for each literal
block of the tree, and the percentage of the row is known, is printed, and is the share of the
addresses of the block that are covered by the literal blocks strictly inside it. -/
theorem v4_rows_true_shares (plan : Plan) {t : NodeTree} {claims : List Claim}
    (h : t.claims = .ok claims) :
    rows plan t .v4 = .ok ((outline (forest claims)).map rowOfClaim) ∧
      ((outline (forest claims)).map Entry.value).Perm claims ∧
      ∀ e ∈ outline (forest claims), ∃ percent,
        (rowOfClaim e).cidr = e.value.block.text ∧
        (rowOfClaim e).usage = some percent ∧
        (rowOfClaim e).usageText = toString percent ++ "%" ∧
        TrueShare (claims.map Claim.block) e.value.block percent ∧
        usageInWords? 32 e.value.block.length (e.below.map (·.block.length)) = some percent := by
  obtain ⟨hshows, hperm⟩ := shows_forest h
  have hvalues : (outline (forest claims)).map Entry.value = preorderAll (forest claims) :=
    map_value_outlineFrom _ _ _ _
  refine ⟨by rw [rows, h]; rfl, hvalues ▸ hperm, fun e he ↦ ?_⟩
  have hblock : e.value.block.Plain := hshows.plain _ (hshows.value_mem he)
  have hbelow : ∀ m ∈ e.below.map Claim.block, m.Plain := by
    intro m hm
    obtain ⟨d, hd, rfl⟩ := List.mem_map.mp hm
    exact hshows.plain d (hshows.below_subset he hd)
  have hlengths : e.below.map (·.block.length) =
      (e.below.map Claim.block).map Network.length := by rw [List.map_map]; rfl
  have hsum : ((e.below.map Claim.block).map Network.size).sum =
      (inside (claims.map Claim.block) e.value.block).ncard := by
    rw [inside_perm (hperm.map Claim.block).symm, ← hshows.sum_below he, List.map_map]
    rfl
  have hshare := usage?_plain hblock hbelow (hsum.symm ▸ ncard_inside_le _ _)
  rw [hsum, ← hlengths] at hshare
  have husage := hshows.usage_eq he
  rw [hshare] at husage
  refine ⟨_, rfl, husage, ?_, trueShare _ _, ?_⟩
  · rw [Row.usageText, husage]
    rfl
  · rw [usageInWords?_eq, hshare]

/-- All addresses are one block, and single addresses are blocks as well. -/
def halvedTree : NodeTree :=
  ⟨[⟨{ id := 1, name := "root" }, none⟩,
    ⟨{ id := 2, name := "all", literals := "10.0.0.1/32,0.0.0.0/0,10.0.0.0/30" }, some 0⟩,
    ⟨{ id := 3, name := "half", literals := "128.0.0.0/1,10.0.0.0/32,0.0.0.0/1" }, some 0⟩]⟩

theorem v4_rows_true_shares_halvedTree :
    ∃ claims, halvedTree.claims = .ok claims ∧ claims.length = 6 ∧
      rows ⟨1, "10.0.0.0/7", 24, none, none⟩ halvedTree .v4 =
        .ok ((outline (forest claims)).map rowOfClaim) ∧
      ((outline (forest claims)).map Entry.value).Perm claims ∧
      ∀ e ∈ outline (forest claims), ∃ percent,
        (rowOfClaim e).cidr = e.value.block.text ∧
        (rowOfClaim e).usage = some percent ∧
        (rowOfClaim e).usageText = toString percent ++ "%" ∧
        TrueShare (claims.map Claim.block) e.value.block percent ∧
        usageInWords? 32 e.value.block.length (e.below.map (·.block.length)) = some percent := by
  have hlength : halvedTree.claims.map List.length = .ok 6 := by decide +kernel
  cases h : halvedTree.claims with
  | error e =>
    rw [h] at hlength
    cases hlength
  | ok claims =>
    rw [h] at hlength
    exact ⟨claims, rfl, Except.ok.inj hlength, v4_rows_true_shares _ h⟩

/-- The two halves fill the block of all addresses, and two addresses half of four. -/
example : (rows ⟨1, "10.0.0.0/7", 24, none, none⟩ halvedTree .v4).map
    (·.map fun r ↦ (r.cidr, r.usageText)) =
      .ok [("0.0.0.0/0", "100%"), ("0.0.0.0/1", "0%"), ("10.0.0.0/30", "50%"),
        ("10.0.0.0/32", "0%"), ("10.0.0.1/32", "0%"), ("128.0.0.0/1", "0%")] := by
  decide +kernel

end Report

end AddressPlan
