import AddressPlan.Order
import AddressPlan.Proofs.Report.Outline
import AddressPlan.Report.ByFamily

/-!
# The containment report without a forest

The report on literal blocks can be read off the set of blocks.  Its rows come by address and
then by prefix length.  What encloses a block are the blocks around it, its share in use comes
from the blocks whose smallest container it is, and its label counts, for each of these
containers and for the block itself, the blocks in front that have the same smallest container.
-/

namespace AddressPlan.Report

open NodeTree (Claim)
open Rose Network

/-! ## The reference -/

/-- Sorts by the prefix lengths of blocks. -/
def byLength {α : Type} (block : α → Network) (as : List α) : List α :=
  Order.sortBy (fun a b ↦ decide ((block a).length ≤ (block b).length)) as

/-- The blocks around a block, the one with the shortest prefix length first. -/
def containers (blocks : List Network) (b : Network) : List Network :=
  byLength id (blocks.filter (Surrounds · b))

/-- The smallest of the blocks around a block. -/
def container? (blocks : List Network) (b : Network) : Option Network :=
  (containers blocks b).getLast?

/-- The blocks whose smallest container is a block. -/
def contents (blocks : List Network) (b : Network) : List Network :=
  blocks.filter fun m ↦ container? blocks m = some b

/-- The place of a block, counted from 1, among those with the same smallest container. -/
def position (blocks : List Network) (b : Network) : Nat :=
  (blocks.filter fun m ↦ container? blocks m = container? blocks b ∧ Precedes m b).length + 1

def label (blocks : List Network) (b : Network) : List Nat :=
  (containers blocks b ++ [b]).map (position blocks)

def share? (blocks : List Network) (b : Network) : Option Nat :=
  if contents blocks b = [] then some 0
  else usage? 32 b.length ((contents blocks b).map Network.length)

/-- The claims on the blocks around the block of a claim, the largest block first. -/
def enclosing (claims : List Claim) (c : Claim) : List Claim :=
  byLength Claim.block (claims.filter fun d ↦ Surrounds d.block c.block)

def referenceRow (claims : List Claim) (c : Claim) : Row where
  name := c.owner.node.name
  cidr := c.block.text
  label := label (claims.map Claim.block) c.block
  enclosing := (enclosing claims c).map (·.owner.node.name)
  usage := share? (claims.map Claim.block) c.block

/-! ## Smallest containers -/

theorem byLength_eq {α : Type} {block : α → Network} {as bs : List α} (hperm : as.Perm bs)
    (hbs : bs.Pairwise fun a b ↦ (block a).length < (block b).length) :
    byLength block as = bs := by
  refine Order.sortBy_eq (fun a b ↦ ?_) (fun a b c ↦ ?_) hperm (hbs.imp fun hlt ↦ ?_)
  · simpa using Nat.le_total _ _
  · simpa using Nat.le_trans
  · simpa using ⟨Nat.le_of_lt hlt, hlt⟩

variable {blocks : List Network} {b m : Network}

theorem mem_containers : m ∈ containers blocks b ↔ m ∈ blocks ∧ Surrounds m b := by
  rw [containers, byLength, (Order.sortBy_perm _ _).mem_iff, List.mem_filter, decide_eq_true_eq]

theorem containers_pairwise (blocks : List Network) (b : Network) :
    (containers blocks b).Pairwise fun m n ↦ m.length ≤ n.length := by
  unfold containers byLength
  refine (Order.sortBy_pairwise (fun m n ↦ ?_) (fun m n k ↦ ?_) _).imp ?_
  · simpa using Nat.le_total _ _
  · simpa using Nat.le_trans
  · simp

theorem container?_eq_none_iff :
    container? blocks b = none ↔ ∀ m ∈ blocks, ¬ Surrounds m b := by
  rw [container?, List.getLast?_eq_none_iff, List.eq_nil_iff_forall_not_mem]
  simp only [mem_containers, not_and]

theorem smallest_of_container? {c : Network} (h : container? blocks b = some c) :
    (c ∈ blocks ∧ Surrounds c b) ∧ ∀ m ∈ blocks, Surrounds m b → m.length ≤ c.length := by
  obtain ⟨front, hfront⟩ := List.getLast?_eq_some_iff.mp h
  have hsorted := hfront ▸ containers_pairwise blocks b
  have hmem : c ∈ containers blocks b := hfront ▸ List.mem_concat_self
  refine ⟨mem_containers.mp hmem, fun m hm hs ↦ ?_⟩
  have hm' := mem_containers.mpr ⟨hm, hs⟩
  rw [hfront, List.mem_append, List.mem_singleton] at hm'
  rcases hm' with hm' | rfl
  · exact (List.pairwise_append.mp hsorted).2.2 m hm' c (List.mem_singleton_self c)
  · exact Nat.le_refl _

/-- The smallest container surrounds the block, and no block around it is longer. -/
theorem container?_eq_some_iff (hplain : ∀ m ∈ blocks, m.Plain) {c : Network} :
    container? blocks b = some c ↔
      (c ∈ blocks ∧ Surrounds c b) ∧ ∀ m ∈ blocks, Surrounds m b → m.length ≤ c.length := by
  refine ⟨smallest_of_container?, fun ⟨⟨hc, hs⟩, hlongest⟩ ↦ ?_⟩
  cases hlast : container? blocks b with
  | none => exact absurd hs (container?_eq_none_iff.mp hlast c hc)
  | some last =>
    obtain ⟨⟨hmem, hs'⟩, hlongest'⟩ := smallest_of_container? hlast
    have hlc : last.Contains c := hs'.2.of_length_le hs.2 (hlongest last hmem hs')
    have hcl : c.Contains last := hs.2.of_length_le hs'.2 (hlongest' c hc hs)
    rw [(hplain last hmem).eq_of_contains (hplain c hc) hlc hcl]

theorem sum_mapM_cons (f : Nat → Option Nat) (a : Nat) (as : List Nat) :
    ((a :: as).mapM f).map (·.foldr (· + ·) 0) =
      (f a).bind fun x ↦ ((as.mapM f).map (·.foldr (· + ·) 0)).map (x + ·) := by
  rw [List.mapM_cons]
  cases f a with
  | none => rfl
  | some x =>
    cases as.mapM f with
    | none => rfl
    | some xs => rfl

theorem sum_mapM_perm (f : Nat → Option Nat) {as bs : List Nat} (h : as.Perm bs) :
    (as.mapM f).map (·.foldr (· + ·) 0) = (bs.mapM f).map (·.foldr (· + ·) 0) := by
  induction h with
  | nil => rfl
  | cons a _ ih => rw [sum_mapM_cons, sum_mapM_cons, ih]
  | swap a b as =>
    simp only [sum_mapM_cons]
    cases f a with
    | none => cases f b <;> rfl
    | some x =>
      cases f b with
      | none => rfl
      | some y => simp [Function.comp_def, Nat.add_left_comm]
  | trans _ _ ih₁ ih₂ => exact ih₁.trans ih₂

/-- The share in use does not depend on the order of the blocks below. -/
theorem usage?_perm {maxLength length : Nat} {as bs : List Nat} (h : as.Perm bs) :
    usage? maxLength length as = usage? maxLength length bs := by
  have hsum := sum_mapM_perm (blockCount? maxLength) h
  unfold usage?
  cases blockCount? maxLength length with
  | none => rfl
  | some capacity =>
    cases has : as.mapM (blockCount? maxLength) with
    | none =>
      rw [has, Option.map_none, eq_comm, Option.map_eq_none_iff] at hsum
      rw [hsum]
    | some counts =>
      rw [has, Option.map_some, eq_comm, Option.map_eq_some_iff] at hsum
      obtain ⟨counts', hbs, hsum⟩ := hsum
      rw [hbs]
      simp only [bind, Option.bind, hsum]

theorem mem_take_iff {α : Type} {R : α → α → Prop} (hR : ∀ a b, R a b → ¬ R b a) {as : List α}
    (h : as.Pairwise R) {i : Nat} {a b : α} (hb : as[i]? = some b) :
    a ∈ as.take i ↔ a ∈ as ∧ R a b := by
  obtain ⟨hi, rfl⟩ := List.getElem?_eq_some_iff.mp hb
  have hsplit : as = as.take i ++ as[i] :: as.drop (i + 1) := by
    rw [← List.drop_eq_getElem_cons hi, List.take_append_drop]
  rw [hsplit, List.pairwise_append, List.pairwise_cons] at h
  obtain ⟨-, ⟨hbehind, -⟩, hfront⟩ := h
  constructor
  · intro ha
    exact ⟨List.mem_of_mem_take ha, hfront a ha _ List.mem_cons_self⟩
  · rintro ⟨ha, hab⟩
    rw [hsplit, List.mem_append, List.mem_cons] at ha
    rcases ha with ha | rfl | ha
    · exact ha
    · exact absurd hab (hR _ _ hab)
    · exact absurd (hbehind a ha) (hR _ _ hab)

/-- Lists in strict order are equal if they have the same entries. -/
theorem eq_of_pairwise_of_mem_iff {α : Type} {R : α → α → Prop} (hR : ∀ a b, R a b → ¬ R b a)
    {as bs : List α} (has : as.Pairwise R) (hbs : bs.Pairwise R)
    (hmem : ∀ a, a ∈ as ↔ a ∈ bs) : as = bs := by
  have hne : ∀ a b, R a b → a ≠ b := fun a b hab heq ↦ hR a b hab (heq ▸ heq ▸ hab)
  have hperm : as.Perm bs :=
    (List.perm_ext_iff_of_nodup (has.imp (hne _ _)) (hbs.imp (hne _ _))).mpr hmem
  exact hperm.eq_of_pairwise (fun a b _ _ hab hba ↦ absurd hba (hR a b hab)) has hbs

/-! ## The forest shows the reference -/

section Forest

variable {forest ts : List (Rose Claim)} {claims : List Claim} {c d u : Claim} {e : Entry Claim}

/-- The claims in order, and a tidy forest that shows them. -/
structure Shows (forest : List (Rose Claim)) (claims : List Claim) : Prop where
  tidy : Tidy forest
  preorder : preorderAll forest = claims
  plain : ∀ c ∈ claims, c.block.Plain

namespace Shows

theorem plain_preorder (h : Shows forest claims) : ∀ d ∈ preorderAll forest, d.block.Plain := by
  rw [h.preorder]
  exact h.plain

theorem plain_blocks (h : Shows forest claims) : ∀ m ∈ claims.map Claim.block, m.Plain := by
  intro m hm
  obtain ⟨c, hc, rfl⟩ := List.mem_map.mp hm
  exact h.plain c hc

theorem pairwise (h : Shows forest claims) :
    claims.Pairwise fun c d ↦ Precedes c.block d.block := by
  rw [← h.preorder]
  exact h.tidy.preorder_pairwise h.plain_preorder

theorem nodup_blocks (h : Shows forest claims) : (claims.map Claim.block).Nodup :=
  List.pairwise_map.mpr (h.pairwise.imp Precedes.ne)

theorem nodup (h : Shows forest claims) : claims.Nodup :=
  h.nodup_blocks.of_map

theorem value_mem (h : Shows forest claims) (he : e ∈ outline forest) : e.value ∈ claims := by
  rw [← h.preorder]
  exact value_mem_of_mem_outlineFrom he

theorem mem_enclosing (h : Shows forest claims) (he : e ∈ outline forest) :
    c ∈ e.enclosing ↔ c ∈ claims ∧ Surrounds c.block e.value.block := by
  rw [h.tidy.mem_enclosing h.plain_preorder he, h.preorder]
  simp

theorem enclosing_pairwise (h : Shows forest claims) (he : e ∈ outline forest) :
    e.enclosing.Pairwise fun c d ↦ Surrounds c.block d.block :=
  h.tidy.enclosing_pairwise .nil (fun _ hw ↦ absurd hw List.not_mem_nil) he

theorem enclosing_lengths (h : Shows forest claims) (he : e ∈ outline forest) :
    e.enclosing.Pairwise fun c d ↦ c.block.length < d.block.length := by
  refine (h.enclosing_pairwise he).imp_of_mem fun hc hd hs ↦ ?_
  exact hs.length_lt (h.plain _ ((h.mem_enclosing he).mp hc).1)
    (h.plain _ ((h.mem_enclosing he).mp hd).1)

theorem enclosing_perm (h : Shows forest claims) (he : e ∈ outline forest) :
    (claims.filter fun d ↦ Surrounds d.block e.value.block).Perm e.enclosing := by
  have hnodup : e.enclosing.Nodup :=
    (h.enclosing_pairwise he).imp fun hs heq ↦ hs.1 (congrArg Claim.block heq)
  rw [List.perm_ext_iff_of_nodup (h.nodup.sublist List.filter_sublist) hnodup]
  intro d
  rw [List.mem_filter, decide_eq_true_eq, h.mem_enclosing he]

theorem enclosing_eq (h : Shows forest claims) (he : e ∈ outline forest) :
    enclosing claims e.value = e.enclosing :=
  byLength_eq (h.enclosing_perm he) (h.enclosing_lengths he)

theorem containers_eq (h : Shows forest claims) (he : e ∈ outline forest) :
    containers (claims.map Claim.block) e.value.block = e.enclosing.map Claim.block := by
  refine byLength_eq ?_ (List.pairwise_map.mpr (h.enclosing_lengths he))
  rw [List.filter_map]
  exact (h.enclosing_perm he).map Claim.block

theorem exists_branches (h : Shows forest claims) (he : e ∈ outline forest) :
    ∃ ts, Tidy ts ∧ e.below = ts.map Rose.value ∧ (∀ d ∈ preorderAll ts, d.block.Plain) ∧
      ∀ d, d ∈ preorderAll ts ↔ d ∈ claims ∧ Surrounds e.value.block d.block := by
  obtain ⟨ts, htidy, hbelow, hmem⟩ := h.tidy.exists_branches h.plain_preorder he
  rw [h.preorder] at hmem
  exact ⟨ts, htidy, hbelow, fun d hd ↦ h.plain d ((hmem d).mp hd).1, hmem⟩

/-- Right below an entry stand the blocks whose smallest container it is. -/
theorem container?_eq_some_iff (h : Shows forest claims) (he : e ∈ outline forest)
    (hd : d ∈ claims) :
    container? (claims.map Claim.block) d.block = some e.value.block ↔ d ∈ e.below := by
  obtain ⟨ts, htidy, hbelow, hplain, hmem⟩ := h.exists_branches he
  have hvalue := h.value_mem he
  have hplainValue := h.plain _ hvalue
  rw [Report.container?_eq_some_iff h.plain_blocks, hbelow, htidy.mem_map_value hplain, hmem]
  constructor
  · rintro ⟨⟨-, hs⟩, hlongest⟩
    refine ⟨⟨hd, hs⟩, fun w hw hws ↦ ?_⟩
    obtain ⟨hwclaims, hsw⟩ := (hmem w).mp hw
    have hlt := hsw.length_lt hplainValue (h.plain w hwclaims)
    have hle := hlongest w.block (List.mem_map.mpr ⟨w, hwclaims, rfl⟩) hws
    omega
  · rintro ⟨⟨-, hs⟩, hnone⟩
    refine ⟨⟨List.mem_map.mpr ⟨e.value, hvalue, rfl⟩, hs⟩, fun m hm hms ↦ ?_⟩
    obtain ⟨w, hw, rfl⟩ := List.mem_map.mp hm
    by_contra hlonger
    have hsw : Surrounds e.value.block w.block :=
      ⟨fun heq ↦ hlonger (heq ▸ Nat.le_refl _), hs.2.of_length_le hms.2 (by omega)⟩
    exact hnone w ((hmem w).mpr ⟨hw, hsw⟩) hms

theorem container?_eq_none_iff (h : Shows forest claims) (hd : d ∈ claims) :
    container? (claims.map Claim.block) d.block = none ↔ d ∈ forest.map Rose.value := by
  rw [Report.container?_eq_none_iff, h.tidy.mem_map_value h.plain_preorder, h.preorder,
    and_iff_right hd]
  simp

/-! ### Positions and shares -/

/-- Trees in order that show just the blocks with one smallest container have their positions. -/
theorem position_eq (h : Shows forest claims) {k : Option Network} (hts : Tidy ts)
    (hk : ∀ d ∈ claims, container? (claims.map Claim.block) d.block = k ↔ d ∈ ts.map Rose.value)
    (hsub : ∀ d ∈ ts.map Rose.value, d ∈ claims) {i : Nat}
    (hu : (ts.map Rose.value)[i]? = some u) :
    position (claims.map Claim.block) u.block = i + 1 := by
  have humem : u ∈ ts.map Rose.value := List.mem_of_getElem? hu
  have hkey := (hk u (hsub u humem)).mpr humem
  have hsorted : (ts.map Rose.value).Pairwise fun c d ↦ Precedes c.block d.block :=
    List.pairwise_map.mpr hts.pairwise
  have hnodup : (ts.map Rose.value).Nodup :=
    hsorted.imp fun hcd heq ↦ hcd.ne (congrArg Claim.block heq)
  have hfront : (claims.filter fun d ↦
      container? (claims.map Claim.block) d.block = k ∧ Precedes d.block u.block).Perm
      ((ts.map Rose.value).take i) := by
    rw [List.perm_ext_iff_of_nodup (h.nodup.sublist List.filter_sublist)
      (hnodup.sublist (List.take_sublist i _))]
    intro d
    rw [mem_take_iff (fun c d hcd ↦ hcd.asymm) hsorted hu, List.mem_filter, decide_eq_true_eq]
    constructor
    · rintro ⟨hd, hkd, hdu⟩
      exact ⟨(hk d hd).mp hkd, hdu⟩
    · rintro ⟨hd, hdu⟩
      exact ⟨hsub d hd, (hk d (hsub d hd)).mpr hd, hdu⟩
  have hlength := hfront.length_eq
  have hi : i < (ts.map Rose.value).length := (List.getElem?_eq_some_iff.mp hu).1
  rw [List.length_take, Nat.min_eq_left (Nat.le_of_lt hi)] at hlength
  rw [position, hkey, List.filter_map, List.length_map]
  exact congrArg (· + 1) hlength

theorem label_eq (h : Shows forest claims) (he : e ∈ outline forest) :
    e.label = label (claims.map Claim.block) e.value.block := by
  have hranks := label_eq_map_rank (fun c ↦ position (claims.map Claim.block) c.block) forest
    [] 1 (fun i u hu ↦ ?_) (fun e he i u hu ↦ ?_) e he
  · rw [hranks, label, h.containers_eq he]
    simp
  · rw [Nat.add_comm]
    refine h.position_eq h.tidy (fun d hd ↦ h.container?_eq_none_iff hd) (fun d hd ↦ ?_) hu
    rw [← h.preorder]
    exact (h.tidy.mem_map_value h.plain_preorder |>.mp hd).1
  · obtain ⟨ts, htidy, hbelow, hplain, hmem⟩ := h.exists_branches he
    rw [hbelow] at hu
    refine h.position_eq htidy (fun d hd ↦ hbelow ▸ h.container?_eq_some_iff he hd)
      (fun d hd ↦ ?_) hu
    exact ((hmem d).mp (htidy.mem_map_value hplain |>.mp hd).1).1

theorem below_nodup (h : Shows forest claims) (he : e ∈ outline forest) :
    (e.below.map Claim.block).Nodup := by
  obtain ⟨ts, htidy, hbelow, -, -⟩ := h.exists_branches he
  rw [hbelow, List.map_map]
  exact List.pairwise_map.mpr (htidy.pairwise.imp Precedes.ne)

theorem below_subset (h : Shows forest claims) (he : e ∈ outline forest) (hd : d ∈ e.below) :
    d ∈ claims := by
  obtain ⟨ts, htidy, hbelow, hplain, hmem⟩ := h.exists_branches he
  rw [hbelow] at hd
  exact ((hmem d).mp ((htidy.mem_map_value hplain).mp hd).1).1

theorem contents_perm (h : Shows forest claims) (he : e ∈ outline forest) :
    (contents (claims.map Claim.block) e.value.block).Perm (e.below.map Claim.block) := by
  unfold contents
  rw [List.perm_ext_iff_of_nodup (h.nodup_blocks.sublist List.filter_sublist) (h.below_nodup he)]
  intro m
  rw [List.mem_filter, decide_eq_true_eq, List.mem_map, List.mem_map]
  constructor
  · rintro ⟨⟨d, hd, rfl⟩, hcontainer⟩
    exact ⟨d, (h.container?_eq_some_iff he hd).mp hcontainer, rfl⟩
  · rintro ⟨d, hd, rfl⟩
    have hmem := h.below_subset he hd
    exact ⟨⟨d, hmem, rfl⟩, (h.container?_eq_some_iff he hmem).mpr hd⟩

theorem share?_eq (h : Shows forest claims) (he : e ∈ outline forest) :
    (rowOfClaim e).usage = share? (claims.map Claim.block) e.value.block := by
  have hperm := h.contents_perm he
  have hfamily : e.value.block.family = .v4 := (h.plain _ (h.value_mem he)).1
  rw [rowOfClaim, share?, hfamily, usage?_perm (hperm.map Network.length), List.map_map]
  simp only [List.isEmpty_iff, ← List.length_eq_zero_iff, hperm.length_eq, List.length_map]
  rfl

theorem row_eq (h : Shows forest claims) (he : e ∈ outline forest) :
    rowOfClaim e = referenceRow claims e.value := by
  have hshare := h.share?_eq he
  rw [rowOfClaim] at hshare ⊢
  rw [referenceRow, Row.mk.injEq]
  exact ⟨rfl, rfl, h.label_eq he, by rw [h.enclosing_eq he], hshare⟩

/-- The rows of the forest are the reference rows of its claims in order. -/
theorem rows_eq (h : Shows forest claims) :
    (outline forest).map rowOfClaim = claims.map (referenceRow claims) := by
  have hvalues : (outline forest).map Entry.value = claims :=
    (map_value_outlineFrom forest [] [] 1).trans h.preorder
  calc
    (outline forest).map rowOfClaim
      = (outline forest).map (referenceRow claims ∘ Entry.value) :=
        List.map_congr_left fun e he ↦ h.row_eq he
    _ = ((outline forest).map Entry.value).map (referenceRow claims) := by rw [List.map_map]
    _ = claims.map (referenceRow claims) := by rw [hvalues]

end Shows

end Forest

/-! ## The report -/

/-- What a row tells about blocks and not about names. -/
def Row.geometry (r : Row) : String × List Nat × Option Nat × Nat :=
  (r.cidr, r.label, r.usage, r.depth)

theorem geometry_referenceRow {claims : List Claim} {c : Claim} :
    (referenceRow claims c).geometry =
      (c.block.text, label (claims.map Claim.block) c.block,
        share? (claims.map Claim.block) c.block,
        ((claims.map Claim.block).filter (Surrounds · c.block)).length) := by
  simp [Row.geometry, Row.depth, referenceRow, enclosing, byLength, List.filter_map,
    (Order.sortBy_perm _ _).length_eq, Function.comp_def]

/-- The forest of plain blocks of which none occurs twice shows them, each one once. -/
theorem shows_forest_of_plain {claims : List Claim} (hplain : ∀ c ∈ claims, c.block.Plain)
    (hnodup : (claims.map Claim.block).Nodup) :
    Shows (forest claims) (preorderAll (forest claims)) ∧
      (preorderAll (forest claims)).Perm claims := by
  obtain ⟨htidy, hperm⟩ := forest_tidy hplain hnodup
  exact ⟨⟨htidy, rfl, fun c hc ↦ hplain c (hperm.mem_iff.mp hc)⟩, hperm⟩

theorem shows_forest {t : NodeTree} {claims : List Claim} (h : t.claims = .ok claims) :
    Shows (forest claims) (preorderAll (forest claims)) ∧
      (preorderAll (forest claims)).Perm claims :=
  have hclaimed := NodeTree.claims_eq_ok_iff.mp h
  shows_forest_of_plain hclaimed.plain hclaimed.nodup

/-- Claims in the order of their blocks, with the rows of the report in that order. -/
theorem exists_order {t : NodeTree} {claims : List Claim} (plan : Plan)
    (h : t.claims = .ok claims) :
    ∃ order : List Claim, order.Perm claims ∧
      order.Pairwise (fun c d ↦ Precedes c.block d.block) ∧
      Report.rows plan t .v4 = .ok (order.map (referenceRow order)) := by
  obtain ⟨hshows, hperm⟩ := shows_forest h
  refine ⟨_, hperm, hshows.pairwise, ?_⟩
  rw [rows, h, Except.map, ofClaims, hshows.rows_eq]

theorem blocks_eq_of_mem_iff {order order' : List Claim}
    (h : order.Pairwise fun c d ↦ Precedes c.block d.block)
    (h' : order'.Pairwise fun c d ↦ Precedes c.block d.block)
    (hmem : ∀ m, m ∈ order.map Claim.block ↔ m ∈ order'.map Claim.block) :
    order.map Claim.block = order'.map Claim.block :=
  eq_of_pairwise_of_mem_iff (R := Precedes) (fun _ _ ↦ Precedes.asymm)
    (List.pairwise_map.mpr h) (List.pairwise_map.mpr h') hmem

theorem map_geometry_eq (order : List Claim) :
    (order.map (referenceRow order)).map Row.geometry =
      (order.map Claim.block).map fun b ↦
        (b.text, label (order.map Claim.block) b, share? (order.map Claim.block) b,
          ((order.map Claim.block).filter (Surrounds · b)).length) := by
  rw [List.map_map, List.map_map]
  exact List.map_congr_left fun c _ ↦ geometry_referenceRow

/-- The report on literal blocks is the reference.  There is one row for each literal of the
tree, in order of address and prefix length, and everything in it but the names depends on the
set of literals only. -/
theorem v4_rows_eq_reference (plan : Plan) {t : NodeTree} {claims : List Claim}
    (h : t.claims = .ok claims) :
    claims.map (fun c ↦ (c.owner, c.block.text)) = t.writtenBlocks ∧
      ∃ order : List Claim, order.Perm claims ∧
        order.Pairwise (fun c d ↦ Precedes c.block d.block) ∧
        rows plan t .v4 = .ok (order.map (referenceRow order)) ∧
        ∀ (plan' : Plan) (t' : NodeTree) (rows' : List Row), rows plan' t' .v4 = .ok rows' →
          (∀ text, text ∈ t'.writtenBlocks.map Prod.snd ↔ text ∈ t.writtenBlocks.map Prod.snd) →
          rows'.map Row.geometry = (order.map (referenceRow order)).map Row.geometry := by
  have hclaimed := NodeTree.claims_eq_ok_iff.mp h
  obtain ⟨order, hperm, hsorted, hrows⟩ := exists_order plan h
  refine ⟨hclaimed.written_eq, order, hperm, hsorted, hrows, fun plan' t' rows' hrows' htexts ↦ ?_⟩
  obtain ⟨claims', h', -⟩ := rows_v4_eq_ok_iff.mp hrows'
  have hclaimed' := NodeTree.claims_eq_ok_iff.mp h'
  obtain ⟨order', hperm', hsorted', hreference⟩ := exists_order plan' h'
  obtain rfl : order'.map (referenceRow order') = rows' :=
    Except.ok.inj (hreference.symm.trans hrows')
  have hblocks : order'.map Claim.block = order.map Claim.block := by
    apply blocks_eq_of_mem_iff hsorted' hsorted
    intro m
    rw [(hperm'.map Claim.block).mem_iff, (hperm.map Claim.block).mem_iff, hclaimed'.mem_blocks_iff,
      hclaimed.mem_blocks_iff, htexts]
  rw [map_geometry_eq, map_geometry_eq, hblocks]

/-- The smallest block is written first and the largest last, by another node. -/
def nestedTree : NodeTree :=
  ⟨[⟨{ id := 1, name := "root" }, none⟩,
    ⟨{ id := 2, name := "inner", literals := "10.1.2.0/24,10.1.0.0/16,10.3.0.0/16" }, some 0⟩,
    ⟨{ id := 3, name := "outer", literals := "11.0.0.0/8,10.0.0.0/8" }, some 0⟩]⟩

theorem v4_rows_eq_reference_nestedTree :
    ∃ claims, nestedTree.claims = .ok claims ∧ claims.length = 5 ∧
      claims.map (fun c ↦ (c.owner, c.block.text)) = nestedTree.writtenBlocks ∧
      ∃ order : List Claim, order.Perm claims ∧
        order.Pairwise (fun c d ↦ Precedes c.block d.block) ∧
        rows ⟨1, "10.0.0.0/7", 24, none, none⟩ nestedTree .v4 =
          .ok (order.map (referenceRow order)) ∧
        ∀ (plan' : Plan) (t' : NodeTree) (rows' : List Row), rows plan' t' .v4 = .ok rows' →
          (∀ text, text ∈ t'.writtenBlocks.map Prod.snd ↔
            text ∈ nestedTree.writtenBlocks.map Prod.snd) →
          rows'.map Row.geometry = (order.map (referenceRow order)).map Row.geometry := by
  have hlength : nestedTree.claims.map List.length = .ok 5 := by decide +kernel
  cases h : nestedTree.claims with
  | error e =>
    rw [h] at hlength
    cases hlength
  | ok claims =>
    rw [h] at hlength
    exact ⟨claims, rfl, Except.ok.inj hlength, v4_rows_eq_reference _ h⟩

end AddressPlan.Report
