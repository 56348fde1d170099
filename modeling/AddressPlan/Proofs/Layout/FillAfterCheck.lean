import AddressPlan.Proofs.Layout.WellFormed
import AddressPlan.Proofs.NodeTree.FillInWords
import AddressPlan.Proofs.NodeTree.FillRefusals

/-!
# Numbering a layout that was checked

The check keeps every path of a layout within the bits of its plan, and the fill sums the same
widths up in another way.  So on a layout that passed the check the fill has room for every path,
and it can be refused only for a node without width or for a child that its width cannot number.
-/

namespace AddressPlan

namespace NodeTree

variable {t : NodeTree} {rows : List Node} {base : Network} {maskLength : Nat} {root : Node}

/-- Every row but the root has a positive width. -/
def SizedRows (rows : List Node) : Prop :=
  ∀ n ∈ rows, n.isRoot = false → 0 < n.bitWidth

/-- What comes of numbering a tree of these rows, and what it is refused for. -/
structure FillOutcome (rows : List Node) (t : NodeTree) (outcome : Except PlanError Unit) :
    Prop where
  ok_iff : outcome = .ok () ↔ SizedRows rows ∧ t.Countable
  malformed_iff : (∃ cause, outcome = .error (.malformed cause)) ↔
    ∃ n ∈ rows, n.isRoot = false ∧ n.bitWidth = 0
  capacity_iff : (∃ cause, outcome = .error (.capacity cause)) ↔
    SizedRows rows ∧ ¬ t.Countable
  error : ∀ e, outcome = .error e →
    (∃ n ∈ rows, n.isRoot = false ∧ n.bitWidth = 0 ∧ e = .malformed (.noWidth n.name)) ∨
      t.Crowded e

theorem Linked.isRoot_eq_false_iff (ht : t.Linked) (hrooted : t.Rooted) {i : Nat} {n : Node}
    (hn : t.node? i = some n) : n.isRoot = false ↔ 0 < i := by
  constructor
  · intro hroot
    by_contra hzero
    obtain rfl := Nat.eq_zero_of_not_pos hzero
    rw [ht.top n hn] at hroot
    cases hroot
  · intro hpos
    obtain ⟨_, _, _, _, _, hroot, _⟩ := ht.exists_above hrooted hpos hn
    exact hroot

theorem Linked.sized_iff (ht : t.Linked) (hrooted : t.Rooted) (hperm : t.flatten.Perm rows) :
    t.Sized ↔ SizedRows rows := by
  constructor
  · intro hsized n hn hroot
    obtain ⟨i, hi⟩ := mem_flatten.mp (hperm.mem_iff.mpr hn)
    exact hsized i n ((ht.isRoot_eq_false_iff hrooted hi).mp hroot) hi
  · intro hsized i n hi hn
    exact hsized n (hperm.mem_iff.mp (mem_flatten.mpr ⟨i, hn⟩))
      ((ht.isRoot_eq_false_iff hrooted hn).mpr hi)

theorem SizedRows.ne_zero (h : SizedRows rows) :
    ¬ ∃ n ∈ rows, n.isRoot = false ∧ n.bitWidth = 0 := by
  rintro ⟨n, hn, hroot, hzero⟩
  have hpos := h n hn hroot
  omega

theorem Linked.fill_cases (ht : t.Linked) (hrooted : t.Rooted) (hperm : t.flatten.Perm rows)
    (hroot : t.node? 0 = some root) (h : t.WithinBudget (maskLength - base.length))
    (hmask : maskLength ≤ base.family.maskLimit) :
    ((t.fill base maskLength).1 = .ok () ∧ SizedRows rows ∧ t.Countable) ∨
      (∃ n ∈ rows, n.isRoot = false ∧ n.bitWidth = 0 ∧
        (t.fill base maskLength).1 = .error (.malformed (.noWidth n.name))) ∨
      (SizedRows rows ∧ ∃ e, t.Crowded e ∧ (t.fill base maskLength).1 = .error e) := by
  have hlimit := base.family.maskLimit_le
  have hsums : t.SumsFit := h.sumsFit (by omega)
  have hsized := ht.sized_iff hrooted hperm
  cases houtcome : (t.fill base maskLength).1 with
  | ok _ =>
    obtain ⟨total, -, hnumberable⟩ := hrooted.numberable_of_fill hsums hroot (Prod.ext houtcome rfl)
    exact Or.inl ⟨rfl, hsized.mp hnumberable.widths, hnumberable.position_le⟩
  | error e =>
    rcases fill_error hrooted hroot h hmask houtcome with hunsized | ⟨hall, hcrowded⟩
    · obtain ⟨i, n, hi, hn, hwidth, rfl⟩ := hunsized
      have hnonneg := h.widths_nonneg hrooted i n hn
      exact Or.inr (Or.inl ⟨n, hperm.mem_iff.mp (mem_flatten.mpr ⟨i, hn⟩),
        (ht.isRoot_eq_false_iff hrooted hn).mpr hi, by omega, rfl⟩)
    · exact Or.inr (Or.inr ⟨hsized.mp hall, e, hcrowded, rfl⟩)

theorem Linked.fillOutcome (ht : t.Linked) (hrooted : t.Rooted) (hperm : t.flatten.Perm rows)
    (hroot : t.node? 0 = some root) (h : t.WithinBudget (maskLength - base.length))
    (hmask : maskLength ≤ base.family.maskLimit) :
    FillOutcome rows t (t.fill base maskLength).1 := by
  rcases ht.fill_cases hrooted hperm hroot h hmask with
    ⟨hok, hsized, hcountable⟩ | ⟨n, hn, hnotRoot, hzero, herror⟩ | ⟨hsized, e, hcrowded, herror⟩
  · rw [hok]
    exact ⟨iff_of_true rfl ⟨hsized, hcountable⟩, iff_of_false nofun hsized.ne_zero,
      iff_of_false nofun fun hnot ↦ hnot.2 hcountable, nofun⟩
  · have hnot : ¬ SizedRows rows := fun hsized ↦ hsized.ne_zero ⟨n, hn, hnotRoot, hzero⟩
    rw [herror]
    refine ⟨iff_of_false nofun fun hall ↦ hnot hall.1,
      iff_of_true ⟨_, rfl⟩ ⟨n, hn, hnotRoot, hzero⟩, iff_of_false nofun fun hall ↦ hnot hall.1, ?_⟩
    rintro _ ⟨⟩
    exact Or.inl ⟨n, hn, hnotRoot, hzero, rfl⟩
  · have hnot := hcrowded.not_countable
    rw [herror]
    refine ⟨iff_of_false nofun fun hall ↦ hnot hall.2, iff_of_false ?_ hsized.ne_zero, ?_, ?_⟩
    · obtain ⟨p, k, c, -, -, -, rfl⟩ := hcrowded
      exact nofun
    · refine iff_of_true ?_ ⟨hsized, hnot⟩
      obtain ⟨p, k, c, -, -, -, rfl⟩ := hcrowded
      exact ⟨_, rfl⟩
    · rintro _ ⟨⟩
      exact Or.inr hcrowded

end NodeTree

namespace Layout

open NodeTree Rows

variable {plan : Plan} {l l' : Layout} {base : Network}

theorem run_fill_fst (hauto : l.header.autoFill = true) (hnodes : l.nodes ≠ [])
    (hnetwork : plan.network = .ok base) (hfamily : base.family = .v6) :
    ((Layout.fill plan).run l).1 = (l.tree.fill base plan.maskLength).1 := by
  have hskip : (!l.header.autoFill || l.nodes.isEmpty) = false := by
    simpa [hauto] using hnodes
  simp only [Layout.fill, Step.run_bind, Step.run_get, hskip, Bool.false_eq_true, if_false,
    Step.run_ofExcept, hnetwork, hfamily]
  rfl

/-- After a check that passed, the fill of a layout of a plan of IPv6 addresses is refused exactly
if a node below the root has no width, or else a child stands too far behind for its width.  No
other refusal is met on the way, and in words no sum and no narrowed width goes wrong. -/
theorem fill_after_check (hkept : l.kept = none ∨ l.kept = some (build l.nodes))
    (hnodes : l.nodes ≠ []) (hnetwork : plan.network = .ok base) (hfamily : base.family = .v6)
    (hcheck : (check plan).run l = (.ok (), l')) :
    (l.header.autoFill = true → ((Layout.fill plan).run l').1 =
        ((build l.nodes).fill base plan.maskLength).1) ∧
      FillOutcome l.nodes (build l.nodes) ((build l.nodes).fill base plan.maskLength).1 ∧
      (build l.nodes).fillInWords? base plan.maskLength =
        some ((build l.nodes).fill base plan.maskLength) := by
  have htree := tree_eq_build hkept
  obtain ⟨hheader, hsame, htree', -⟩ := run_check_eq_ok hcheck
  obtain ⟨hplan, hnone | ⟨hone, allowed, hallowed, hbudget⟩⟩ :=
    run_check_fst_eq_ok_iff.mp (congrArg Prod.fst hcheck)
  · exact absurd hnone hnodes
  obtain ⟨block, hvalid⟩ := Plan.check_eq_ok_iff.mp hplan
  cases hvalid.network.symm.trans hnetwork
  cases hvalid.allowedBits.symm.trans hallowed
  have hrooted := build_rooted l.nodes
  have hbase := Nat.le_of_lt hvalid.deeper
  rw [htree] at hbudget
  have hwithin : (build l.nodes).WithinBudget (plan.maskLength - base.length) := by
    rw [← Nat.cast_sub hbase]
    exact (hrooted.check_eq_ok_iff.mp hbudget).1
  obtain ⟨root, hroots⟩ := List.length_eq_one_iff.mp hone.roots
  have hroot := node?_build_zero (find?_isRoot_of_roots hroots)
  have hperm := build_perm (htree ▸ hone.size)
  have hmask : plan.maskLength ≤ 64 := by
    have hlimit := hvalid.limit
    rwa [hfamily] at hlimit
  refine ⟨fun hauto ↦ ?_, ?_, ?_⟩
  · rw [← htree, ← htree']
    exact run_fill_fst (hheader ▸ hauto) (hsame ▸ hnodes) hnetwork hfamily
  · exact (build_linked l.nodes).fillOutcome hrooted hperm hroot hwithin hvalid.limit
  · exact fillInWords?_eq hrooted hwithin hbase hmask

def floorPlan : Plan := ⟨1, "2001:db8::/48", 64, none, none⟩

/-- Two floors of one width, and a rack on the second one. -/
def floors (width : Int) : Layout := .ofRequest 1
  { name := "floors"
    autoFill := true
    nodes := [{ id := 1, name := "root" },
      { id := 2, parentId := 1, name := "ground", sequence := 1, bitWidth := width },
      { id := 3, parentId := 1, name := "first", sequence := 2, bitWidth := width },
      { id := 4, parentId := 3, name := "rack", bitWidth := 4 }] }

theorem fill_after_check_floors :
    ∃ l', (check floorPlan).run (floors 1) = (.ok (), l') ∧
      ((floors 1).header.autoFill = true → ((Layout.fill floorPlan).run l').1 =
        ((build (floors 1).nodes).fill exampleBase floorPlan.maskLength).1) ∧
      FillOutcome (floors 1).nodes (build (floors 1).nodes)
        ((build (floors 1).nodes).fill exampleBase floorPlan.maskLength).1 ∧
      (build (floors 1).nodes).fillInWords? exampleBase floorPlan.maskLength =
        some ((build (floors 1).nodes).fill exampleBase floorPlan.maskLength) := by
  have hpassed : ((check floorPlan).run (floors 1)).1 = .ok () := by decide +kernel
  have hcheck : (check floorPlan).run (floors 1) =
      (.ok (), ((check floorPlan).run (floors 1)).2) := Prod.ext hpassed rfl
  have hnetwork : floorPlan.network = .ok exampleBase := by decide +kernel
  have houtcome := fill_after_check (Or.inl rfl) (by decide) hnetwork rfl hcheck
  exact ⟨_, hcheck, houtcome⟩

/-- One bit numbers one floor, and none at all is refused before any floor is numbered. -/
example : ([2, 1, 0].map fun width ↦ ((floors width).tree.fill exampleBase 64).1) =
    [.ok (), .error (.capacity (.siblings "root" 2 1 1)),
      .error (.malformed (.noWidth "ground"))] := by
  decide +kernel

end Layout

end AddressPlan
