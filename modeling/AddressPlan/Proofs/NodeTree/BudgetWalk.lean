import AddressPlan.Proofs.NodeTree.FillInWords
import AddressPlan.Proofs.NodeTree.Fits
import AddressPlan.Proofs.Report.Outline

/-!
# Walking along the budget

The check takes the places of a tree off a stack, together with the sum of the widths above.  It
meets the nodes in pre-order, each with the sum of the widths from the root down to it: the first
one in that order that is out of budget decides on the refusal, and without such a node the
literals do.
-/

namespace AddressPlan.NodeTree

open Rose

variable {t : NodeTree} {allowed above : Int} {strict : Bool} {r r' : Except PlanError Unit}
  {stack : List (Nat × Int)} {err : PlanError} {p : Placed}

/-! ## Nodes out of budget -/

def widthSum (ps : List Placed) : Int :=
  (ps.map fun p ↦ p.node.bitWidth).sum

theorem widthSum_concat (ps : List Placed) (p : Placed) :
    widthSum (ps ++ [p]) = widthSum ps + p.node.bitWidth := by
  rw [widthSum, List.map_append, List.sum_append, List.map_singleton, List.sum_singleton, widthSum]

/-- The widths from the root down to an entry, its own included. -/
def total (e : Entry Placed) : Int :=
  widthSum (e.enclosing ++ [e.value])

/-- Why the node of an entry is refused, and how.  Its width is looked at before the sum, and the
sum before what a leaf leaves unused. -/
inductive OutOfBudget (allowed : Int) (strict : Bool) (e : Entry Placed) : PlanError → Prop
  | negative (hwidth : e.value.node.bitWidth < 0) :
    OutOfBudget allowed strict e
      (.malformed (.negativeWidth e.value.node.name e.value.node.bitWidth))
  | exceeding (hwidth : 0 ≤ e.value.node.bitWidth) (htotal : allowed < total e) :
    OutOfBudget allowed strict e (.capacity (.nodeBits e.value.node.name (total e) allowed))
  | uneven (hwidth : 0 ≤ e.value.node.bitWidth) (htotal : total e ≤ allowed)
    (hstrict : strict = true) (hleaf : e.below = []) (hne : total e ≠ allowed) :
    OutOfBudget allowed strict e (.malformed (.unevenLeaf e.value.node.name (total e) allowed))

/-- No node of the entries is out of budget. -/
def AllInBudget (allowed : Int) (strict : Bool) (entries : List (Entry Placed)) : Prop :=
  ∀ e ∈ entries, ∀ err, ¬ OutOfBudget allowed strict e err

/-- The first node of the entries that is out of budget is refused like this. -/
def FirstOutOfBudget (allowed : Int) (strict : Bool) (entries : List (Entry Placed))
    (err : PlanError) : Prop :=
  ∃ front e behind, entries = front ++ e :: behind ∧ AllInBudget allowed strict front ∧
    OutOfBudget allowed strict e err

/-- The fault that the check finds with the node of an entry. -/
def entryFault? (allowed : Int) (strict : Bool) (e : Entry Placed) : Option PlanError :=
  widthFault? e.value.node (total e) allowed (strict && e.below.isEmpty)

theorem entryFault?_eq_some_iff {e : Entry Placed} :
    entryFault? allowed strict e = some err ↔ OutOfBudget allowed strict e err := by
  unfold entryFault? widthFault?
  constructor
  · intro h
    split at h
    · cases h
      exact .negative ‹_›
    · split at h
      · cases h
        exact .exceeding (by omega) ‹_›
      · split at h
        · rename_i huneven
          cases h
          obtain ⟨hleaf, hne⟩ := huneven
          obtain ⟨hstrict, hbelow⟩ := (Bool.and_eq_true _ _).mp hleaf
          exact .uneven (by omega) (by omega) hstrict (List.isEmpty_iff.mp hbelow) hne
        · cases h
  · rintro (hwidth | ⟨hwidth, htotal⟩ | ⟨hwidth, htotal, rfl, hleaf, hne⟩)
    · rw [if_pos hwidth]
    · rw [if_neg (by omega), if_pos htotal]
    · rw [if_neg (by omega), if_neg (by omega), if_pos ⟨by rw [hleaf]; rfl, hne⟩]

theorem entryFault?_eq_none_iff {e : Entry Placed} :
    entryFault? allowed strict e = none ↔ ∀ err, ¬ OutOfBudget allowed strict e err := by
  simp only [Option.eq_none_iff_forall_not_mem, Option.mem_def, entryFault?_eq_some_iff]

/-! ## The first fault in pre-order -/

/-- The result of a check that found this fault. -/
def verdict : Option PlanError → Except PlanError Unit
  | none => .ok ()
  | some e => .error e

theorem verdict_or (fault fault' : Option PlanError) :
    verdict (fault.or fault') = (do verdict fault; verdict fault') := by
  cases fault with
  | none => rfl
  | some e => rfl

theorem verdict_eq_error_iff {fault : Option PlanError} :
    verdict fault = .error err ↔ fault = some err := by
  cases fault with
  | none => exact iff_of_false nofun nofun
  | some e => rw [verdict, Except.error.injEq, Option.some.injEq]

theorem verdict_eq_ok_iff {fault : Option PlanError} : verdict fault = .ok () ↔ fault = none := by
  cases fault with
  | none => exact iff_of_true rfl rfl
  | some e => exact iff_of_false nofun nofun

/-- The check of a forest finds the first fault of its outline. -/
theorem checkSiblings_eq_verdict (ts : List (Rose Placed)) (label : List Nat)
    (enclosing : List Placed) (position : Nat) :
    checkSiblings allowed strict (widthSum enclosing) ts =
      verdict ((outlineFrom label enclosing position ts).findSome?
        (entryFault? allowed strict)) := by
  induction ts using forest_induction generalizing label enclosing position with
  | nil => rfl
  | cons p ts rest ihts ihrest =>
    have hfault : entryFault? allowed strict ⟨label ++ [position], enclosing, p, ts.map value⟩ =
        widthFault? p.node (widthSum enclosing + p.node.bitWidth) allowed
          (strict && ts.isEmpty) := by
      rw [entryFault?, total, widthSum_concat, List.isEmpty_map]
    rw [outlineFrom_cons, List.findSome?_cons, hfault, checkSiblings, checkBranch]
    cases widthFault? p.node (widthSum enclosing + p.node.bitWidth) allowed
      (strict && ts.isEmpty) with
    | some e => rfl
    | none =>
      dsimp only
      rw [List.findSome?_append, verdict_or, ← ihrest label enclosing (position + 1),
        ← ihts (label ++ [position]) (enclosing ++ [p]) 1, widthSum_concat]

theorem checkBudget_eq_verdict (t : NodeTree) (allowed : Int) (strict : Bool) :
    t.checkBudget allowed strict =
      verdict ((outline t.branch?.toList).findSome? (entryFault? allowed strict)) :=
  checkSiblings_eq_verdict t.branch?.toList [] [] 1

theorem allInBudget_iff {entries : List (Entry Placed)} :
    AllInBudget allowed strict entries ↔ entries.findSome? (entryFault? allowed strict) = none := by
  simp only [AllInBudget, List.findSome?_eq_none_iff, entryFault?_eq_none_iff]

theorem checkBudget_eq_ok_iff_allInBudget : t.checkBudget allowed strict = .ok () ↔
    AllInBudget allowed strict (outline t.branch?.toList) := by
  rw [checkBudget_eq_verdict, verdict_eq_ok_iff, allInBudget_iff]

theorem checkBudget_eq_error_iff : t.checkBudget allowed strict = .error err ↔
    FirstOutOfBudget allowed strict (outline t.branch?.toList) err := by
  rw [checkBudget_eq_verdict, verdict_eq_error_iff, List.findSome?_eq_some_iff]
  simp only [FirstOutOfBudget, AllInBudget, entryFault?_eq_some_iff, entryFault?_eq_none_iff]
  constructor
  · rintro ⟨front, e, behind, hentries, he, hfront⟩
    exact ⟨front, e, behind, hentries, hfront, he⟩
  · rintro ⟨front, e, behind, hentries, hfront, he⟩
    exact ⟨front, e, behind, hentries, he, hfront⟩

/-! ## The walk with a stack -/

/-- Puts the children on the stack, the last one first. -/
def pushChildren (cs : List Placed) (total : Int) (stack : List (Nat × Int)) :
    List (Nat × Int) :=
  cs.reverse.foldl (fun stack c ↦ (c.place, total) :: stack) stack

theorem pushChildren_cons (c : Placed) (cs : List Placed) (total : Int)
    (stack : List (Nat × Int)) :
    pushChildren (c :: cs) total stack = (c.place, total) :: pushChildren cs total stack := by
  rw [pushChildren, List.reverse_cons, List.foldl_append]
  rfl

/-- The check with this stack, the top of which stands in front, comes to the result. -/
inductive Walk (t : NodeTree) (allowed : Int) (strict : Bool) :
    List (Nat × Int) → Except PlanError Unit → Prop
  | done : Walk t allowed strict [] (t.claims.map fun _ ↦ ())
  | refused {i : Nat} {above : Int} {stack : List (Nat × Int)} {n : Node} {err : PlanError}
    (hn : t.node? i = some n)
    (hfault : widthFault? n (above + n.bitWidth) allowed (strict && (t.children i).isEmpty) =
      some err) :
    Walk t allowed strict ((i, above) :: stack) (.error err)
  | next {i : Nat} {above : Int} {stack : List (Nat × Int)} {n : Node} {r : Except PlanError Unit}
    (hn : t.node? i = some n)
    (hfault : widthFault? n (above + n.bitWidth) allowed (strict && (t.children i).isEmpty) = none)
    (hrest : Walk t allowed strict (pushChildren (t.children i) (above + n.bitWidth) stack) r) :
    Walk t allowed strict ((i, above) :: stack) r

theorem Walk.unique (h : Walk t allowed strict stack r) (h' : Walk t allowed strict stack r') :
    r = r' := by
  induction h with
  | done =>
    cases h'
    rfl
  | refused hn hfault =>
    cases h' with
    | refused hn' hfault' =>
      cases hn.symm.trans hn'
      cases hfault.symm.trans hfault'
      rfl
    | next hn' hfault' _ =>
      cases hn.symm.trans hn'
      cases hfault.symm.trans hfault'
  | next hn hfault _ ih =>
    cases h' with
    | refused hn' hfault' =>
      cases hn.symm.trans hn'
      cases hfault.symm.trans hfault'
    | next hn' _ hrest' =>
      cases hn.symm.trans hn'
      exact ih hrest'

/-- What is on top of a stack is checked with all that is below it before the rest is. -/
def ChecksFirst (t : NodeTree) (allowed : Int) (strict : Bool) (p : Placed) : Prop :=
  ∀ above stack r, Walk t allowed strict stack r →
    Walk t allowed strict ((p.place, above) :: stack)
      (do checkBranch allowed strict above (t.branch p); r)

theorem walk_pushChildren (cs : List Placed) (hcs : ∀ c ∈ cs, ChecksFirst t allowed strict c)
    (hrest : Walk t allowed strict stack r) :
    Walk t allowed strict (pushChildren cs above stack)
      (do checkSiblings allowed strict above (cs.map t.branch); r) := by
  induction cs with
  | nil => exact hrest
  | cons c cs ih =>
    have hothers := ih fun d hd ↦ hcs d (List.mem_cons_of_mem c hd)
    have hfirst := hcs c List.mem_cons_self above _ _ hothers
    rw [pushChildren_cons, List.map_cons, checkSiblings, bind_assoc]
    exact hfirst

theorem Rooted.checksFirst (h : t.Rooted) (hp : t.Holds p) : ChecksFirst t allowed strict p := by
  induction p using branch_induction t with
  | h p ih =>
    intro above stack r hrest
    have hleaf : ((t.children p.place).map t.branch).isEmpty = (t.children p.place).isEmpty :=
      List.isEmpty_map
    rw [branch_eq, checkBranch, hleaf]
    cases hfault : widthFault? p.node (above + p.node.bitWidth) allowed
      (strict && (t.children p.place).isEmpty) with
    | some e => exact .refused hp hfault
    | none =>
      have hchildren : ∀ c ∈ t.children p.place, ChecksFirst t allowed strict c := fun c hc ↦
        ih c hc (h.mem_children.mp hc).1
      exact .next hp hfault (walk_pushChildren _ hchildren hrest)

/-- The walk from the root comes to an end, with the result of the check. -/
theorem Rooted.walk_iff (h : t.Rooted) :
    Walk t allowed strict (t.root?.toList.map fun _ ↦ (0, 0)) r ↔ t.check allowed strict = r := by
  have hwalk : Walk t allowed strict (t.root?.toList.map fun _ ↦ (0, 0))
      (t.check allowed strict) := by
    have hliterals : (t.claims.map fun _ ↦ ()) = (do let _ ← t.claims) := by
      cases t.claims with
      | error e => rfl
      | ok claims => rfl
    rw [check, checkBudget, branch?_toList, ← hliterals]
    cases hroot : t.root? with
    | none => exact .done
    | some root =>
      have hholds : t.Holds ⟨0, root⟩ := (root?_eq_node? t).symm.trans hroot
      exact walk_pushChildren [⟨0, root⟩]
        (List.forall_mem_singleton.mpr (h.checksFirst hholds)) .done
  exact ⟨fun hr ↦ hwalk.unique hr, fun hr ↦ hr ▸ hwalk⟩

/-! ## The result of the check -/

theorem check_eq_error_iff : t.check allowed strict = .error err ↔
    t.checkBudget allowed strict = .error err ∨
      t.checkBudget allowed strict = .ok () ∧ t.claims = .error err := by
  rw [check, bind_eq_error_iff]
  refine or_congr_right ?_
  constructor
  · rintro ⟨_, hbudget, hclaims⟩
    rcases bind_eq_error_iff.mp hclaims with hclaims | ⟨claims, -, hend⟩
    · exact ⟨hbudget, hclaims⟩
    · cases hend
  · rintro ⟨hbudget, hclaims⟩
    exact ⟨(), hbudget, bind_eq_error_iff.mpr (Or.inl hclaims)⟩

/-- The sum of an entry is that of the way down to its node. -/
theorem Rooted.pathSum_of_mem_outlineFrom (h : t.Rooted) {ts : List (Rose Placed)}
    {enclosing : List Placed} (hts : ∀ u ∈ ts, ∃ p, u = t.branch p ∧ t.Holds p ∧
      t.PathSum p.place (widthSum (enclosing ++ [p])))
    {label : List Nat} {position : Nat} {e : Entry Placed}
    (he : e ∈ outlineFrom label enclosing position ts) :
    t.Holds e.value ∧ t.PathSum e.value.place (total e) := by
  induction ts using forest_induction generalizing label enclosing position with
  | nil => cases he
  | cons a us rest ihus ihrest =>
    obtain ⟨⟨p, hp, hholds, hsum⟩, hrest⟩ := List.forall_mem_cons.mp hts
    rw [branch_eq] at hp
    cases hp
    rw [outlineFrom_cons, List.mem_cons, List.mem_append] at he
    rcases he with rfl | he | he
    · exact ⟨hholds, hsum⟩
    · refine ihus (fun u hu ↦ ?_) he
      obtain ⟨c, hc, rfl⟩ := List.mem_map.mp hu
      obtain ⟨hcholds, hparent⟩ := h.mem_children.mp hc
      refine ⟨c, rfl, hcholds, ?_⟩
      rw [widthSum_concat]
      exact hsum.child hcholds hparent
    · exact ihrest hrest he

theorem Rooted.mem_outline (h : t.Rooted) {e : Entry Placed} (he : e ∈ outline t.branch?.toList) :
    t.Holds e.value ∧ t.PathSum e.value.place (total e) ∧
      e.below = t.children e.value.place := by
  rw [branch?_toList] at he
  have hbranches : ∀ u ∈ t.root?.toList.map fun root ↦ t.branch ⟨0, root⟩, ∃ p,
      u = t.branch p ∧ t.Holds p ∧ t.PathSum p.place (widthSum ([] ++ [p])) := by
    intro u hu
    obtain ⟨root, hroot, rfl⟩ := List.mem_map.mp hu
    have hholds : t.Holds ⟨0, root⟩ := (root?_eq_node? t).symm.trans (Option.mem_toList.mp hroot)
    refine ⟨_, rfl, hholds, ?_⟩
    rw [widthSum_concat, show widthSum [] = 0 from rfl, Int.zero_add]
    exact .top hholds h.top
  obtain ⟨hholds, hsum⟩ := h.pathSum_of_mem_outlineFrom hbranches he
  have hbelow := below_of_mem_outlineFrom (fun u hu ↦ (hbranches u hu).imp fun _ ↦ And.left) he
  exact ⟨hholds, hsum, hbelow⟩

/-- Where every sum is a word, the tree commits to its widest way down. -/
theorem Rooted.committedWidth_of_sumsFit (h : t.Rooted) (hsums : t.SumsFit) {root : Node}
    (hroot : t.node? 0 = some root) (hnonneg : 0 ≤ root.bitWidth) (hsized : t.SizedBelow 0)
    {width : Nat} (htotal : IsGreatest t.leafSums (width : Int)) :
    t.committedWidth = .ok width ∧ t.committedWidthInWords.run = some (.ok width) := by
  obtain ⟨i, -, hi⟩ := htotal.1
  have hlt := hsums i _ hi
  have hwithin : t.WithinBudget width :=
    (h.withinBudget_iff (h.widths_nonneg hroot hnonneg hsized) htotal).mpr le_rfl
  have hagrees := agrees_committedWidth h hwithin hlt hroot
  obtain ⟨deepest, hdeepest⟩ := (h.exists_widthBelow_iff (p := ⟨0, root⟩)).mpr hsized
  have hsum := htotal.unique (h.isGreatest_leafSums hsums hroot hnonneg hdeepest).1
  have hwidth := committedWidth_of_root (branch?_of_root hroot) hnonneg hdeepest
    (by dsimp only; omega)
  rw [show root.bitWidth.toNat + deepest = width by omega] at hwidth
  rw [hwidth] at hagrees
  exact ⟨hwidth, hagrees⟩

/-- Where every node but the root has a width, a budget has to allow the widest way down from the
root.  The tree commits to just that as long as all sums are words. -/
theorem Rooted.committedWidth_of_widths (h : t.Rooted)
    (hwidths : ∀ i n, t.node? i = some n → 0 ≤ n.bitWidth ∧ (i ≠ 0 → 0 < n.bitWidth)) :
    ∃ width : Nat, IsGreatest (insert 0 t.leafSums) (width : Int) ∧
      (t.SumsFit → t.committedWidth = .ok width ∧
        t.committedWidthInWords.run = some (.ok width)) ∧
      ∀ allowed : Nat, t.checkBudget allowed false = .ok () ↔ width ≤ allowed := by
  have hnonneg : ∀ i n, t.node? i = some n → 0 ≤ n.bitWidth := fun i n hn ↦ (hwidths i n hn).1
  cases hroot : t.node? 0 with
  | none =>
    have hbranch : t.branch? = none := by rw [branch?, root?_eq_node?, hroot, Option.map_none]
    refine ⟨0, ?_, fun _ ↦ ⟨?_, ?_⟩, fun allowed ↦ iff_of_true ?_ (Nat.zero_le _)⟩
    · rw [leafSums_eq_empty hroot, insert_empty_eq]
      exact isGreatest_singleton
    · rw [committedWidth, hbranch]
    · rw [committedWidthInWords, hbranch]
      rfl
    · rw [checkBudget, hbranch]
      rfl
  | some root =>
    obtain ⟨total, htotal⟩ := h.exists_isGreatest_leafSums (lt_size_iff.mpr ⟨root, hroot⟩)
    obtain ⟨i, -, hi⟩ := htotal.1
    obtain ⟨width, rfl⟩ := Int.eq_ofNat_of_zero_le (hi.nonneg hnonneg)
    refine ⟨width, ?_, fun hsums ↦ ?_, fun allowed ↦ ?_⟩
    · have hgreatest := htotal.insert 0
      rwa [max_eq_right (Int.natCast_nonneg width)] at hgreatest
    · have hsized : t.SizedBelow 0 := fun j n _ hne hn ↦ (hwidths j n hn).2 hne
      exact h.committedWidth_of_sumsFit hsums hroot (hnonneg 0 root hroot) hsized htotal
    · rw [h.checkBudget_eq_ok_iff, h.withinBudget_iff hnonneg htotal, Nat.cast_le]

/-- The check reports the first node in pre-order that is out of budget, and the literals if
there is none.  Where every node but the root has a width, a budget that need not be used up is
kept exactly if it allows the widest way down, which is what the tree commits to as long as all
sums are words. -/
theorem check_in_preorder (rows : List Node) (allowed : Nat) (strict : Bool) :
    let t := build rows
    let entries := outline t.branch?.toList
    (entries.map Entry.value = preorderAll t.branch?.toList ∧ ∀ e ∈ entries, t.Holds e.value ∧
      t.PathSum e.value.place (total e) ∧ e.below = t.children e.value.place) ∧
    (∀ r, Walk t allowed strict (t.root?.toList.map fun _ ↦ (0, 0)) r ↔
      t.check allowed strict = r) ∧
    (∀ err, t.check allowed strict = .error err ↔
      FirstOutOfBudget allowed strict entries err ∨
        AllInBudget allowed strict entries ∧ t.claims = .error err) ∧
    (t.check allowed strict = .ok () ↔
      AllInBudget allowed strict entries ∧ ∃ claims, t.claims = .ok claims) ∧
    ((∀ i n, t.node? i = some n → 0 ≤ n.bitWidth ∧ (i ≠ 0 → 0 < n.bitWidth)) →
      ∃ width : Nat, IsGreatest (insert 0 t.leafSums) (width : Int) ∧
        ((∀ i s, t.PathSum i s → s < 2 ^ 32) → t.committedWidth = .ok width ∧
          t.committedWidthInWords.run = some (.ok width)) ∧
        (t.check allowed false = .ok () ↔ width ≤ allowed ∧ ∃ claims, t.claims = .ok claims)) := by
  intro t entries
  have ht : t.Rooted := build_rooted rows
  refine ⟨⟨map_value_outlineFrom _ _ _ _, fun e he ↦ ht.mem_outline he⟩, fun r ↦ ht.walk_iff,
    fun err ↦ ?_, ?_, fun hwidths ↦ ?_⟩
  · rw [check_eq_error_iff, checkBudget_eq_error_iff, checkBudget_eq_ok_iff_allInBudget]
  · rw [check_eq_ok_iff, checkBudget_eq_ok_iff_allInBudget]
  · obtain ⟨width, hgreatest, hwords, hbudget⟩ := ht.committedWidth_of_widths hwidths
    exact ⟨width, hgreatest, hwords, by rw [check_eq_ok_iff, hbudget]⟩

/-- The node in the south stands behind that in the east in the tree, but in front of it in
pre-order. -/
def threeRegions (south : Int) : List Node :=
  [{ id := 1, name := "root" },
    { id := 2, parentId := 1, name := "west", bitWidth := 4 },
    { id := 3, parentId := 1, name := "east", sequence := 1, bitWidth := 9 },
    { id := 4, parentId := 2, name := "south", bitWidth := south }]

/-- The first of the two that is out of budget is the south, be it for its width or for the bit
that it leaves unused, and only where it has nothing wrong is it the east. -/
theorem check_in_preorder_threeRegions :
    (let t := build (threeRegions (-1))
    FirstOutOfBudget 8 false (outline t.branch?.toList)
        (.malformed (.negativeWidth "south" (-1))) ∧
      Walk t 8 false [(0, 0)] (.error (.malformed (.negativeWidth "south" (-1))))) ∧
    (let t := build (threeRegions 4)
    FirstOutOfBudget 9 true (outline t.branch?.toList) (.malformed (.unevenLeaf "south" 8 9))) ∧
    let t := build (threeRegions 2)
    FirstOutOfBudget 8 false (outline t.branch?.toList) (.capacity (.nodeBits "east" 9 8)) ∧
      t.committedWidth = .ok 9 ∧ t.committedWidthInWords.run = some (.ok 9) ∧
      t.check 9 false = .ok () ∧ t.check 8 false ≠ .ok () := by
  refine ⟨?_, ?_, ?_⟩
  · obtain ⟨-, hwalk, herror, -⟩ := check_in_preorder (threeRegions (-1)) 8 false
    have hcheck : (build (threeRegions (-1))).check 8 false =
        .error (.malformed (.negativeWidth "south" (-1))) := by decide +kernel
    refine ⟨((herror _).mp hcheck).resolve_right fun h ↦ ?_, (hwalk _).mpr hcheck⟩
    cases h.2
  · obtain ⟨-, -, herror, -⟩ := check_in_preorder (threeRegions 4) 9 true
    refine ((herror _).mp (by decide +kernel)).resolve_right fun h ↦ ?_
    cases h.2
  · obtain ⟨-, -, herror, -, hwidths⟩ := check_in_preorder (threeRegions 2) 8 false
    have hfits : (build (threeRegions 2)).checkBudget 9 false = .ok () := by decide +kernel
    have hsized : ∀ i n, (build (threeRegions 2)).node? i = some n →
        0 ≤ n.bitWidth ∧ (i ≠ 0 → 0 < n.bitWidth) := by
      intro i n hn
      have hall : ∀ i < 4, ∀ m ∈ (build (threeRegions 2)).node? i,
          0 ≤ m.bitWidth ∧ (i ≠ 0 → 0 < m.bitWidth) := by decide +kernel
      exact hall i (lt_size_iff.mpr ⟨n, hn⟩) n hn
    obtain ⟨width, -, hwords, hok⟩ := hwidths hsized
    have hwithin := (build_rooted (threeRegions 2)).checkBudget_eq_ok_iff.mp hfits
    have hcommitted : (build (threeRegions 2)).committedWidth = .ok 9 := by decide +kernel
    obtain ⟨hwidth, hwords⟩ := hwords (hwithin.sumsFit (by decide))
    cases hwidth.symm.trans hcommitted
    refine ⟨((herror _).mp (by decide +kernel)).resolve_right fun h ↦ ?_, hwidth, hwords,
      by decide +kernel, fun hcheck ↦ ?_⟩
    · cases h.2
    · exact absurd (hok.mp hcheck).1 (by decide)

end AddressPlan.NodeTree
