import AddressPlan.NodeTree.Fill
import AddressPlan.NodeTree.Literals
import AddressPlan.Proofs.NodeTree.Tops
import AddressPlan.Proofs.Pairs

/-!
# Trees that are checked and numbered alike

Checks and numbering look at the shape of a tree and at the names, widths and literal blocks of
its nodes, and at nothing else.  Trees that agree in these are refused for the same faults and
are given the same blocks.
-/

namespace AddressPlan

open List Relator

/-- The nodes agree in what is checked and numbered. -/
structure Node.Alike (n n' : Node) : Prop where
  name_eq : n'.name = n.name
  bitWidth_eq : n'.bitWidth = n.bitWidth
  literals_eq : n'.literals = n.literals

structure Placed.Alike (p p' : Placed) : Prop where
  place : p'.place = p.place
  node : p.node.Alike p'.node

inductive Rose.Matches {α β : Type} (R : α → β → Prop) : Rose α → Rose β → Prop where
  | node {a : α} {b : β} {ts : List (Rose α)} {us : List (Rose β)} (value : R a b)
    (branches : Forall₂ (Rose.Matches R) ts us) : Rose.Matches R (.node a ts) (.node b us)

/-- The trees have one shape, and their nodes are related place by place. -/
def NodeTree.Related (N : Node → Node → Prop) (t t' : NodeTree) : Prop :=
  Forall₂ (fun s s' : Slot ↦ N s.node s'.node ∧ s'.parent = s.parent) t.slots t'.slots

theorem Node.Alike.symm {n n' : Node} (h : n.Alike n') : n'.Alike n :=
  ⟨h.name_eq.symm, h.bitWidth_eq.symm, h.literals_eq.symm⟩

theorem Node.Alike.trans {n n' n'' : Node} (h : n.Alike n') (h' : n'.Alike n'') : n.Alike n'' :=
  ⟨h'.name_eq.trans h.name_eq, h'.bitWidth_eq.trans h.bitWidth_eq,
    h'.literals_eq.trans h.literals_eq⟩

theorem Node.Alike.segmentWidth_eq {n n' : Node} (h : n.Alike n') :
    n'.segmentWidth = n.segmentWidth :=
  congrArg (Word.wrap 8) h.bitWidth_eq

theorem Node.Alike.blockTexts_eq {n n' : Node} (h : n.Alike n') : n'.blockTexts = n.blockTexts := by
  unfold Node.blockTexts
  rw [h.literals_eq]

namespace NodeTree

variable {N N' : Node → Node → Prop} {R : Placed → Placed → Prop} {t t' t'' : NodeTree}

namespace Related

theorem mono (h : t.Related N t') (hle : ∀ n n', N n n' → N' n n') : t.Related N' t' :=
  h.imp fun _ _ hs ↦ ⟨hle _ _ hs.1, hs.2⟩

theorem refl (hN : ∀ n, N n n) (t : NodeTree) : t.Related N t :=
  forall₂_same.mpr fun s _ ↦ ⟨hN s.node, rfl⟩

theorem size_eq (h : t.Related N t') : t'.size = t.size := h.length_eq.symm

theorem eq_empty (h : t.Related N t') (ht : t = {}) : t' = {} := by
  subst ht
  rcases t' with ⟨slots⟩
  cases h
  rfl

theorem isEmpty_eq (h : t.Related N t') : t'.isEmpty = t.isEmpty := isEmpty_eq_of_forall₂ h

theorem parents_eq (h : t.Related N t') :
    t'.slots.map Slot.parent = t.slots.map Slot.parent := by
  have hparents := rel_map (P := Eq) (fun _ _ hs ↦ hs.2.symm) h
  exact (forall₂_eq_eq_eq ▸ hparents).symm

theorem node? (h : t.Related N t') (i : Nat) : Option.Rel N (t.node? i) (t'.node? i) :=
  optionRel_map (fun _ _ hs ↦ hs.1) (forall₂_getElem? h i)

theorem root? (h : t.Related N t') : Option.Rel N t.root? t'.root? := by
  rw [root?_eq_node?, root?_eq_node?]
  exact h.node? 0

theorem update (h : t.Related N t') (i : Nat) {f f' : Node → Node}
    (hf : ∀ n n', N n n' → N (f n) (f' n')) : (t.update i f).Related N (t'.update i f') :=
  forall₂_modify (fun _ _ hs ↦ ⟨hf _ _ hs.1, hs.2⟩) h i

/-- Trees are related if they have one shape and related nodes at every place. -/
theorem of_places (hparent : ∀ i, t'.parent? i = t.parent? i)
    (hnode : ∀ i, Option.Rel N (t.node? i) (t'.node? i)) : t.Related N t' := by
  refine forall₂_of_getElem? fun i ↦ ?_
  have hp : t'.slots[i]?.bind Slot.parent = t.slots[i]?.bind Slot.parent := hparent i
  have hn : Option.Rel N (t.slots[i]?.map Slot.node) (t'.slots[i]?.map Slot.node) := hnode i
  generalize t.slots[i]? = s at hp hn ⊢
  generalize t'.slots[i]? = s' at hp hn ⊢
  rcases s with _ | s <;> rcases s' with _ | s'
  · exact .none
  · cases hn
  · cases hn
  · cases hn with
    | some hn => exact .some ⟨hn, hp⟩

theorem trans (h : t.Related N t') (h' : t'.Related N' t'')
    (hN : ∀ n n' n'', N n n' → N' n' n'' → N n n'') : t.Related N t'' :=
  of_places (fun i ↦ (parent?_congr h'.parents_eq i).trans (parent?_congr h.parents_eq i))
    fun i ↦ optionRel_comp hN (h.node? i) (h'.node? i)

theorem symm (h : t.Related N t') (hN : ∀ n n', N n n' → N' n' n) : t'.Related N' t :=
  h.flip.imp fun _ _ hs ↦ ⟨hN _ _ hs.1, hs.2.symm⟩

/-- A place of the second tree may be written if its node stays related. -/
theorem update_right (h : t.Related N t') {i : Nat} {f : Node → Node}
    (hf : ∀ n n', t'.node? i = some n' → N n n' → N n (f n')) : t.Related N (t'.update i f) := by
  refine of_places (fun j ↦ ?_) fun j ↦ ?_
  · rw [parent?_update, parent?_congr h.parents_eq]
  · have hn := h.node? j
    rw [node?_update]
    split
    · rename_i hij
      rw [← hij] at hn ⊢
      generalize t.node? i = m at hn ⊢
      cases hfound : t'.node? i with
      | none => rwa [hfound] at hn
      | some n' =>
        rw [hfound] at hn
        cases hn with
        | some hnn => exact .some (hf _ n' hfound hnn)
    · exact hn

end Related

/-! ## Branches -/

section Branches

variable (hplace : ∀ p p', R p p' → p'.place = p.place)
  (hnode : ∀ i n n', N n n' → R ⟨i, n⟩ ⟨i, n'⟩)

include hnode

theorem children_related (h : t.Related N t') (i : Nat) :
    Forall₂ R (t.children i) (t'.children i) := by
  refine rel_filterMap (fun ⟨s, j⟩ ⟨s', j'⟩ ⟨hs, hj⟩ ↦ ?_) (forall₂_zipIdx h 0)
  dsimp only at hs hj ⊢
  rw [hs.2, hj]
  split
  · exact .some (hnode _ _ _ hs.1)
  · exact .none

include hplace

theorem branch_related (h : t.Related N t') {p p' : Placed} (hp : R p p') :
    (t.branch p).Matches R (t'.branch p') := by
  induction p using branch_induction t generalizing p' with
  | h p ih =>
    have hchildren := children_related hnode h p.place
    rw [branch_eq, branch_eq, hplace p p' hp]
    refine .node hp (forall₂_map_left_iff.mpr (forall₂_map_right_iff.mpr ?_))
    refine ((forall₂_and_left _ _).mpr ⟨fun c hc ↦ hc, hchildren⟩).imp fun c c' hc ↦ ?_
    exact ih c hc.1 hc.2

theorem branch?_related (h : t.Related N t') :
    Option.Rel (Rose.Matches R) t.branch? t'.branch? := by
  have hbranch : ∀ n n' : Node, N n n' →
      (t.branch ⟨0, n⟩).Matches R (t'.branch ⟨0, n'⟩) :=
    fun _ _ hn ↦ branch_related hplace hnode h (hnode 0 _ _ hn)
  exact optionRel_map hbranch h.root?

end Branches

theorem branch?_alike (h : t.Related Node.Alike t') :
    Option.Rel (Rose.Matches Placed.Alike) t.branch? t'.branch? :=
  branch?_related (fun _ _ hp ↦ hp.place) (fun _ _ _ hn ↦ ⟨rfl, hn⟩) h

/-! ## Widths and blocks -/

mutual
theorem widthOf_eq_of_alike : ∀ {b b' : Rose Placed}, b.Matches Placed.Alike b' →
    widthOf b' = widthOf b
  | .node p ts, .node p' ts', .node hp hts => by
    rw [widthOf, widthOf, hp.node.bitWidth_eq, hp.node.name_eq, widthBelow_eq_of_alike hts]

theorem widthBelow_eq_of_alike : ∀ {ts ts' : List (Rose Placed)},
    Forall₂ (Rose.Matches Placed.Alike) ts ts' → widthBelow ts' = widthBelow ts
  | [], [], .nil => rfl
  | t :: ts, t' :: ts', .cons ht hts => by
    rw [widthBelow, widthBelow, widthOf_eq_of_alike ht, widthBelow_eq_of_alike hts]
end

mutual
theorem checkBranch_eq_of_alike (allowed : Int) (strict : Bool) : ∀ (above : Int)
    {b b' : Rose Placed}, b.Matches Placed.Alike b' →
    checkBranch allowed strict above b' = checkBranch allowed strict above b
  | above, .node p ts, .node p' ts', .node hp hts => by
    have hempty := isEmpty_eq_of_forall₂ hts
    have hfault : ∀ total leaf, widthFault? p'.node total allowed leaf =
        widthFault? p.node total allowed leaf := by
      intro total leaf
      unfold widthFault?
      rw [hp.node.bitWidth_eq, hp.node.name_eq]
    rw [checkBranch, checkBranch, hp.node.bitWidth_eq, hempty, hfault,
      checkSiblings_eq_of_alike allowed strict _ hts]

theorem checkSiblings_eq_of_alike (allowed : Int) (strict : Bool) : ∀ (above : Int)
    {ts ts' : List (Rose Placed)}, Forall₂ (Rose.Matches Placed.Alike) ts ts' →
    checkSiblings allowed strict above ts' = checkSiblings allowed strict above ts
  | _, [], [], .nil => rfl
  | above, t :: ts, t' :: ts', .cons ht hts => by
    rw [checkSiblings, checkSiblings, checkBranch_eq_of_alike allowed strict above ht,
      checkSiblings_eq_of_alike allowed strict above hts]
end

mutual
theorem allocateBranch_eq_of_alike : ∀ (window : BitWindow) {parent parent' : Node}
    (siblings position : Nat) {b b' : Rose Placed}, parent.Alike parent' →
    b.Matches Placed.Alike b' →
    allocateBranch window parent' siblings position b' =
      allocateBranch window parent siblings position b
  | window, parent, parent', siblings, position, .node p ts, .node p' ts', hparent,
      .node hp hts => by
    have hchild : allocateChild window parent' siblings position p' =
        allocateChild window parent siblings position p := by
      rw [allocateChild, allocateChild, hp.node.segmentWidth_eq, hp.place, hparent.name_eq]
    rw [allocateBranch, allocateBranch, hchild, ← hts.length_eq]
    split
    · rfl
    · rw [allocateFrom_eq_of_alike _ _ _ hp.node hts]

theorem allocateFrom_eq_of_alike : ∀ (window : BitWindow) {parent parent' : Node}
    (siblings position : Nat) {ts ts' : List (Rose Placed)}, parent.Alike parent' →
    Forall₂ (Rose.Matches Placed.Alike) ts ts' →
    allocateFrom window parent' siblings position ts' =
      allocateFrom window parent siblings position ts
  | _, _, _, _, _, [], [], _, .nil => rfl
  | window, parent, parent', siblings, position, t :: ts, t' :: ts', hparent,
      .cons ht hts => by
    rw [allocateFrom, allocateFrom,
      allocateBranch_eq_of_alike window siblings position hparent ht,
      allocateFrom_eq_of_alike window siblings (position + 1) hparent hts]
end

theorem committedWidth_eq_of_alike (h : t.Related Node.Alike t') :
    t'.committedWidth = t.committedWidth := by
  have hbranch := branch?_alike h
  unfold committedWidth
  generalize t.branch? = b at hbranch ⊢
  generalize t'.branch? = b' at hbranch ⊢
  rcases hbranch with ⟨⟨hp, hts⟩⟩ | _
  · dsimp only
    rw [hp.node.bitWidth_eq, hp.node.name_eq, widthBelow_eq_of_alike hts]
  · rfl

theorem checkBudget_eq_of_alike (h : t.Related Node.Alike t') (allowed : Int) (strict : Bool) :
    t'.checkBudget allowed strict = t.checkBudget allowed strict := by
  have hbranch := branch?_alike h
  unfold checkBudget
  generalize t.branch? = b at hbranch ⊢
  generalize t'.branch? = b' at hbranch ⊢
  cases hbranch with
  | none => rfl
  | some hb => exact checkSiblings_eq_of_alike allowed strict 0 (.cons hb .nil)

/-- Trees that are alike are given the same blocks, up to the same refusal. -/
theorem allocations_eq_of_alike (h : t.Related Node.Alike t') (base : Network)
    (maskLength : Nat) : t'.allocations base maskLength = t.allocations base maskLength := by
  have hbranch := branch?_alike h
  have hwidth := committedWidth_eq_of_alike h
  unfold allocations
  generalize t.branch? = b at hbranch ⊢
  generalize t'.branch? = b' at hbranch ⊢
  rcases hbranch with ⟨⟨hp, hts⟩⟩ | _
  · rename_i root root' _ _
    have hwindow : t'.rootWindow root'.node base maskLength =
        t.rootWindow root.node base maskLength := by
      rw [rootWindow, rootWindow, hwidth, hp.node.segmentWidth_eq]
    dsimp only
    rw [hwindow, ← hts.length_eq]
    simp only [allocateFrom_eq_of_alike _ _ _ hp.node hts]
  · rfl

/-! ## Numbering -/

/-- Numbering writes the same blocks and numbers into whatever tree it is given. -/
theorem exists_assignAll (results : List (Except PlanError Allocation)) :
    ∃ r, ∃ as : List Allocation, ∀ t, assignAll results t = (r, as.foldl assign t) := by
  induction results with
  | nil => exact ⟨.ok (), [], fun _ ↦ rfl⟩
  | cons result rest ih =>
    cases result with
    | error e => exact ⟨.error e, [], fun _ ↦ rfl⟩
    | ok a =>
      obtain ⟨r, as, h⟩ := ih
      exact ⟨r, a :: as, fun t ↦ h (t.assign a)⟩

theorem fill_fst_eq_of_alike (h : t.Related Node.Alike t') (base : Network) (maskLength : Nat) :
    (t'.fill base maskLength).1 = (t.fill base maskLength).1 := by
  obtain ⟨r, as, hassign⟩ := exists_assignAll (t.allocations base maskLength)
  rw [fill, fill, allocations_eq_of_alike h, hassign, hassign]

/-- A relation of nodes that does not look at blocks and numbers is kept by numbering. -/
theorem fill_related (halike : ∀ n n', N n n' → n.Alike n')
    (hassign : ∀ n n' cidr (number : Option Int), N n n' →
      N { n with cidr, value := number.getD n.value }
        { n' with cidr, value := number.getD n'.value })
    (h : t.Related N t') (base : Network) (maskLength : Nat) :
    (t.fill base maskLength).2.Related N (t'.fill base maskLength).2 := by
  obtain ⟨r, as, hfold⟩ := exists_assignAll (t.allocations base maskLength)
  rw [fill, fill, allocations_eq_of_alike (h.mono halike), hfold, hfold]
  clear hfold
  induction as generalizing t t' with
  | nil => exact h
  | cons a as ih => exact ih (h.update a.place fun n n' hn ↦ hassign n n' _ _ hn)

/-! A later assignment of a place overwrites an earlier one. -/

theorem assign_assign (t : NodeTree) (a : Allocation) : (t.assign a).assign a = t.assign a := by
  refine eq_of_places (fun i ↦ ?_) fun i ↦ by simp [assign]
  simp only [assign, node?_update]
  split
  · cases t.node? i with
    | none => rfl
    | some n => cases a.number <;> rfl
  · rfl

theorem assign_assign_assign (t : NodeTree) (a b : Allocation) :
    ((t.assign a).assign b).assign a = (t.assign b).assign a := by
  refine eq_of_places (fun i ↦ ?_) fun i ↦ by simp [assign]
  simp only [assign, node?_update]
  cases t.node? i with
  | none => simp
  | some n =>
    by_cases ha : a.place = i
    · by_cases hb : b.place = i <;> cases hnumber : a.number <;> simp [ha, hb]
    · simp [ha]

theorem foldl_assign_assign {a : Allocation} {as : List Allocation} (ha : a ∈ as) (t : NodeTree) :
    as.foldl assign (t.assign a) = as.foldl assign t := by
  induction as generalizing t with
  | nil => cases ha
  | cons b as ih =>
    rw [foldl_cons, foldl_cons]
    rcases mem_cons.mp ha with rfl | ha
    · rw [assign_assign]
    · rw [← ih ha, assign_assign_assign, ih ha]

theorem foldl_assign_foldl_assign {as bs : List Allocation} (h : bs ⊆ as) (t : NodeTree) :
    as.foldl assign (bs.foldl assign t) = as.foldl assign t := by
  induction bs generalizing t with
  | nil => rfl
  | cons b bs ih =>
    rw [foldl_cons, ih fun x hx ↦ h (mem_cons_of_mem b hx),
      foldl_assign_assign (h mem_cons_self)]

theorem alike_foldl_assign (as : List Allocation) (h : t.Related Node.Alike t') :
    t.Related Node.Alike (as.foldl assign t') := by
  induction as generalizing t' with
  | nil => exact h
  | cons a as ih =>
    exact ih (h.update_right fun _ _ _ hn ↦ ⟨hn.name_eq, hn.bitWidth_eq, hn.literals_eq⟩)

theorem alike_fill (t : NodeTree) (base : Network) (maskLength : Nat) :
    t.Related Node.Alike (t.fill base maskLength).2 := by
  obtain ⟨r, as, hassign⟩ := exists_assignAll (t.allocations base maskLength)
  rw [fill, hassign]
  exact alike_foldl_assign as (.refl (fun _ ↦ ⟨rfl, rfl, rfl⟩) t)

/-- A tree that is numbered again, carried out or refused, is left as it is. -/
theorem fill_fill (t : NodeTree) (base : Network) (maskLength : Nat) :
    (t.fill base maskLength).2.fill base maskLength = t.fill base maskLength := by
  have hsame := allocations_eq_of_alike (alike_fill t base maskLength) base maskLength
  obtain ⟨r, as, hassign⟩ := exists_assignAll (t.allocations base maskLength)
  rw [fill, hsame, fill, hassign, hassign, foldl_assign_foldl_assign (List.Subset.refl as)]

/-! ## Literal blocks -/

/-- The claims are of the same blocks, by nodes that are alike. -/
def ClaimsAlike : List Claim → List Claim → Prop :=
  Forall₂ fun c c' ↦ c.owner.Alike c'.owner ∧ c'.block = c.block

theorem claim_alike {claims claims' : List Claim} {owner owner' : Placed} (text : String)
    (hclaims : ClaimsAlike claims claims') (howner : owner.Alike owner') :
    SameOutcome ClaimsAlike (claim claims owner text) (claim claims' owner' text) := by
  unfold claim
  cases Network.parseBlock text with
  | error e =>
    have hblame : blame owner'.node e = blame owner.node e := by
      unfold blame
      rw [howner.node.name_eq]
    dsimp only
    rw [hblame]
    exact .error _
  | ok block =>
    have hfirst := forall₂_find? (p := (·.block == block)) (q := (·.block == block))
      (fun _ _ hc ↦ by rw [hc.2]) hclaims
    dsimp only
    generalize claims.find? (·.block == block) = first at hfirst ⊢
    generalize claims'.find? (·.block == block) = first' at hfirst ⊢
    cases hfirst with
    | none => exact .ok (rel_append hclaims (.cons ⟨howner, rfl⟩ .nil))
    | some hc =>
      dsimp only
      rw [hc.1.node.name_eq, howner.node.name_eq]
      exact .error _

theorem writtenBlocks_alike (h : t.Related Node.Alike t') :
    Forall₂ (fun x x' ↦ x.1.Alike x'.1 ∧ x'.2 = x.2) t.writtenBlocks t'.writtenBlocks := by
  have hplaced : Forall₂ Placed.Alike t.placed t'.placed :=
    rel_map (fun ⟨s, i⟩ ⟨s', i'⟩ ⟨hs, hi⟩ ↦ ⟨hi, hs.1⟩) (forall₂_zipIdx h 0)
  refine rel_flatMap hplaced fun p p' hp ↦ ?_
  rw [hp.node.blockTexts_eq]
  exact rel_map (fun text text' (htext : text = text') ↦ ⟨hp, htext.symm⟩)
    (forall₂_same.mpr fun _ _ ↦ rfl)

theorem claims_alike (h : t.Related Node.Alike t') :
    SameOutcome ClaimsAlike t.claims t'.claims := by
  refine SameOutcome.foldlM (fun claims claims' ⟨owner, text⟩ ⟨owner', text'⟩ hclaims hx ↦ ?_)
    (writtenBlocks_alike h) .nil
  obtain rfl : text' = text := hx.2
  exact claim_alike text' hclaims hx.1

/-- Trees that are alike pass the same checks and are refused for the same faults. -/
theorem check_eq_of_alike (h : t.Related Node.Alike t') (allowed : Int) (strict : Bool) :
    t'.check allowed strict = t.check allowed strict := by
  have hclaims := claims_alike h
  unfold check
  rw [checkBudget_eq_of_alike h]
  generalize t.claims = claims at hclaims ⊢
  generalize t'.claims = claims' at hclaims ⊢
  cases hclaims <;> rfl

end NodeTree

end AddressPlan
