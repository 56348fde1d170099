import AddressPlan.Proofs.Report.Forest

/-!
# The outline of a tidy forest

The entries of a tidy forest are its blocks in order.  What encloses an entry are the blocks
around it, from the largest to the smallest; right below it stand those of the blocks in it
that no other block in it surrounds.
-/

namespace AddressPlan

namespace Rose

variable {α : Type}

theorem outlineFrom_cons (label : List Nat) (enclosing : List α) (position : Nat) (a : α)
    (ts rest : List (Rose α)) :
    outlineFrom label enclosing position (.node a ts :: rest) =
      ⟨label ++ [position], enclosing, a, ts.map value⟩ ::
        (outlineFrom (label ++ [position]) (enclosing ++ [a]) 1 ts ++
          outlineFrom label enclosing (position + 1) rest) := rfl

theorem map_value_outlineFrom (ts : List (Rose α)) (label : List Nat) (enclosing : List α)
    (position : Nat) :
    (outlineFrom label enclosing position ts).map Entry.value = preorderAll ts := by
  induction ts using forest_induction generalizing label enclosing position with
  | nil => rfl
  | cons a ts rest ihts ihrest =>
    rw [outlineFrom_cons, List.map_cons, List.map_append, ihts, ihrest, preorderAll_cons]

theorem value_mem_of_mem_outlineFrom {ts : List (Rose α)} {label : List Nat} {enclosing : List α}
    {position : Nat} {e : Entry α} (he : e ∈ outlineFrom label enclosing position ts) :
    e.value ∈ preorderAll ts := by
  rw [← map_value_outlineFrom ts label enclosing position]
  exact List.mem_map.mpr ⟨e, he, rfl⟩

/-- If `rank` tells the positions of the trees, and below every entry the positions of what
stands there, then the label of an entry lists the ranks of what encloses it and its own. -/
theorem label_eq_map_rank (rank : α → Nat) (ts : List (Rose α)) (enclosing : List α)
    (position : Nat)
    (htop : ∀ i a, (ts.map value)[i]? = some a → rank a = position + i)
    (hbelow : ∀ e ∈ outlineFrom (enclosing.map rank) enclosing position ts,
      ∀ i a, e.below[i]? = some a → rank a = i + 1) :
    ∀ e ∈ outlineFrom (enclosing.map rank) enclosing position ts,
      e.label = (e.enclosing ++ [e.value]).map rank := by
  induction ts using forest_induction generalizing enclosing position with
  | nil => exact fun e he ↦ nomatch he
  | cons a ts rest ihts ihrest =>
    have hrank : rank a = position := htop 0 a rfl
    have hlabel : enclosing.map rank ++ [position] = (enclosing ++ [a]).map rank := by
      rw [List.map_append, List.map_singleton, hrank]
    rw [outlineFrom_cons, hlabel] at hbelow ⊢
    simp only [List.forall_mem_cons, List.forall_mem_append] at hbelow ⊢
    obtain ⟨hown, hts, hrest⟩ := hbelow
    refine ⟨trivial, ihts (enclosing ++ [a]) 1 (fun i b hb ↦ ?_) hts,
      ihrest enclosing (position + 1) (fun i b hb ↦ ?_) hrest⟩
    · rw [hown i b hb, Nat.add_comm]
    · rw [htop (i + 1) b hb, Nat.add_right_comm, Nat.add_assoc]

/-- In the outline of the branches of a tree, the children of a place stand right below it. -/
theorem below_of_mem_outlineFrom {t : NodeTree} {ts : List (Rose Placed)}
    (hts : ∀ u ∈ ts, ∃ p, u = t.branch p) {label : List Nat} {enclosing : List Placed}
    {position : Nat} {e : Entry Placed} (he : e ∈ outlineFrom label enclosing position ts) :
    e.below = t.children e.value.place := by
  induction ts using forest_induction generalizing label enclosing position with
  | nil => cases he
  | cons a us rest ihus ihrest =>
    obtain ⟨hfirst, hrest⟩ := List.forall_mem_cons.mp hts
    obtain ⟨p, hp⟩ := hfirst
    rw [NodeTree.branch_eq] at hp
    cases hp
    rw [outlineFrom_cons, List.mem_cons, List.mem_append] at he
    rcases he with rfl | he | he
    · rw [List.map_map]
      refine (List.map_congr_left fun c _ ↦ ?_).trans (List.map_id _)
      rw [Function.comp_apply, NodeTree.branch_eq]
      rfl
    · refine ihus (fun u hu ↦ ?_) he
      obtain ⟨c, -, rfl⟩ := List.mem_map.mp hu
      exact ⟨c, rfl⟩
    · exact ihrest hrest he

end Rose

namespace Report

open NodeTree (Claim)
open Rose Network

variable {c d e w : Claim} {ts rest forest : List (Rose Claim)} {outer : List Claim}

theorem Apart.not_surrounds {a b : Network} (ha : a.Plain) (hb : b.Plain) (h : Apart a b) :
    ¬ Surrounds a b ∧ ¬ Surrounds b a :=
  ⟨fun hs ↦ h.2 hs.2, fun hs ↦ h.not_contains ha hb hs.2⟩

/-- All blocks of a tree stand apart from those behind the tree. -/
theorem Tidy.apart (h : Tidy (.node c ts :: rest))
    (hplain : ∀ d ∈ preorderAll (.node c ts :: rest), d.block.Plain)
    (hw : w ∈ c :: preorderAll ts) (hd : d ∈ preorderAll rest) : Apart w.block d.block := by
  obtain ⟨hbelow, hbehind, -, -⟩ := tidy_cons_iff.mp h
  simp only [preorderAll_cons, List.forall_mem_cons, List.forall_mem_append] at hplain
  obtain ⟨hc, hts, hrest⟩ := hplain
  rcases List.mem_cons.mp hw with rfl | hw
  · exact hbehind d hd
  · exact (hbehind d hd).of_contains_left hc (hrest d hd) (hts w hw) (hbelow w hw).2

theorem Tidy.preorder_pairwise (h : Tidy forest)
    (hplain : ∀ d ∈ preorderAll forest, d.block.Plain) :
    (preorderAll forest).Pairwise fun c d ↦ Precedes c.block d.block := by
  induction forest using forest_induction with
  | nil => exact .nil
  | cons c ts rest ihts ihrest =>
    obtain ⟨hbelow, hbehind, hts, hrest⟩ := tidy_cons_iff.mp h
    have hapart := fun w hw d hd ↦ Tidy.apart h hplain (w := w) hw (d := d) hd
    simp only [preorderAll_cons, List.forall_mem_cons, List.forall_mem_append] at hplain
    obtain ⟨hc, hplaints, hplainrest⟩ := hplain
    rw [preorderAll_cons, List.pairwise_cons, List.pairwise_append]
    refine ⟨fun d hd ↦ ?_, ihts hts hplaints, ihrest hrest hplainrest, fun w hw d hd ↦ ?_⟩
    · rcases List.mem_append.mp hd with hd | hd
      · exact (hbelow d hd).precedes hc (hplaints d hd)
      · exact (hbehind d hd).1
    · exact (hapart w (List.mem_cons_of_mem c hw) d hd).1

/-- Around a tree of a tidy forest nothing surrounds anything else than inside the branches or
inside the rest. -/
theorem Tidy.surrounds (h : Tidy (.node c ts :: rest))
    (hplain : ∀ d ∈ preorderAll (.node c ts :: rest), d.block.Plain) :
    (∀ d ∈ preorderAll ts, Surrounds c.block d.block ∧ ¬ Surrounds d.block c.block) ∧
      ∀ w ∈ c :: preorderAll ts, ∀ d ∈ preorderAll rest,
        ¬ Surrounds w.block d.block ∧ ¬ Surrounds d.block w.block := by
  have hapart := fun w hw d hd ↦ Tidy.apart h hplain (w := w) hw (d := d) hd
  have hbelow := (tidy_cons_iff.mp h).1
  simp only [preorderAll_cons, List.forall_mem_cons, List.forall_mem_append] at hplain
  obtain ⟨hc, hts, hrest⟩ := hplain
  refine ⟨fun d hd ↦ ⟨hbelow d hd, fun hback ↦ ?_⟩, fun w hw d hd ↦ ?_⟩
  · exact ((surrounds_iff hc (hts d hd)).mp (hbelow d hd)).2 hback.2
  · have hplainw : w.block.Plain := by
      rcases List.mem_cons.mp hw with rfl | hw
      · exact hc
      · exact hts w hw
    exact (hapart w hw d hd).not_surrounds hplainw (hrest d hd)

/-- The blocks that enclose an entry are those around it. -/
theorem Tidy.mem_enclosing (h : Tidy forest)
    (hplain : ∀ d ∈ preorderAll forest, d.block.Plain) {label : List Nat} {position : Nat}
    {e : Entry Claim} (he : e ∈ outlineFrom label outer position forest) {w : Claim} :
    w ∈ e.enclosing ↔
      w ∈ outer ∨ w ∈ preorderAll forest ∧ Surrounds w.block e.value.block := by
  induction forest using forest_induction generalizing outer label position with
  | nil => cases he
  | cons c ts rest ihts ihrest =>
    obtain ⟨hbelow, hapart⟩ := h.surrounds hplain
    obtain ⟨-, -, hts, hrest⟩ := tidy_cons_iff.mp h
    simp only [preorderAll_cons, List.forall_mem_cons, List.forall_mem_append] at hplain
    rw [outlineFrom_cons, List.mem_cons, List.mem_append] at he
    have hself := Surrounds.irrefl c.block
    simp only [preorderAll_cons, List.mem_cons, List.mem_append]
    rcases he with rfl | he | he
    · grind
    · have hv := value_mem_of_mem_outlineFrom he
      rw [ihts hts hplain.2.1 he, List.mem_append, List.mem_singleton]
      grind
    · have hv := value_mem_of_mem_outlineFrom he
      rw [ihrest hrest hplain.2.2 he]
      grind

/-- The blocks that enclose an entry surround one another, the largest first. -/
theorem Tidy.enclosing_pairwise (h : Tidy forest) {label : List Nat} {position : Nat}
    (houter : outer.Pairwise fun c d ↦ Surrounds c.block d.block)
    (haround : ∀ w ∈ outer, ∀ d ∈ preorderAll forest, Surrounds w.block d.block)
    {e : Entry Claim} (he : e ∈ outlineFrom label outer position forest) :
    e.enclosing.Pairwise fun c d ↦ Surrounds c.block d.block := by
  induction forest using forest_induction generalizing outer label position with
  | nil => cases he
  | cons c ts rest ihts ihrest =>
    obtain ⟨hbelow, -, hts, hrest⟩ := tidy_cons_iff.mp h
    simp only [preorderAll_cons, List.forall_mem_cons, List.forall_mem_append] at haround
    rw [outlineFrom_cons, List.mem_cons, List.mem_append] at he
    rcases he with rfl | he | he
    · exact houter
    · refine ihts hts ?_ (fun w hw d hd ↦ ?_) he
      · refine List.pairwise_append.mpr ⟨houter, List.pairwise_singleton _ c, fun w hw d hd ↦ ?_⟩
        exact List.mem_singleton.mp hd ▸ (haround w hw).1
      · rcases List.mem_append.mp hw with hw | hw
        · exact (haround w hw).2.1 d hd
        · exact List.mem_singleton.mp hw ▸ hbelow d hd
    · exact ihrest hrest houter (fun w hw d hd ↦ (haround w hw).2.2 d hd) he

/-- Right below an entry stand the trees of a tidy forest of the blocks in it. -/
theorem Tidy.exists_branches (h : Tidy forest)
    (hplain : ∀ d ∈ preorderAll forest, d.block.Plain) {label : List Nat} {position : Nat}
    {e : Entry Claim} (he : e ∈ outlineFrom label outer position forest) :
    ∃ ts, Tidy ts ∧ e.below = ts.map Rose.value ∧ ∀ d, d ∈ preorderAll ts ↔
      d ∈ preorderAll forest ∧ Surrounds e.value.block d.block := by
  induction forest using forest_induction generalizing outer label position with
  | nil => cases he
  | cons c ts rest ihts ihrest =>
    obtain ⟨hbelow, hapart⟩ := h.surrounds hplain
    obtain ⟨-, -, hts, hrest⟩ := tidy_cons_iff.mp h
    simp only [preorderAll_cons, List.forall_mem_cons, List.forall_mem_append] at hplain
    rw [outlineFrom_cons, List.mem_cons, List.mem_append] at he
    have hself := Surrounds.irrefl c.block
    simp only [preorderAll_cons, List.mem_cons, List.mem_append]
    rcases he with rfl | he | he
    · refine ⟨ts, hts, rfl, fun d ↦ ?_⟩
      grind
    · have hv := value_mem_of_mem_outlineFrom he
      obtain ⟨us, hus, heq, hmem⟩ := ihts hts hplain.2.1 he
      refine ⟨us, hus, heq, fun d ↦ ?_⟩
      rw [hmem]
      grind
    · have hv := value_mem_of_mem_outlineFrom he
      obtain ⟨us, hus, heq, hmem⟩ := ihrest hrest hplain.2.2 he
      refine ⟨us, hus, heq, fun d ↦ ?_⟩
      rw [hmem]
      grind

/-- The trees of a tidy forest show the blocks that no other one surrounds. -/
theorem Tidy.mem_map_value (h : Tidy forest)
    (hplain : ∀ d ∈ preorderAll forest, d.block.Plain) :
    d ∈ forest.map Rose.value ↔
      d ∈ preorderAll forest ∧ ∀ w ∈ preorderAll forest, ¬ Surrounds w.block d.block := by
  induction forest using forest_induction with
  | nil => simp
  | cons c ts rest ihts ihrest =>
    obtain ⟨hbelow, hapart⟩ := h.surrounds hplain
    obtain ⟨-, -, hts, hrest⟩ := tidy_cons_iff.mp h
    simp only [preorderAll_cons, List.forall_mem_cons, List.forall_mem_append] at hplain
    have hself := Surrounds.irrefl c.block
    have htop := ihrest hrest hplain.2.2
    simp only [List.map_cons, List.mem_cons, preorderAll_cons, List.mem_append, value_node, htop]
    grind

end Report

end AddressPlan
