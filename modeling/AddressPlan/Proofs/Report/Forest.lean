import AddressPlan.Proofs.NodeTree.Preorder
import AddressPlan.Proofs.Report.Nesting
import Mathlib.Data.List.Flatten
import Mathlib.Data.List.TakeWhile

/-!
# Planting keeps a forest tidy

In a tidy forest a block surrounds all blocks below it, and siblings with all that is below
them stand apart in order.  A block finds its place by going down into the sibling that
surrounds it and, once there is none, by adopting the siblings that it contains.  What comes
out is tidy again and has the new block besides those from before.
-/

namespace AddressPlan

namespace Rose

variable {α : Type}

mutual
/-- What holds of no trees, and of a tree with others behind it as soon as it holds of its
branches and of the others, holds of every forest. -/
theorem forest_induction {P : List (Rose α) → Prop} (nil : P [])
    (cons : ∀ a ts rest, P ts → P rest → P (.node a ts :: rest)) : ∀ ts, P ts
  | [] => nil
  | t :: ts => tree_induction nil cons t ts (forest_induction nil cons ts)

theorem tree_induction {P : List (Rose α) → Prop} (nil : P [])
    (cons : ∀ a ts rest, P ts → P rest → P (.node a ts :: rest)) :
    ∀ t rest, P rest → P (t :: rest)
  | .node a ts, rest, hrest => cons a ts rest (forest_induction nil cons ts) hrest
end

@[simp] theorem preorderAll_nil : preorderAll ([] : List (Rose α)) = [] := rfl

@[simp] theorem preorderAll_cons (a : α) (ts rest : List (Rose α)) :
    preorderAll (.node a ts :: rest) = a :: (preorderAll ts ++ preorderAll rest) := rfl

@[simp] theorem preorderAll_append (ts us : List (Rose α)) :
    preorderAll (ts ++ us) = preorderAll ts ++ preorderAll us := by
  simp only [preorderAll_eq_flatMap, List.flatMap_append]

theorem mem_preorderAll {ts : List (Rose α)} {a : α} :
    a ∈ preorderAll ts ↔ ∃ t ∈ ts, a ∈ t.preorder := by
  rw [preorderAll_eq_flatMap, List.mem_flatMap]

theorem value_mem_preorder (t : Rose α) : t.value ∈ t.preorder := by
  cases t with
  | node a ts => exact List.mem_cons_self

theorem preorderAll_sublist {ts us : List (Rose α)} (h : ts.Sublist us) :
    (preorderAll ts).Sublist (preorderAll us) := by
  rw [preorderAll_eq_flatMap, preorderAll_eq_flatMap]
  exact h.flatMap _

theorem preorderAll_perm {ts us : List (Rose α)} (h : ts.Perm us) :
    (preorderAll ts).Perm (preorderAll us) := by
  rw [preorderAll_eq_flatMap, preorderAll_eq_flatMap]
  exact h.flatMap_right _

end Rose

namespace Report

open NodeTree (Claim)
open Rose Network

/-- Every block surrounds what is below it and stands apart from what is behind it. -/
inductive Tidy : List (Rose Claim) → Prop where
  | nil : Tidy []
  | cons {c : Claim} {ts rest : List (Rose Claim)}
    (below : ∀ d ∈ preorderAll ts, Surrounds c.block d.block)
    (behind : ∀ d ∈ preorderAll rest, Apart c.block d.block)
    (branches : Tidy ts) (others : Tidy rest) : Tidy (.node c ts :: rest)

variable {c d : Claim} {ts us rest forest forest' : List (Rose Claim)} {t : Rose Claim}

theorem tidy_cons_iff :
    Tidy (.node c ts :: rest) ↔
      (∀ d ∈ preorderAll ts, Surrounds c.block d.block) ∧
        (∀ d ∈ preorderAll rest, Apart c.block d.block) ∧ Tidy ts ∧ Tidy rest := by
  constructor
  · rintro ⟨⟩
    exact ⟨‹_›, ‹_›, ‹_›, ‹_›⟩
  · rintro ⟨hbelow, hbehind, hts, hrest⟩
    exact .cons hbelow hbehind hts hrest

theorem Tidy.sublist (h : Tidy us) (hsub : ts.Sublist us) : Tidy ts := by
  induction hsub with
  | slnil => exact .nil
  | cons t _ ih =>
    obtain ⟨c, cs⟩ := t
    exact ih (tidy_cons_iff.mp h).2.2.2
  | cons_cons t hsub ih =>
    obtain ⟨c, cs⟩ := t
    obtain ⟨hbelow, hbehind, hcs, hrest⟩ := tidy_cons_iff.mp h
    exact .cons hbelow (fun d hd ↦ hbehind d ((preorderAll_sublist hsub).subset hd)) hcs (ih hrest)

theorem tidy_append_iff :
    Tidy (ts ++ us) ↔
      Tidy ts ∧ Tidy us ∧ ∀ t ∈ ts, ∀ d ∈ preorderAll us, Apart t.value.block d.block := by
  induction ts with
  | nil => simp [Tidy.nil]
  | cons t ts ih =>
    obtain ⟨c, cs⟩ := t
    simp only [List.cons_append, tidy_cons_iff, ih, preorderAll_append, List.mem_append,
      List.forall_mem_cons, value_node]
    constructor
    · rintro ⟨hbelow, hbehind, hcs, hts, hus, hapart⟩
      exact ⟨⟨hbelow, fun d hd ↦ hbehind d (Or.inl hd), hcs, hts⟩, hus,
        fun d hd ↦ hbehind d (Or.inr hd), hapart⟩
    · rintro ⟨⟨hbelow, hbehind, hcs, hts⟩, hus, hfirst, hapart⟩
      exact ⟨hbelow, fun d hd ↦ hd.elim (hbehind d) (hfirst d), hcs, hts, hus, hapart⟩

/-! ## Settling among siblings -/

theorem not_of_mem_dropWhile {α : Type} {R : α → α → Prop} {p : α → Bool} {as : List α} {a : α}
    (hsorted : as.Pairwise R) (hdown : ∀ a b, R a b → p b = true → p a = true)
    (ha : a ∈ as.dropWhile p) : p a = false := by
  induction as with
  | nil => cases ha
  | cons b as ih =>
    rw [List.pairwise_cons] at hsorted
    rw [List.dropWhile_cons] at ha
    split at ha
    · exact ih hsorted.2 ha
    · rename_i hb
      rcases List.mem_cons.mp ha with rfl | ha
      · simpa using hb
      · by_contra hpa
        exact hb (hdown b a (hsorted.1 a ha) (by simpa using hpa))

/-- A block adopts the siblings in it and comes between those of the others that precede it
and the rest. -/
structure Settled (c : Claim) (siblings adopted front back : List (Rose Claim)) : Prop where
  perm : (adopted ++ (front ++ back)).Perm siblings
  adopted_sublist : adopted.Sublist siblings
  kept_sublist : (front ++ back).Sublist siblings
  adopted_contained : ∀ t ∈ adopted, c.block.Contains t.value.block
  kept_outside : ∀ t ∈ front ++ back, ¬ c.block.Contains t.value.block
  front_precedes : ∀ t ∈ front, Precedes t.value.block c.block
  back_not_precedes : (siblings.Pairwise fun t u ↦ Precedes t.value.block u.value.block) →
    ∀ t ∈ back, ¬ Precedes t.value.block c.block

theorem exists_settled (c : Claim) (siblings : List (Rose Claim)) :
    ∃ adopted front back, settle c siblings = front ++ .node c adopted :: back ∧
      Settled c siblings adopted front back := by
  refine ⟨_, _, _, rfl, ?_, ?_, ?_, ?_, ?_, ?_, ?_⟩
  · rw [List.takeWhile_append_dropWhile]
    simpa using
      List.filter_append_perm (fun t : Rose Claim ↦ c.block.Contains t.value.block) siblings
  · exact List.filter_sublist
  · rw [List.takeWhile_append_dropWhile]
    exact List.filter_sublist
  · intro t ht
    simpa using (List.mem_filter.mp ht).2
  · rw [List.takeWhile_append_dropWhile]
    intro t ht
    simpa using (List.mem_filter.mp ht).2
  · intro t ht
    simpa using List.mem_takeWhile_imp ht
  · intro hsorted t ht
    have hnot := not_of_mem_dropWhile (hsorted.sublist List.filter_sublist)
      (fun t u htu hu ↦ by simpa using htu.trans (by simpa using hu)) ht
    simpa using hnot

theorem settle_perm (c : Claim) (siblings : List (Rose Claim)) :
    (preorderAll (settle c siblings)).Perm (c :: preorderAll siblings) := by
  obtain ⟨adopted, front, back, hsettle, h⟩ := exists_settled c siblings
  calc
    preorderAll (settle c siblings)
      = preorderAll front ++ c :: (preorderAll adopted ++ preorderAll back) := by
        rw [hsettle, preorderAll_append, preorderAll_cons]
    List.Perm _ (c :: (preorderAll adopted ++ (preorderAll front ++ preorderAll back))) := by
        refine List.perm_middle.trans (.cons c ?_)
        rw [← List.append_assoc, ← List.append_assoc]
        exact List.perm_append_comm.append_right _
    List.Perm _ (c :: preorderAll siblings) := by
        rw [← preorderAll_append, ← preorderAll_append]
        exact .cons c (preorderAll_perm h.perm)

/-- The blocks of a forest are plain, and so is a block that is not among them. -/
structure Plantable (c : Claim) (forest : List (Rose Claim)) : Prop where
  plain : c.block.Plain
  others : ∀ d ∈ preorderAll forest, d.block.Plain ∧ d.block ≠ c.block

theorem value_mem_preorderAll (ht : t ∈ ts) : t.value ∈ preorderAll ts :=
  mem_preorderAll.mpr ⟨t, ht, value_mem_preorder t⟩

/-- Every block of a tidy forest lies in the block of the tree that shows it. -/
theorem Tidy.contains (h : Tidy ts) (ht : t ∈ ts) (hd : d ∈ t.preorder) :
    t.value.block.Contains d.block := by
  obtain ⟨c, cs⟩ := t
  rcases List.mem_cons.mp hd with rfl | hd
  · exact Contains.refl _
  · have htree := h.sublist (List.singleton_sublist.mpr ht)
    exact ((tidy_cons_iff.mp htree).1 d hd).2

theorem Tidy.pairwise (h : Tidy ts) :
    ts.Pairwise fun t u ↦ Precedes t.value.block u.value.block := by
  induction ts with
  | nil => exact .nil
  | cons t ts ih =>
    obtain ⟨c, cs⟩ := t
    obtain ⟨-, hbehind, -, hts⟩ := tidy_cons_iff.mp h
    exact .cons (fun u hu ↦ (hbehind u.value (value_mem_preorderAll hu)).1) (ih hts)

theorem settle_tidy (hc : Plantable c ts) (h : Tidy ts)
    (hnone : ∀ t ∈ ts, ¬ Surrounds t.value.block c.block) : Tidy (settle c ts) := by
  obtain ⟨adopted, front, back, hsettle, hs⟩ := exists_settled c ts
  obtain ⟨hfront, hback, hapart⟩ := tidy_append_iff.mp (h.sublist hs.kept_sublist)
  have hplain : ∀ d ∈ preorderAll ts, d.block.Plain := fun d hd ↦ (hc.others d hd).1
  have htop : ∀ t ∈ ts, t.value.block.Plain := fun t ht ↦ hplain _ (value_mem_preorderAll ht)
  have hadopted : ∀ d ∈ preorderAll adopted, Surrounds c.block d.block := by
    intro d hd
    have hmem := (preorderAll_sublist hs.adopted_sublist).subset hd
    obtain ⟨t, ht, hdt⟩ := mem_preorderAll.mp hd
    have hcontains := (h.sublist hs.adopted_sublist).contains ht hdt
    exact ⟨(hc.others d hmem).2.symm, (hs.adopted_contained t ht).trans hcontains⟩
  have hkept : ∀ t ∈ front ++ back, t ∈ ts := fun t ht ↦ hs.kept_sublist.subset ht
  -- A sibling in front of the new block stands apart from it, and it from those behind.
  have hfrontApart : ∀ t ∈ front, Apart t.value.block c.block := by
    intro t ht
    have hmem := hkept t (List.mem_append_left _ ht)
    have hne := (hc.others _ (value_mem_preorderAll hmem)).2
    exact ⟨hs.front_precedes t ht, fun hcontains ↦ hnone t hmem ⟨hne, hcontains⟩⟩
  have hbackApart : ∀ d ∈ preorderAll back, Apart c.block d.block := by
    intro d hd
    obtain ⟨t, ht, hdt⟩ := mem_preorderAll.mp hd
    have hmem := hkept t (List.mem_append_right _ ht)
    have hne := (hc.others _ (value_mem_preorderAll hmem)).2
    have hprecedes := (precedes_or_precedes hc.plain (htop t hmem) hne.symm).resolve_right
      (hs.back_not_precedes h.pairwise t ht)
    have hd' := hplain d (mem_preorderAll.mpr ⟨t, hmem, hdt⟩)
    exact Apart.of_contains_right hc.plain (htop t hmem) hd'
      ⟨hprecedes, hs.kept_outside t (List.mem_append_right _ ht)⟩ (hback.contains ht hdt)
  rw [hsettle, tidy_append_iff, tidy_cons_iff]
  refine ⟨hfront, ⟨hadopted, hbackApart, h.sublist hs.adopted_sublist, hback⟩, ?_⟩
  intro t ht d hd
  have hmem := hkept t (List.mem_append_left _ ht)
  simp only [preorderAll_cons, List.mem_cons, List.mem_append] at hd
  rcases hd with rfl | hd | hd
  · exact hfrontApart t ht
  · have hd' := hplain d ((preorderAll_sublist hs.adopted_sublist).subset hd)
    exact (hfrontApart t ht).of_contains_right (htop t hmem) hc.plain hd' (hadopted d hd).2
  · exact hapart t ht d hd

/-! ## Going down -/

theorem descend?_cons (c d : Claim) (ts rest : List (Rose Claim)) :
    descend? c (.node d ts :: rest) =
      if Surrounds d.block c.block then some (.node d (plant ts c) :: rest)
      else (descend? c rest).map (.node d ts :: ·) := rfl

theorem descend?_eq_none_iff :
    descend? c ts = none ↔ ∀ t ∈ ts, ¬ Surrounds t.value.block c.block := by
  induction ts with
  | nil => simp [descend?]
  | cons t ts ih =>
    obtain ⟨d, ds⟩ := t
    rw [descend?_cons]
    split
    · rename_i hd
      simp [hd]
    · rename_i hd
      simp [hd, ih]

/-- A tidy forest with the blocks from before and the new one. -/
structure Planted (c : Claim) (forest forest' : List (Rose Claim)) : Prop where
  tidy : Tidy forest'
  perm : (preorderAll forest').Perm (c :: preorderAll forest)

theorem planted_of_descended (hc : Plantable c forest) (h : Tidy forest)
    (hdescended : ∀ forest', descend? c forest = some forest' → Planted c forest forest') :
    Planted c forest (plant forest c) := by
  unfold plant
  cases hdescend : descend? c forest with
  | none => exact ⟨settle_tidy hc h (descend?_eq_none_iff.mp hdescend), settle_perm c forest⟩
  | some forest' => exact hdescended forest' hdescend

/-- Going down plants the block below the one sibling that surrounds it, and that sibling stays
apart from the others. -/
theorem planted_of_descend? (hc : Plantable c forest) (h : Tidy forest) :
    ∀ forest', descend? c forest = some forest' → Planted c forest forest' := by
  induction forest using forest_induction with
  | nil => exact fun forest' hdescend ↦ nomatch hdescend
  | cons d ts rest ihts ihrest =>
    intro forest' hdescend
    obtain ⟨hbelow, hbehind, hts, hrest⟩ := tidy_cons_iff.mp h
    have hd := (hc.others d List.mem_cons_self).1
    have hcts : Plantable c ts :=
      ⟨hc.plain, fun e he ↦ hc.others e (List.mem_cons_of_mem d (List.mem_append_left _ he))⟩
    have hcrest : Plantable c rest :=
      ⟨hc.plain, fun e he ↦ hc.others e (List.mem_cons_of_mem d (List.mem_append_right _ he))⟩
    rw [descend?_cons] at hdescend
    split at hdescend
    · rename_i hsurrounds
      cases hdescend
      obtain ⟨htidy, hperm⟩ := planted_of_descended hcts hts (ihts hcts hts)
      refine ⟨.cons (fun e he ↦ ?_) hbehind htidy hrest, ?_⟩
      · rcases List.mem_cons.mp (hperm.mem_iff.mp he) with rfl | he
        · exact hsurrounds
        · exact hbelow e he
      · exact ((hperm.append_right _).cons d).trans (.swap c d _)
    · obtain ⟨rest', hrest', rfl⟩ := Option.map_eq_some_iff.mp hdescend
      obtain ⟨htidy, hperm⟩ := ihrest hcrest hrest rest' hrest'
      have hplanted : Apart d.block c.block := by
        obtain ⟨t, ht, hsurrounds⟩ : ∃ t ∈ rest, Surrounds t.value.block c.block := by
          by_contra hnone
          have hnone' := descend?_eq_none_iff.mpr fun t ht hs ↦ hnone ⟨t, ht, hs⟩
          rw [hnone'] at hrest'
          cases hrest'
        have hmem := value_mem_preorderAll ht
        exact (hbehind _ hmem).of_contains_right hd (hcrest.others _ hmem).1 hc.plain
          hsurrounds.2
      refine ⟨.cons hbelow (fun e he ↦ ?_) hts htidy, ?_⟩
      · rcases List.mem_cons.mp (hperm.mem_iff.mp he) with rfl | he
        · exact hplanted
        · exact hbehind e he
      · refine (((hperm.append_left _).trans List.perm_middle).cons d).trans (.swap c d _)

theorem planted_plant (hc : Plantable c forest) (h : Tidy forest) :
    Planted c forest (plant forest c) :=
  planted_of_descended hc h (planted_of_descend? hc h)

/-- Plain blocks of which none occurs twice are planted as a tidy forest of just them. -/
theorem forest_tidy {claims : List Claim} (hplain : ∀ c ∈ claims, c.block.Plain)
    (hnodup : (claims.map Claim.block).Nodup) :
    Tidy (Report.forest claims) ∧ (preorderAll (Report.forest claims)).Perm claims := by
  induction claims using List.reverseRecOn with
  | nil => exact ⟨.nil, .refl _⟩
  | append_singleton claims c ih =>
    rw [List.map_append, List.map_singleton, List.nodup_append] at hnodup
    obtain ⟨htidy, hperm⟩ :=
      ih (fun d hd ↦ hplain d (List.mem_append_left _ hd)) hnodup.1
    have hc : Plantable c (Report.forest claims) := by
      refine ⟨hplain c List.mem_concat_self, fun d hd ↦ ?_⟩
      have hmem := hperm.mem_iff.mp hd
      exact ⟨hplain d (List.mem_append_left _ hmem),
        hnodup.2.2 _ (List.mem_map.mpr ⟨d, hmem, rfl⟩) _ (List.mem_singleton_self _)⟩
    have hstep : Report.forest (claims ++ [c]) = plant (Report.forest claims) c := by
      rw [Report.forest, List.foldl_append]
      rfl
    obtain ⟨htidy', hperm'⟩ := planted_plant hc htidy
    rw [hstep]
    exact ⟨htidy', hperm'.trans ((hperm.cons c).trans (List.perm_append_singleton c claims).symm)⟩

end Report

end AddressPlan
