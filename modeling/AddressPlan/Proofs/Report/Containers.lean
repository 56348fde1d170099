import AddressPlan.Proofs.Report.Reference

/-!
# Smallest containers of growing sets of blocks

A new block takes over the blocks in it that had the same smallest container as the new block
has, and nothing else changes.  The smallest container of a block is found from the top: as long
as it is not reached, a block with just the present container surrounds the block.
-/

namespace AddressPlan.Report

open Network

variable {a b c m : Network} {blocks blocks' : List Network} {outer : Option Network}

theorem Surrounds.trans (ha : a.Plain) (hb : b.Plain) (hab : Surrounds a b)
    (hbc : Surrounds b c) : Surrounds a c := by
  refine ⟨fun heq ↦ ?_, hab.2.trans hbc.2⟩
  subst heq
  exact hab.1 (ha.eq_of_contains hb hab.2 hbc.2)

/-- Of two blocks in a block the longer one is in the shorter one. -/
theorem Surrounds.of_length_lt (hac : Surrounds a c) (hbc : Surrounds b c)
    (hlt : a.length < b.length) : Surrounds a b :=
  ⟨fun heq ↦ Nat.lt_irrefl _ (heq ▸ hlt), hac.2.of_length_le hbc.2 (Nat.le_of_lt hlt)⟩

theorem Surrounds.eq_of_length_eq (ha : a.Plain) (hb : b.Plain) (hac : Surrounds a c)
    (hbc : Surrounds b c) (heq : a.length = b.length) : a = b :=
  ha.eq_of_contains hb (hac.2.of_length_le hbc.2 heq.le) (hbc.2.of_length_le hac.2 heq.ge)

theorem container?_congr (hplain : ∀ m ∈ blocks, m.Plain)
    (hmem : ∀ m, m ∈ blocks ↔ m ∈ blocks') (b : Network) :
    container? blocks b = container? blocks' b := by
  have hplain' : ∀ m ∈ blocks', m.Plain := fun m hm ↦ hplain m ((hmem m).mpr hm)
  ext p
  rw [container?_eq_some_iff hplain, container?_eq_some_iff hplain']
  simp only [hmem]

/-! ## One more block -/

theorem container?_concat_of_not_surrounds (h : ¬ Surrounds c b) :
    container? (blocks ++ [c]) b = container? blocks b := by
  rw [container?, containers, List.filter_append, List.filter_cons_of_neg (by simpa using h),
    List.filter_nil, List.append_nil, container?, containers]

theorem container?_concat_self (blocks : List Network) (c : Network) :
    container? (blocks ++ [c]) c = container? blocks c :=
  container?_concat_of_not_surrounds (Surrounds.irrefl c)

theorem container?_concat_eq_new (hplain : ∀ m ∈ blocks ++ [c], m.Plain) (hcb : Surrounds c b)
    (hlongest : ∀ m ∈ blocks, Surrounds m b → m.length ≤ c.length) :
    container? (blocks ++ [c]) b = some c := by
  rw [container?_eq_some_iff hplain]
  refine ⟨⟨List.mem_concat_self, hcb⟩, fun m hm hmb ↦ ?_⟩
  rcases List.mem_append.mp hm with hm | hm
  · exact hlongest m hm hmb
  · rw [List.mem_singleton.mp hm]

theorem container?_concat_eq_old (hplain : ∀ m ∈ blocks ++ [c], m.Plain) {p : Network}
    (hp : container? blocks b = some p) (hle : c.length ≤ p.length) :
    container? (blocks ++ [c]) b = some p := by
  obtain ⟨⟨hmem, hpb⟩, hlongest⟩ := smallest_of_container? hp
  rw [container?_eq_some_iff hplain]
  refine ⟨⟨List.mem_append_left _ hmem, hpb⟩, fun m hm hmb ↦ ?_⟩
  rcases List.mem_append.mp hm with hm | hm
  · exact hlongest m hm hmb
  · rw [List.mem_singleton.mp hm]
    exact hle

/-- Where two blocks have the same smallest container, no container of the one is longer than the
other. -/
theorem length_le_of_container?_eq (hplain : ∀ m ∈ blocks, m.Plain) (hc : c.Plain)
    (heq : container? blocks b = container? blocks c) :
    ∀ m ∈ blocks, Surrounds m b → m.length ≤ c.length := by
  intro m hm hmb
  cases hp : container? blocks c with
  | none => exact absurd hmb (container?_eq_none_iff.mp (heq.trans hp) m hm)
  | some p =>
    obtain ⟨⟨hpmem, hpc⟩, -⟩ := smallest_of_container? hp
    have hmp := (smallest_of_container? (heq.trans hp)).2 m hm hmb
    exact hmp.trans (hpc.length_lt (hplain p hpmem) hc).le

/-- Where a new block around `b` has not the smallest container of `b`, that one is longer than the
new block. -/
theorem length_lt_of_container?_ne (hplain : ∀ m ∈ blocks, m.Plain) (hc : c.Plain)
    (hmem : c ∉ blocks) (hcb : Surrounds c b) (hne : container? blocks b ≠ container? blocks c) :
    ∃ p, container? blocks b = some p ∧ c.length < p.length := by
  cases hp : container? blocks b with
  | none =>
    -- What surrounds `c` would surround `b`.
    have hnone := container?_eq_none_iff.mp hp
    refine absurd (hp.trans (container?_eq_none_iff.mpr fun m hm hmc ↦ ?_).symm) hne
    exact hnone m hm (hmc.trans (hplain m hm) hc hcb)
  | some p =>
    obtain ⟨⟨hpmem, hpb⟩, hlongest⟩ := smallest_of_container? hp
    refine ⟨p, rfl, ?_⟩
    by_contra hle
    -- Otherwise it surrounds `c` and is the longest one to do so.
    have hpc : p.length < c.length := by
      refine Nat.lt_of_le_of_ne (Nat.le_of_not_lt hle) fun heq ↦ hmem ?_
      rwa [← hpb.eq_of_length_eq (hplain p hpmem) hc hcb heq]
    have hcontainer : container? blocks c = some p := by
      rw [container?_eq_some_iff hplain]
      refine ⟨⟨hpmem, hpb.of_length_lt hcb hpc⟩, fun m hm hmc ↦ ?_⟩
      exact hlongest m hm (hmc.trans (hplain m hm) hc hcb)
    exact hne (hp.trans hcontainer.symm)

/-- A new block becomes the smallest container of the blocks in it that had the same smallest
container as it has. -/
theorem container?_concat (hplain : ∀ m ∈ blocks ++ [c], m.Plain) (hmem : c ∉ blocks)
    (b : Network) :
    container? (blocks ++ [c]) b =
      if Surrounds c b ∧ container? blocks b = container? blocks c then some c
      else container? blocks b := by
  have hc : c.Plain := hplain c List.mem_concat_self
  have hold : ∀ m ∈ blocks, m.Plain := fun m hm ↦ hplain m (List.mem_append_left _ hm)
  by_cases hcb : Surrounds c b
  · by_cases heq : container? blocks b = container? blocks c
    · rw [if_pos ⟨hcb, heq⟩]
      exact container?_concat_eq_new hplain hcb (length_le_of_container?_eq hold hc heq)
    · obtain ⟨p, hp, hlt⟩ := length_lt_of_container?_ne hold hc hmem hcb heq
      rw [if_neg fun h ↦ heq h.2, hp]
      exact container?_concat_eq_old hplain hp hlt.le
  · rw [if_neg fun h ↦ hcb h.1, container?_concat_of_not_surrounds hcb]

theorem container?_concat_eq_self_iff (hplain : ∀ m ∈ blocks ++ [c], m.Plain)
    (hmem : c ∉ blocks) (b : Network) :
    container? (blocks ++ [c]) b = some c ↔
      Surrounds c b ∧ container? blocks b = container? blocks c := by
  rw [container?_concat hplain hmem]
  split
  · exact iff_of_true rfl ‹_›
  · exact iff_of_false (fun h ↦ hmem (smallest_of_container? h).1.1) ‹_›

theorem container?_concat_eq_iff (hplain : ∀ m ∈ blocks ++ [c], m.Plain) (hmem : c ∉ blocks)
    (b : Network) (hne : outer ≠ some c) :
    container? (blocks ++ [c]) b = outer ↔
      container? blocks b = outer ∧ ¬ (Surrounds c b ∧ outer = container? blocks c) := by
  rw [container?_concat hplain hmem]
  split
  · rename_i h
    exact iff_of_false hne.symm fun h' ↦ h'.2 ⟨h.1, h'.1.symm.trans h.2⟩
  · rename_i h
    exact ⟨fun h' ↦ ⟨h', fun hc ↦ h ⟨hc.1, h'.trans hc.2⟩⟩, And.left⟩

/-! ## From the top down -/

/-- A block around `b` that is not its smallest container is the smallest container of another
block around `b`, and if `b` has a smallest container then some block around `b` has none. -/
theorem exists_container?_eq (hplain : ∀ m ∈ blocks, m.Plain) (hb : b.Plain)
    (houter : ∀ p ∈ outer, p ∈ blocks ∧ Surrounds p b) (hne : container? blocks b ≠ outer) :
    ∃ m ∈ blocks, container? blocks m = outer ∧ Surrounds m b := by
  -- Going up from `b` ends right below `outer`.
  induction hn : b.length using Nat.strong_induction_on generalizing b with
  | h n ih =>
    cases hw : container? blocks b with
    | none =>
      refine absurd (hw.trans (Option.eq_none_iff_forall_not_mem.mpr fun p hp ↦ ?_).symm) hne
      exact container?_eq_none_iff.mp hw p (houter p hp).1 (houter p hp).2
    | some w =>
      obtain ⟨⟨hmem, hwb⟩, hlongest⟩ := smallest_of_container? hw
      have hwplain := hplain w hmem
      have houter' : ∀ p ∈ outer, p ∈ blocks ∧ Surrounds p w := by
        intro p hp
        obtain ⟨hpmem, hpb⟩ := houter p hp
        refine ⟨hpmem, hpb.of_length_lt hwb (Nat.lt_of_le_of_ne (hlongest p hpmem hpb) ?_)⟩
        intro heq
        rw [hpb.eq_of_length_eq (hplain p hpmem) hwplain hwb heq] at hp
        exact hne (hw.trans (Option.mem_def.mp hp).symm)
      by_cases hwo : container? blocks w = outer
      · exact ⟨w, hmem, hwo, hwb⟩
      · have hlt : w.length < n := hn ▸ hwb.length_lt hwplain hb
        obtain ⟨m, hm, hcontainer, hmw⟩ := ih w.length hlt hwplain houter' hwo rfl
        exact ⟨m, hm, hcontainer, hmw.trans (hplain m hm) hwplain hwb⟩

end AddressPlan.Report
