import AddressPlan.NodeTree.Literals
import AddressPlan.Proofs.Network.Text
import AddressPlan.Proofs.StepRuns
import Mathlib.Data.List.Nodup

/-!
# Literal blocks that are in order

A literal is accepted exactly if it is the text of an IPv4 block without host bits.  So the
literals of a tree are in order if all of them are such texts and none is written twice, and
then the claims are these blocks with their owners, in the order in which they are written.
-/

namespace AddressPlan

namespace Network

/-- An IPv4 block without host bits. -/
def Plain (n : Network) : Prop :=
  n.family = .v4 ∧ n.base = n

instance (n : Network) : Decidable n.Plain :=
  inferInstanceAs (Decidable (_ ∧ _))

theorem ofText?_family {family : Family} {text : List Char} {n : Network}
    (h : ofText? family text = some n) : n.family = family := by
  simp only [ofText?, bind, Option.bind_eq_some_iff] at h
  obtain ⟨⟨address, rest⟩, -, h⟩ := h
  split at h
  · obtain ⟨⟨length, behind⟩, -, h⟩ := Option.bind_eq_some_iff.mp h
    split at h
    · exact (ofParts?_eq_some_iff.mp h).1
    · cases h
  · cases h

/-- A literal is accepted exactly if it is the text of a plain block. -/
theorem parseBlock_eq_ok_iff {text : String} {n : Network} :
    parseBlock text = .ok n ↔ n.Plain ∧ n.text = text := by
  constructor
  · intro h
    unfold parseBlock at h
    split at h
    · cases h
    · rename_i m hread
      split at h
      · rename_i hspelling
        cases h
        have hfamily := ofText?_family hread
        have hback := ofText?_text n.base
        rw [hspelling, base_family, hfamily, hread, Option.some.injEq] at hback
        exact ⟨⟨hfamily, hback.symm⟩, hback ▸ hspelling⟩
      · cases h
  · rintro ⟨⟨hfamily, hbase⟩, rfl⟩
    have hread := ofText?_text n
    rw [hfamily] at hread
    simp only [parseBlock, hread, hbase, if_true]

theorem Plain.eq_of_text {m n : Network} (hm : m.Plain) (hn : n.Plain) (h : m.text = n.text) :
    m = n :=
  text_injective (hm.1.trans hn.1.symm) h

end Network

namespace NodeTree

variable {t : NodeTree} {claims claims' : List Claim} {written : List (Placed × String)}

theorem claim_eq_ok_iff {owner : Placed} {text : String} :
    claim claims owner text = .ok claims' ↔
      ∃ block : Network, (block.Plain ∧ block.text = text) ∧ block ∉ claims.map Claim.block ∧
        claims' = claims ++ [⟨owner, block⟩] := by
  have hfree : ∀ block : Network,
      claims.find? (·.block == block) = none ↔ block ∉ claims.map Claim.block := by
    intro block
    simp
  unfold claim
  cases hparse : Network.parseBlock text with
  | error e =>
    refine iff_of_false (fun h ↦ nomatch h) ?_
    rintro ⟨block, hblock, -⟩
    cases hparse.symm.trans (Network.parseBlock_eq_ok_iff.mpr hblock)
  | ok n =>
    have hn := Network.parseBlock_eq_ok_iff.mp hparse
    have honly : ∀ block : Network, block.Plain ∧ block.text = text → block = n :=
      fun block hblock ↦ hblock.1.eq_of_text hn.1 (hblock.2.trans hn.2.symm)
    dsimp only
    cases hfind : claims.find? (·.block == n) with
    | some first =>
      refine iff_of_false (fun h ↦ nomatch h) ?_
      rintro ⟨block, hblock, hnew, -⟩
      rw [honly block hblock, ← hfree, hfind] at hnew
      cases hnew
    | none =>
      constructor
      · intro h
        cases h
        exact ⟨n, hn, (hfree n).mp hfind, rfl⟩
      · rintro ⟨block, hblock, -, rfl⟩
        rw [honly block hblock]

/-- The claims are the literals that were written, each a plain block and no block twice. -/
structure Claimed (written : List (Placed × String)) (claims : List Claim) : Prop where
  plain : ∀ c ∈ claims, c.block.Plain
  nodup : (claims.map Claim.block).Nodup
  written_eq : claims.map (fun c ↦ (c.owner, c.block.text)) = written

theorem Claimed.mem_blocks_iff (h : Claimed written claims) {m : Network} :
    m ∈ claims.map Claim.block ↔ m.Plain ∧ m.text ∈ written.map Prod.snd := by
  rw [← h.written_eq, List.map_map]
  constructor
  · intro hm
    obtain ⟨c, hc, rfl⟩ := List.mem_map.mp hm
    exact ⟨h.plain c hc, List.mem_map.mpr ⟨c, hc, rfl⟩⟩
  · rintro ⟨hplain, hm⟩
    obtain ⟨c, hc, htext⟩ := List.mem_map.mp hm
    exact List.mem_map.mpr ⟨c, hc, (h.plain c hc).eq_of_text hplain htext⟩

theorem claimed_append_iff {w : Placed × String} :
    Claimed (written ++ [w]) claims' ↔
      ∃ claims c, claims' = claims ++ [c] ∧ Claimed written claims ∧
        (c.block.Plain ∧ (c.owner, c.block.text) = w) ∧ c.block ∉ claims.map Claim.block := by
  constructor
  · rintro ⟨hplain, hnodup, hwritten⟩
    obtain ⟨claims, last, rfl, rfl, hlast⟩ := List.map_eq_append_iff.mp hwritten
    obtain ⟨c, rfl, rfl⟩ := List.map_eq_singleton_iff.mp hlast
    rw [List.map_append, List.nodup_append] at hnodup
    refine ⟨claims, c, rfl,
      ⟨fun d hd ↦ hplain d (List.mem_append_left _ hd), hnodup.1, rfl⟩,
      ⟨hplain c List.mem_concat_self, rfl⟩, fun hmem ↦ ?_⟩
    exact hnodup.2.2 _ hmem _ (List.mem_singleton_self _) rfl
  · rintro ⟨claims, c, rfl, h, ⟨hplain, rfl⟩, hnew⟩
    refine ⟨fun d hd ↦ ?_, ?_, by rw [List.map_append, h.written_eq, List.map_singleton]⟩
    · rcases List.mem_append.mp hd with hd | hd
      · exact h.plain d hd
      · exact List.mem_singleton.mp hd ▸ hplain
    · rw [List.map_append, List.nodup_append]
      refine ⟨h.nodup, List.nodup_singleton _, fun block hblock last hlast heq ↦ ?_⟩
      rw [List.map_singleton, List.mem_singleton] at hlast
      exact hnew (hlast ▸ heq ▸ hblock)

theorem foldlM_claim_eq_ok_iff :
    written.foldlM (fun claims (owner, text) ↦ claim claims owner text) [] = .ok claims ↔
      Claimed written claims := by
  induction written using List.reverseRecOn generalizing claims with
  | nil =>
    constructor
    · intro h
      cases h
      exact ⟨fun _ h ↦ absurd h List.not_mem_nil, List.nodup_nil, rfl⟩
    · intro h
      rw [List.map_eq_nil_iff.mp h.written_eq]
      rfl
  | append_singleton written w ih =>
    obtain ⟨owner, text⟩ := w
    rw [List.foldlM_append, bind_eq_ok_iff, claimed_append_iff]
    simp only [List.foldlM_cons, List.foldlM_nil, bind_pure, ih, claim_eq_ok_iff]
    constructor
    · rintro ⟨claims, h, block, ⟨hplain, rfl⟩, hnew, rfl⟩
      exact ⟨claims, ⟨owner, block⟩, rfl, h, ⟨hplain, rfl⟩, hnew⟩
    · rintro ⟨claims, ⟨owner', block⟩, rfl, h, ⟨hplain, hw⟩, hnew⟩
      cases hw
      exact ⟨claims, h, block, ⟨hplain, rfl⟩, hnew, rfl⟩

theorem claims_eq_ok_iff : t.claims = .ok claims ↔ Claimed t.writtenBlocks claims :=
  foldlM_claim_eq_ok_iff

theorem exists_claimed_iff :
    (∃ claims, Claimed written claims) ↔
      (∀ text ∈ written.map Prod.snd, ∃ block : Network, block.Plain ∧ block.text = text) ∧
        (written.map Prod.snd).Nodup := by
  constructor
  · rintro ⟨claims, h⟩
    have htexts : written.map Prod.snd = (claims.map Claim.block).map Network.text := by
      rw [← h.written_eq, List.map_map, List.map_map]
      rfl
    rw [htexts]
    constructor
    · intro text htext
      obtain ⟨block, hblock, rfl⟩ := List.mem_map.mp htext
      exact ⟨block, (h.mem_blocks_iff.mp hblock).1, rfl⟩
    · refine h.nodup.map_on fun m hm n hn heq ↦ ?_
      exact (h.mem_blocks_iff.mp hm).1.eq_of_text (h.mem_blocks_iff.mp hn).1 heq
  · rintro ⟨hplain, hnodup⟩
    choose block hblock using hplain
    refine ⟨written.attach.map fun w ↦ ⟨w.1.1, block _ (List.mem_map_of_mem w.2)⟩, ?_, ?_, ?_⟩
    · intro c hc
      obtain ⟨w, -, rfl⟩ := List.mem_map.mp hc
      exact (hblock _ _).1
    · rw [List.map_map]
      apply List.Nodup.of_map Network.text
      rw [List.map_map]
      refine (List.map_congr_left fun w _ ↦ (hblock _ _).2).symm ▸ ?_
      rwa [← List.attach_map_subtype_val written, List.map_map] at hnodup
    · rw [List.map_map]
      refine (List.map_congr_left fun w _ ↦ ?_).trans (List.attach_map_subtype_val written)
      exact Prod.ext rfl (hblock _ _).2

theorem writtenBlocks_texts (t : NodeTree) :
    t.writtenBlocks.map Prod.snd = t.flatten.flatMap Node.blockTexts := by
  have hnodes : t.flatten = t.placed.map Placed.node := by
    rw [placed, List.map_map]
    refine (congrArg (List.map Slot.node) (List.zipIdx_map_fst 0 t.slots).symm).trans ?_
    rw [List.map_map]
    rfl
  rw [writtenBlocks, List.map_flatMap, hnodes, List.flatMap_map]
  refine List.flatMap_congr fun p _ ↦ ?_
  rw [List.map_map]
  exact List.map_id _

/-- The literals of a tree are in order exactly if each is the text of a plain block and none
is written twice. -/
theorem exists_claims_iff :
    (∃ claims, t.claims = .ok claims) ↔
      (∀ text ∈ t.flatten.flatMap Node.blockTexts,
        ∃ block : Network, block.Plain ∧ block.text = text) ∧
        (t.flatten.flatMap Node.blockTexts).Nodup := by
  simp only [claims_eq_ok_iff, exists_claimed_iff, writtenBlocks_texts]

end NodeTree

end AddressPlan
