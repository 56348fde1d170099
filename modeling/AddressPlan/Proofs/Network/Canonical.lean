import AddressPlan.Plan
import AddressPlan.Proofs.NodeTree.Claims

/-!
# Canonical texts

A text is canonical for a block without host bits if it is what the block prints.  No IPv6 text
reads as an IPv4 block, so a block of either family is read back from its text, and a reader that
compares what it read with what it was given accepts the canonical texts and no others.
-/

namespace AddressPlan

namespace Network

open Digits

/-- The block has no host bits, and this is how it is printed. -/
def Canonical (n : Network) (text : String) : Prop :=
  n.base = n ∧ n.text = text

variable {n : Network} {address : Nat} {text : String}

/-! ## Texts of both families -/

/-- An IPv6 address begins with a group and a colon, or with a colon. -/
theorem readQuad_groupAddressText (address : Nat) (rest : List Char) :
    readQuad (groupAddressText address ++ '/' :: rest) = none := by
  have hgroups : ∀ (groups : List Nat) (behind : List Char), Delimited behind →
      readQuad (groupsText groups ++ behind) = none := by
    intro groups behind hbehind
    cases groups with
    | nil => exact readQuad_of_delimited hbehind
    | cons g groups =>
      rw [groupsText_cons, List.append_assoc]
      exact readQuad_group g (delimited_colonGroups groups hbehind)
  unfold groupAddressText
  split
  · exact readQuad_of_delimited (delimited_colon _)
  · dsimp only
    split
    · rw [List.append_assoc, List.append_assoc]
      exact hgroups _ _ (delimited_colon _)
    · exact hgroups _ _ (delimited_slash rest)

theorem ofText?_v4_of_v6 (hfamily : n.family = .v6) : ofText? .v4 n.text.toList = none := by
  rw [text, String.toList_ofList, hfamily, ofText?]
  simp only [readAddress, addressText, readQuad_groupAddressText, bind, Option.bind]

/-- A block of either family is read back from its text. -/
theorem parse?_text (n : Network) : parse? n.text = some n := by
  have hread := ofText?_text n
  unfold parse?
  cases hfamily : n.family with
  | v4 =>
    rw [hfamily] at hread
    rw [hread, Option.some_or]
  | v6 =>
    rw [hfamily] at hread
    rw [ofText?_v4_of_v6 hfamily, hread, Option.none_or]

theorem parse_text (n : Network) : parse n.text = .ok n := by
  rw [parse, parse?_text]

/-- Blocks of any family with one text are the same. -/
theorem eq_of_text_eq {m n : Network} (h : m.text = n.text) : m = n := by
  have hm := parse?_text m
  rw [h, parse?_text n] at hm
  exact (Option.some.inj hm).symm

namespace Canonical

theorem parse (h : n.Canonical text) : Network.parse text = .ok n :=
  h.2 ▸ parse_text n

theorem unique {m : Network} (h : m.Canonical text) (h' : n.Canonical text) : m = n :=
  eq_of_text_eq (h.2.trans h'.2.symm)

end Canonical

/-- What was read prints as the text it was read from exactly if the text is canonical. -/
theorem canonical_of_parse (h : parse text = .ok n) (htext : n.base.text = text) :
    n.Canonical text := by
  have hbase := parse_text n.base
  rw [htext, h, Except.ok.injEq] at hbase
  exact ⟨hbase.symm, hbase ▸ htext⟩

theorem parseBlock_eq_ok_iff_canonical :
    parseBlock text = .ok n ↔ n.family = .v4 ∧ n.Canonical text := by
  rw [parseBlock_eq_ok_iff, Plain, Canonical, and_assoc]

end Network

namespace Plan

open Network

variable {n : Network} {text : String} {maskLength : Nat}

/-- The fields of a plan with a canonical text are checked by the lengths alone. -/
theorem checkFields_of_canonical (h : n.Canonical text) :
    checkFields text maskLength =
      if maskLength ≤ n.length then .error (.malformed (.planDepth maskLength text))
      else if n.family.maskLimit < maskLength then
        .error (.capacity (.planMask maskLength n.family.maskLimit text))
      else .ok n := by
  have hspelling : n.base.text = text := by rw [h.1, h.2]
  rw [checkFields, h.parse]
  simp only [bind, Except.bind, pure, Except.pure, hspelling, ne_eq, not_true_eq_false, if_false,
    throw, throwThe, MonadExceptOf.throw]

/-- A text that is not canonical is malformed, whatever the length. -/
theorem checkFields_of_not_canonical (maskLength : Nat) (h : ∀ n : Network, ¬ n.Canonical text) :
    ∃ cause, checkFields text maskLength = .error (.malformed cause) := by
  rw [checkFields]
  cases hparse : Network.parse text with
  | error e =>
    unfold Network.parse at hparse
    split at hparse
    · cases hparse
    · cases hparse
      exact ⟨_, rfl⟩
  | ok n =>
    have hspelling : n.base.text ≠ text := fun htext ↦ h n (canonical_of_parse hparse htext)
    simp only [bind, Except.bind, hspelling, ne_eq, not_false_eq_true, if_true]
    exact ⟨_, rfl⟩

theorem checkFields_eq_ok_iff_canonical :
    checkFields text maskLength = .ok n ↔
      n.Canonical text ∧ n.length < maskLength ∧ maskLength ≤ n.family.maskLimit := by
  by_cases hsome : ∃ m : Network, m.Canonical text
  · obtain ⟨m, hm⟩ := hsome
    rw [checkFields_of_canonical hm]
    constructor
    · intro h
      split at h
      · cases h
      · split at h
        · cases h
        · cases h
          exact ⟨hm, by omega, by omega⟩
    · rintro ⟨hn, hlength, hlimit⟩
      obtain rfl := hm.unique hn
      rw [if_neg (by omega), if_neg (by omega)]
  · have hnone : ∀ m : Network, ¬ m.Canonical text := fun m hm ↦ hsome ⟨m, hm⟩
    obtain ⟨cause, hcheck⟩ := checkFields_of_not_canonical maskLength hnone
    rw [hcheck]
    exact iff_of_false nofun fun h ↦ hnone n h.1

theorem checkFields_capacity_iff :
    (∃ cause, checkFields text maskLength = .error (.capacity cause)) ↔
      ∃ n : Network, n.Canonical text ∧ n.length < maskLength ∧
        n.family.maskLimit < maskLength := by
  by_cases hsome : ∃ m : Network, m.Canonical text
  · obtain ⟨m, hm⟩ := hsome
    rw [checkFields_of_canonical hm]
    constructor
    · rintro ⟨cause, h⟩
      split at h
      · cases h
      · split at h
        · exact ⟨m, hm, by omega, by omega⟩
        · cases h
    · rintro ⟨n, hn, hlength, hlimit⟩
      obtain rfl := hm.unique hn
      rw [if_neg (by omega), if_pos hlimit]
      exact ⟨_, rfl⟩
  · have hnone : ∀ m : Network, ¬ m.Canonical text := fun m hm ↦ hsome ⟨m, hm⟩
    obtain ⟨cause, hcheck⟩ := checkFields_of_not_canonical maskLength hnone
    rw [hcheck]
    exact iff_of_false nofun fun ⟨n, hn, _⟩ ↦ hnone n hn

theorem checkFields_malformed_iff :
    (∃ cause, checkFields text maskLength = .error (.malformed cause)) ↔
      ¬ ∃ n : Network, n.Canonical text ∧ n.length < maskLength := by
  by_cases hsome : ∃ m : Network, m.Canonical text
  · obtain ⟨m, hm⟩ := hsome
    rw [checkFields_of_canonical hm]
    constructor
    · rintro ⟨cause, h⟩ ⟨n, hn, hlength⟩
      obtain rfl := hm.unique hn
      rw [if_neg (by omega)] at h
      split at h
      · cases h
      · cases h
    · intro h
      rw [if_pos (by_contra fun hdeep ↦ h ⟨m, hm, by omega⟩)]
      exact ⟨_, rfl⟩
  · have hnone : ∀ m : Network, ¬ m.Canonical text := fun m hm ↦ hsome ⟨m, hm⟩
    exact iff_of_true (checkFields_of_not_canonical maskLength hnone) fun ⟨n, hn, _⟩ ↦ hnone n hn

/-- The fields of a plan and a literal are accepted exactly in canonical texts.  So every block
without host bits is accepted in one spelling, and plans written differently are on different
blocks. -/
theorem accepted_iff_canonical (text : String) (maskLength : Nat) :
    (∀ n, checkFields text maskLength = .ok n ↔
      n.Canonical text ∧ n.length < maskLength ∧ maskLength ≤ n.family.maskLimit) ∧
    ((∃ cause, checkFields text maskLength = .error (.capacity cause)) ↔
      ∃ n : Network, n.Canonical text ∧ n.length < maskLength ∧
        n.family.maskLimit < maskLength) ∧
    ((∃ cause, checkFields text maskLength = .error (.malformed cause)) ↔
      ¬ ∃ n : Network, n.Canonical text ∧ n.length < maskLength) ∧
    (∀ n, parseBlock text = .ok n ↔ n.family = .v4 ∧ n.Canonical text) ∧
    (∀ n : Network, n.base = n → n.length < maskLength → maskLength ≤ n.family.maskLimit →
      ∃! spelling, checkFields spelling maskLength = .ok n) ∧
    (∀ n : Network, n.base = n → n.family = .v4 → ∃! spelling, parseBlock spelling = .ok n) ∧
    ∀ n text' maskLength' n', checkFields text maskLength = .ok n →
      checkFields text' maskLength' = .ok n' → text ≠ text' → n ≠ n' := by
  refine ⟨fun n ↦ checkFields_eq_ok_iff_canonical, checkFields_capacity_iff,
    checkFields_malformed_iff, fun n ↦ parseBlock_eq_ok_iff_canonical,
    fun n hbase hlength hlimit ↦ ?_, fun n hbase hfamily ↦ ?_, ?_⟩
  · refine ⟨n.text, checkFields_eq_ok_iff_canonical.mpr ⟨⟨hbase, rfl⟩, hlength, hlimit⟩, ?_⟩
    intro spelling h
    exact (checkFields_eq_ok_iff_canonical.mp h).1.2.symm
  · refine ⟨n.text, parseBlock_eq_ok_iff_canonical.mpr ⟨hfamily, hbase, rfl⟩, ?_⟩
    intro spelling h
    exact (parseBlock_eq_ok_iff_canonical.mp h).2.2.symm
  · rintro n text' maskLength' n' h h' hne rfl
    have htext := (checkFields_eq_ok_iff_canonical.mp h).1.2
    have htext' := (checkFields_eq_ok_iff_canonical.mp h').1.2
    exact hne (htext.symm.trans htext')

/-- A leading zero, a host bit and an upper-case digit are each read, and none is accepted. -/
example : (["2001:db8::/16", "2001::/16", "10.0.0.0/08", "10.0.0.1/8", "2001:DB8::/32"].map
    fun text ↦ ((Network.parse? text).isSome, (checkFields text 24).toOption.isSome)) =
      [(true, false), (true, true), (true, false), (true, false), (true, false)] := by
  decide +kernel

end Plan

end AddressPlan
