import AddressPlan.Network.Printer
import AddressPlan.Network.Reader
import AddressPlan.Proofs.Network.Digits
import Mathlib.Data.List.TakeWhile

/-!
# Blocks are read back from their texts

The printed form of an address is read back as that address: four decimal fields, eight
hexadecimal groups, groups around a run of zeros, or a dotted address behind its six groups.
So two blocks of one family with one text are the same block.
-/

namespace AddressPlan.Network

open Digits

variable {address : Nat} {text rest : List Char}

/-- The text begins with a colon or a slash, and so goes on with no digit and no dot. -/
def Delimited (text : List Char) : Prop :=
  text.head? = some ':' ∨ text.head? = some '/'

theorem Delimited.stops (h : Delimited text) : Stops 10 text ∧ Stops 16 text := by
  refine ⟨fun c hc ↦ ?_, fun c hc ↦ ?_⟩
  all_goals
    rcases h with h | h
    · cases hc.symm.trans h
      rfl
    · cases hc.symm.trans h
      rfl

theorem Delimited.ne_dot (h : Delimited text) : text.head? ≠ some '.' := by
  intro hdot
  rcases h with h | h
  · cases hdot.symm.trans h
  · cases hdot.symm.trans h

theorem delimited_colon (text : List Char) : Delimited (':' :: text) := Or.inl rfl

theorem delimited_slash (text : List Char) : Delimited ('/' :: text) := Or.inr rfl

/-! ## Dotted addresses -/

theorem stops_dot (text : List Char) : Stops 10 ('.' :: text) := by
  intro c hc
  cases hc
  rfl

theorem readField {n : Nat} (h : Stops 10 text) :
    read? 10 3 256 (Nat.toDigits 10 (n % 2 ^ 8) ++ text) = some (n % 2 ^ 8, text) := by
  have hlt : n % 2 ^ 8 < 2 ^ 8 := Nat.mod_lt n (by decide)
  exact read?_toDigits (by decide) (by decide) (by decide) (Nat.lt_trans hlt (by decide)) hlt h

theorem quadText_eq (address : Nat) :
    quadText address =
      Nat.toDigits 10 (address / 2 ^ 24 % 2 ^ 8) ++ '.' ::
        (Nat.toDigits 10 (address / 2 ^ 16 % 2 ^ 8) ++ '.' ::
          (Nat.toDigits 10 (address / 2 ^ 8 % 2 ^ 8) ++ '.' ::
            Nat.toDigits 10 (address / 2 ^ 0 % 2 ^ 8))) := by
  simp [quadText, fields, List.range_succ, List.intercalate]

theorem readQuad_quadText (h : address < 2 ^ 32) (hrest : Stops 10 rest) :
    readQuad (quadText address ++ rest) = some (address, rest) := by
  have hfields := ofFields_fields_of_lt 8 4 h
  simp only [quadText_eq, List.append_assoc, List.cons_append]
  simp only [readQuad, readField (stops_dot _), readField hrest, bind, Option.bind, pure]
  exact congrArg (fun a ↦ some (a, rest)) hfields

/-! ## Hexadecimal groups -/

/-- A text is no dotted address if no dot follows its first digits. -/
theorem readQuad_eq_none (h : (span 10 text).2.head? ≠ some '.') : readQuad text = none := by
  unfold readQuad
  cases hread : read? 10 3 256 text with
  | none => rfl
  | some found =>
    obtain ⟨n, behind⟩ := found
    obtain rfl := read?_rest hread
    simp only [bind, Option.bind]
    split
    · rename_i hdot
      rw [hdot] at h
      exact absurd rfl h
    · rfl

theorem readQuad_of_delimited (h : Delimited text) : readQuad text = none := by
  apply readQuad_eq_none
  rw [span_of_stops h.stops.1]
  exact h.ne_dot

theorem span_hex_ne_dot {ds : List Nat} (hds : ∀ d ∈ ds, d < 16) (h : Delimited rest) :
    (span 10 (ds.map Nat.digitChar ++ rest)).2.head? ≠ some '.' := by
  induction ds with
  | nil =>
    rw [List.map_nil, List.nil_append, span_of_stops h.stops.1]
    exact h.ne_dot
  | cons d ds ih =>
    have hd := hds d List.mem_cons_self
    rw [List.map_cons, List.cons_append, span]
    split
    · exact ih fun e he ↦ hds e (List.mem_cons_of_mem d he)
    · intro hdot
      rw [List.head?_cons, Option.some.injEq] at hdot
      revert hdot
      interval_cases d <;> decide

theorem readQuad_group (g : Nat) (h : Delimited rest) :
    readQuad (Nat.toDigits 16 g ++ rest) = none := by
  obtain ⟨ds, htext, hlt, -⟩ := exists_digits (b := 16) (by decide) g
  rw [htext]
  exact readQuad_eq_none (span_hex_ne_dot hlt h)

theorem readGroup {g : Nat} (hg : g < 2 ^ 16) (h : Delimited rest) :
    read? 16 4 65536 (Nat.toDigits 16 g ++ rest) = some (g, rest) :=
  read?_toDigits (by decide) (by decide) (by decide) hg hg h.stops.2

/-- Groups with a colon in front of each. -/
def colonGroups (groups : List Nat) : List Char :=
  groups.flatMap fun g ↦ ':' :: Nat.toDigits 16 g

theorem groupsText_cons (g : Nat) (groups : List Nat) :
    groupsText (g :: groups) = Nat.toDigits 16 g ++ colonGroups groups := by
  induction groups generalizing g with
  | nil => simp [groupsText, colonGroups, List.intercalate]
  | cons h groups ih =>
    have hstep : groupsText (g :: h :: groups) =
        Nat.toDigits 16 g ++ ':' :: groupsText (h :: groups) := by
      simp [groupsText, List.intercalate]
    rw [hstep, ih, colonGroups, colonGroups, List.flatMap_cons, List.cons_append]

theorem delimited_colonGroups (groups : List Nat) (h : Delimited rest) :
    Delimited (colonGroups groups ++ rest) := by
  cases groups with
  | nil => exact h
  | cons g groups => exact delimited_colon _

theorem readGroups_group (free : Nat) {g : Nat} (hg : g < 2 ^ 16) (h : Delimited rest) :
    readGroups (free + 1) true (Nat.toDigits 16 g ++ rest) =
      { readGroups free false rest with groups := g :: (readGroups free false rest).groups } := by
  simp only [readGroups, readQuad_group g h, ite_self, readGroup hg h]

/-- What is read at the start of a text is read behind a colon as well. -/
theorem readGroups_colon {free : Nat} {text : List Char} {more : Groups}
    (h : readGroups (free + 1) true text = more) (hsome : more.groups ≠ []) :
    readGroups (free + 1) false (':' :: text) = more := by
  subst h
  simp only [readGroups] at hsome ⊢
  split
  · rfl
  · rename_i hquad
    simp only [hquad] at hsome
    split
    · rename_i hnone
      simp only [hnone] at hsome
      exact absurd rfl hsome
    · rfl

theorem readGroups_none (free : Nat) (h : Delimited rest) :
    readGroups free true rest = ⟨[], false, rest⟩ := by
  cases free with
  | zero => rfl
  | succ free => simp only [readGroups, readQuad_of_delimited h, ite_self, read?_of_stops h.stops.2]

/-- No further group is read from the text. -/
def Closed (free : Nat) (text : List Char) : Prop :=
  free = 0 ∨ (∃ rest, text = '/' :: rest) ∨ ∃ rest, text = ':' :: ':' :: rest

theorem readGroups_closed {free : Nat} (h : Closed free rest) :
    readGroups free false rest = ⟨[], false, rest⟩ := by
  cases free with
  | zero => rfl
  | succ free =>
    rcases h with hzero | ⟨text, rfl⟩ | ⟨text, rfl⟩
    · cases hzero
    · rfl
    · have hcolon := delimited_colon text
      simp only [readGroups, readQuad_of_delimited hcolon, ite_self,
        read?_of_stops hcolon.stops.2]

theorem readGroups_colonGroups (free : Nat) {groups : List Nat}
    (hgroups : ∀ g ∈ groups, g < 2 ^ 16) (hlength : groups.length ≤ free)
    (h : Closed (free - groups.length) rest) (hrest : Delimited rest) :
    readGroups free false (colonGroups groups ++ rest) = ⟨groups, false, rest⟩ := by
  induction groups generalizing free with
  | nil => exact readGroups_closed h
  | cons g groups ih =>
    rw [List.length_cons] at hlength h
    obtain ⟨free, rfl⟩ : ∃ k, free = k + 1 := ⟨free - 1, by omega⟩
    have hg := hgroups g List.mem_cons_self
    have hmore := ih free (fun e he ↦ hgroups e (List.mem_cons_of_mem g he))
      (by omega) (by rwa [Nat.add_sub_add_right] at h)
    have hfirst := readGroups_group free hg (delimited_colonGroups groups hrest)
    rw [hmore] at hfirst
    rw [colonGroups, List.flatMap_cons, List.cons_append, List.cons_append, List.append_assoc]
    exact readGroups_colon hfirst (List.cons_ne_nil _ _)

theorem readGroups_groupsText (free : Nat) {groups : List Nat}
    (hgroups : ∀ g ∈ groups, g < 2 ^ 16) (hlength : groups.length ≤ free)
    (h : Closed (free - groups.length) rest) (hrest : Delimited rest) :
    readGroups free true (groupsText groups ++ rest) = ⟨groups, false, rest⟩ := by
  cases groups with
  | nil => exact readGroups_none free hrest
  | cons g groups =>
    rw [List.length_cons] at hlength h
    obtain ⟨free, rfl⟩ : ∃ k, free = k + 1 := ⟨free - 1, by omega⟩
    have hmore := readGroups_colonGroups free
      (fun e he ↦ hgroups e (List.mem_cons_of_mem g he)) (by omega)
      (by rwa [Nat.add_sub_add_right] at h) hrest
    rw [groupsText_cons, List.append_assoc,
      readGroups_group free (hgroups g List.mem_cons_self) (delimited_colonGroups groups hrest),
      hmore]

/-! ## Runs of zeros -/

theorem longestZeroRun_eq (groups : List Nat) :
    (longestZeroRun groups).2 = 0 ∨
      (longestZeroRun groups).2 = leadingZeros (groups.drop (longestZeroRun groups).1) := by
  refine List.foldlRecOn (motive := fun best : Nat × Nat ↦
    best.2 = 0 ∨ best.2 = leadingZeros (groups.drop best.1)) _ _ (Or.inl rfl) ?_
  intro best hbest i _
  split
  · exact Or.inr rfl
  · exact hbest

theorem takeWhile_zero_eq_replicate (groups : List Nat) :
    groups.takeWhile (· == 0) = List.replicate (leadingZeros groups) 0 := by
  apply List.eq_replicate_of_mem
  intro g hg
  simpa using List.mem_takeWhile_imp hg

/-- The groups in front of a run of zeros, the zeros, and the groups behind it. -/
theorem groups_eq_of_zeroRun (groups : List Nat) (start : Nat) :
    groups = groups.take start ++
      List.replicate (leadingZeros (groups.drop start)) 0 ++
      groups.drop (start + leadingZeros (groups.drop start)) := by
  have hsplit := List.takeWhile_append_dropWhile (p := (· == 0)) (l := groups.drop start)
  have hbehind : groups.drop (start + leadingZeros (groups.drop start)) =
      (groups.drop start).dropWhile (· == 0) := by
    rw [← List.drop_drop, ← hsplit, List.drop_append]
    simp [leadingZeros, hsplit]
  rw [hbehind, ← takeWhile_zero_eq_replicate, List.append_assoc, hsplit, List.take_append_drop]

/-! ## Addresses and blocks -/

theorem ofFields_embedded {low : Nat} (head : Nat) (h : low < 2 ^ 32) :
    ofFields 16 ([0, 0, 0, 0, 0] ++ head :: fields 16 2 low) = head * 2 ^ 32 + low := by
  have hlow := ofFields_fields_of_lt 16 2 h
  rw [ofFields] at hlow ⊢
  simp only [List.cons_append, List.nil_append, number_cons, length_fields, hlow, Nat.zero_mul,
    Nat.zero_add]
  rfl

/-- A dotted address is tried as soon as a group and a colon are read. -/
theorem readGroups_dotted {low : Nat} (head : Nat) (hlow : low < 2 ^ 32) (hhead : head < 2 ^ 16)
    (hrest : Stops 10 rest) :
    readGroups 8 true (Nat.toDigits 16 head ++ ':' :: (quadText low ++ rest)) =
      ⟨head :: fields 16 2 low, true, rest⟩ := by
  have hdotted : readGroups 7 false (':' :: (quadText low ++ rest)) =
      ⟨fields 16 2 low, true, rest⟩ := by
    simp only [readGroups, readQuad_quadText hlow hrest]
    rfl
  rw [readGroups_group 7 hhead (delimited_colon _), hdotted]

theorem readGroupAddress_embedded (hrest : Stops 10 rest)
    (hhead : address / 2 ^ 32 = embeddedHead) :
    readGroupAddress ("::ffff:".toList ++ quadText (address % 2 ^ 32) ++ rest) =
      some (address, rest) := by
  have hlow : address % 2 ^ 32 < 2 ^ 32 := Nat.mod_lt _ (by decide)
  have htext : "::ffff:".toList = ':' :: ':' :: (Nat.toDigits 16 embeddedHead ++ [':']) := by decide
  have hvalue := ofFields_embedded embeddedHead hlow
  rw [← hhead, Nat.div_add_mod', hhead] at hvalue
  have htail := readGroups_dotted embeddedHead hlow (by decide) hrest
  generalize address % 2 ^ 32 = low at *
  have hfirst := readGroups_none 8 (delimited_colon
    (':' :: (Nat.toDigits 16 embeddedHead ++ ':' :: (quadText low ++ rest))))
  rw [htext]
  simp only [List.cons_append, List.append_assoc, List.nil_append]
  simp only [readGroupAddress, hfirst, htail, List.length_nil, List.length_cons, length_fields]
  exact congrArg (fun a ↦ some (a, rest)) hvalue

theorem readGroupAddress_groups {groups : List Nat} (hgroups : ∀ g ∈ groups, g < 2 ^ 16)
    (hlength : groups.length = 8) (h : Delimited rest) :
    readGroupAddress (groupsText groups ++ rest) = some (ofFields 16 groups, rest) := by
  have hread := readGroups_groupsText 8 hgroups (Nat.le_of_eq hlength)
    (Or.inl (by rw [hlength])) h
  simp only [readGroupAddress, hread, hlength, if_true]

theorem readGroupAddress_zeroRun {before behind : List Nat} {run : Nat}
    (hbefore : ∀ g ∈ before, g < 2 ^ 16) (hbehind : ∀ g ∈ behind, g < 2 ^ 16)
    (hlength : before.length + run + behind.length = 8) (hrun : 0 < run) (rest : List Char) :
    readGroupAddress
        (groupsText before ++ ':' :: ':' :: (groupsText behind ++ '/' :: rest)) =
      some (ofFields 16 (before ++ List.replicate run 0 ++ behind), '/' :: rest) := by
  have hhead := readGroups_groupsText 8 hbefore (by omega)
    (Or.inr (Or.inr ⟨groupsText behind ++ '/' :: rest, rfl⟩)) (delimited_colon _)
  have htail := readGroups_groupsText (8 - before.length) hbehind (by omega)
    (Or.inr (Or.inl ⟨rest, rfl⟩)) (delimited_slash rest)
  have hzeros : 8 - before.length - behind.length = run := by omega
  simp only [readGroupAddress, hhead, htail, hzeros]
  rw [if_neg (by omega)]
  rfl

theorem readGroupAddress_groupAddressText (h : address < 2 ^ 128) (rest : List Char) :
    readGroupAddress (groupAddressText address ++ '/' :: rest) = some (address, '/' :: rest) := by
  unfold groupAddressText
  split
  · exact readGroupAddress_embedded (delimited_slash rest).stops.1 ‹_›
  · have hgroups : ∀ g ∈ fields 16 8 address, g < 2 ^ 16 := fun g hg ↦ lt_of_mem_fields hg
    have hvalue := ofFields_fields_of_lt 16 8 h
    obtain ⟨start, run, hrun⟩ : ∃ start run, longestZeroRun (fields 16 8 address) = (start, run) :=
      ⟨_, _, rfl⟩
    simp only [hrun]
    split
    · rename_i hlong
      have hzeros : run = leadingZeros ((fields 16 8 address).drop start) := by
        have heq := longestZeroRun_eq (fields 16 8 address)
        rw [hrun] at heq
        exact heq.resolve_left (by dsimp only; omega)
      have hsplit := groups_eq_of_zeroRun (fields 16 8 address) start
      rw [← hzeros] at hsplit
      have hlength := congrArg List.length hsplit
      simp only [length_fields, List.length_append, List.length_replicate] at hlength
      have hread := readGroupAddress_zeroRun
        (fun g hg ↦ hgroups g (List.mem_of_mem_take hg))
        (fun g hg ↦ hgroups g (List.mem_of_mem_drop hg)) hlength.symm (by omega) rest
      rw [← hsplit, hvalue] at hread
      simpa using hread
    · have hread := readGroupAddress_groups hgroups (length_fields 16 8 address)
        (delimited_slash rest)
      rwa [hvalue] at hread

theorem readAddress_addressText (n : Network) (rest : List Char) :
    readAddress n.family (addressText n.family n.address ++ '/' :: rest) =
      some (n.address, '/' :: rest) := by
  have h := n.address_lt
  cases hfamily : n.family with
  | v4 =>
    rw [hfamily] at h
    exact readQuad_quadText h (delimited_slash rest).stops.1
  | v6 =>
    rw [hfamily] at h
    exact readGroupAddress_groupAddressText h rest

/-- A block is read back from its text. -/
theorem ofText?_text (n : Network) : ofText? n.family n.text.toList = some n := by
  have hlength : read? 10 (lengthDigits n.family) (n.family.addressBits + 1)
      (Nat.toDigits 10 n.length) = some (n.length, []) := by
    have hle := n.length_le
    have hmost : 0 < lengthDigits n.family ∧ n.family.addressBits < 10 ^ lengthDigits n.family := by
      cases n.family <;> decide
    rw [← List.append_nil (Nat.toDigits 10 n.length)]
    exact read?_toDigits (by decide) (by decide) hmost.1 (Nat.lt_of_le_of_lt hle hmost.2)
      (Nat.lt_succ_of_le hle) (fun c hc ↦ absurd hc (by simp))
  rw [text, String.toList_ofList, ofText?]
  simp only [readAddress_addressText, hlength, bind, Option.bind]
  exact ofParts?_eq_some_iff.mpr ⟨rfl, rfl, rfl⟩

/-- Two blocks of one family with one text are the same. -/
theorem text_injective {m n : Network} (hfamily : m.family = n.family) (h : m.text = n.text) :
    m = n := by
  have hm := ofText?_text m
  rw [hfamily, h, ofText?_text n] at hm
  exact (Option.some.inj hm).symm

end AddressPlan.Network
