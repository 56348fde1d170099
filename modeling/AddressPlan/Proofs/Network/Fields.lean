import AddressPlan.Step
import AddressPlan.Proofs.Network.TopBits
import AddressPlan.Proofs.Network.WindowInWords
import Mathlib.Data.List.Perm.Basic

/-!
# Fields written into a window

Any run of writes into the window of a block, some carried out and some refused, leaves the bits
of the prefix at the top, the values written in their fields and zeros elsewhere.  A field is
refused exactly if it does not fit or meets the prefix or a field written before, so the mask of
the window tells what was written, and the order of the writes is not seen.
-/

namespace AddressPlan.BitWindow

open Network

/-- A number for a run of bits, which is counted from the top of a window. -/
structure Field where
  offset : UInt8
  width : UInt8
  value : UInt64
  deriving DecidableEq, Repr

namespace Field

def Has (f : Field) (i : Nat) : Prop :=
  f.offset.toNat ≤ i ∧ i < f.offset.toNat + f.width.toNat

/-- No bit is in both fields. -/
def Apart (f g : Field) : Prop :=
  ∀ i, f.Has i → ¬ g.Has i

theorem Apart.symm {f g : Field} (h : f.Apart g) : g.Apart f :=
  fun i hg hf ↦ h i hf hg

theorem has_add {f : Field} {j : Nat} (hj : j < f.width.toNat) : f.Has (f.offset.toNat + j) :=
  ⟨Nat.le_add_right _ _, Nat.add_lt_add_left hj _⟩

theorem Has.exists_add {f : Field} {i : Nat} (h : f.Has i) :
    ∃ j < f.width.toNat, i = f.offset.toNat + j :=
  ⟨i - f.offset.toNat, Nat.sub_lt_left_of_lt_add h.1 h.2, (Nat.add_sub_cancel' h.1).symm⟩

end Field

/-- Writes a field into the window at hand. -/
def put (f : Field) : Step BitWindow Unit := do
  let w ← Step.get
  let w' ← Step.ofExcept (w.write f.offset.toNat f.width.toNat f.value.toNat)
  Step.modify fun _ ↦ w'

/-- The window after an attempt to write each field. -/
def after (w : BitWindow) (fs : List Field) : BitWindow :=
  fs.foldl (fun w f ↦ ((put f).run w).2) w

/-- The fields that are not refused. -/
def written (w : BitWindow) : List Field → List Field
  | [] => []
  | f :: fs =>
    match (put f).run w with
    | (.ok (), w') => f :: written w' fs
    | (.error _, w') => written w' fs

/-- The field lies in the window, its value fits, and it meets neither the prefix of the block
nor any of the fields. -/
structure Free (n : Network) (fs : List Field) (f : Field) : Prop where
  window : f.offset.toNat + f.width.toNat ≤ n.family.windowBits
  value : f.value.toNat < 2 ^ f.width.toNat
  behind : ∀ i, f.Has i → n.length ≤ i
  apart : ∀ g ∈ fs, f.Apart g

/-- The window shows the prefix of the block at the top, every field at its place and zeros
elsewhere, and its mask tells these bits from the others. -/
structure Holds (w : BitWindow) (n : Network) (fs : List Field) : Prop where
  family : w.family = n.family
  length_le : n.length ≤ n.family.windowBits
  room : ∀ f ∈ fs, f.offset.toNat + f.width.toNat ≤ n.family.windowBits
  bits_lt : w.bits < 2 ^ n.family.windowBits
  leading : ∀ i < n.length,
    topBit n.family.windowBits w.bits i = topBit n.family.addressBits n.address i
  values : ∀ f ∈ fs, ∀ j < f.width.toNat,
    topBit n.family.windowBits w.bits (f.offset.toNat + j) =
      topBit f.width.toNat f.value.toNat j
  zeros : ∀ i < n.family.windowBits, n.length ≤ i → (∀ f ∈ fs, ¬ f.Has i) →
    topBit n.family.windowBits w.bits i = false
  claimed_lt : w.claimed < 2 ^ n.family.windowBits
  claimed : ∀ i < n.family.windowBits,
    topBit n.family.windowBits w.claimed i = true ↔ i < n.length ∨ ∃ f ∈ fs, f.Has i

variable {w w' : BitWindow} {n : Network} {fs gs : List Field} {f g : Field} {maskLength : Nat}

/-! ## One write -/

theorem run_put (f : Field) (w : BitWindow) :
    (put f).run w =
      match w.write f.offset.toNat f.width.toNat f.value.toNat with
      | .ok w' => (.ok (), w')
      | .error e => (.error e, w) := by
  unfold put
  rw [Step.run_bind, Step.run_get]
  dsimp only
  rw [Step.run_bind, Step.run_ofExcept]
  cases w.write f.offset.toNat f.width.toNat f.value.toNat with
  | ok w' => rfl
  | error e => rfl

theorem run_put_error {e : PlanError} (h : (put f).run w = (.error e, w')) : w' = w := by
  rw [run_put] at h
  split at h
  · cases h
  · cases h
    rfl

namespace Holds

theorem eq_false_of_free (h : w.Holds n fs) (hf : Free n fs f) {i : Nat} (hi : f.Has i) :
    topBit n.family.windowBits w.bits i = false :=
  h.zeros i (Nat.lt_of_lt_of_le hi.2 hf.window) (hf.behind i hi)
    fun g hg hgi ↦ hf.apart g hg i hi hgi

/-- The mask meets the field exactly if the prefix or another field does. -/
theorem claimed_and_eq_zero_iff (h : w.Holds n fs)
    (hroom : f.offset.toNat + f.width.toNat ≤ n.family.windowBits) :
    w.claimed &&& fieldMask n.family.windowBits f.offset.toNat f.width.toNat = 0 ↔
      (∀ i, f.Has i → n.length ≤ i) ∧ ∀ g ∈ fs, f.Apart g := by
  have hmask : fieldMask n.family.windowBits f.offset.toNat f.width.toNat <
      2 ^ n.family.windowBits :=
    Nat.lt_of_lt_of_le (fieldMask_lt hroom) (Nat.pow_le_pow_right Nat.two_pos (Nat.sub_le _ _))
  rw [and_eq_zero_iff hmask]
  constructor
  · intro hnone
    have hfree : ∀ i, f.Has i → ¬ (i < n.length ∨ ∃ g ∈ fs, g.Has i) := by
      intro i hfi hclaimed
      have hi := Nat.lt_of_lt_of_le hfi.2 hroom
      exact hnone i hi ⟨(h.claimed i hi).mpr hclaimed, (topBit_fieldMask hroom hi).mpr hfi⟩
    exact ⟨fun i hfi ↦ Nat.le_of_not_lt fun hlt ↦ hfree i hfi (Or.inl hlt),
      fun g hg i hfi hgi ↦ hfree i hfi (Or.inr ⟨g, hg, hgi⟩)⟩
  · rintro ⟨hbehind, hapart⟩ i hi ⟨hclaimed, hbit⟩
    have hfi := (topBit_fieldMask hroom hi).mp hbit
    rcases (h.claimed i hi).mp hclaimed with hleading | ⟨g, hg, hgi⟩
    · exact absurd (hbehind i hfi) (Nat.not_le.mpr hleading)
    · exact hapart g hg i hfi hgi

theorem write_eq_ok_iff (h : w.Holds n fs) :
    w.write f.offset.toNat f.width.toNat f.value.toNat = .ok w' ↔
      Free n fs f ∧ w' = w.withField f.offset.toNat f.width.toNat f.value.toNat := by
  rw [BitWindow.write_eq_ok_iff, h.family]
  constructor
  · rintro ⟨⟨hroom, hvalue, hmask⟩, hw'⟩
    obtain ⟨hbehind, hapart⟩ := (h.claimed_and_eq_zero_iff hroom).mp hmask
    exact ⟨⟨hroom, hvalue, hbehind, hapart⟩, hw'⟩
  · rintro ⟨hf, hw'⟩
    have hmask := (h.claimed_and_eq_zero_iff hf.window).mpr ⟨hf.behind, hf.apart⟩
    exact ⟨⟨hf.window, hf.value, hmask⟩, hw'⟩

/-- A field that is written joins the fields that the window holds. -/
theorem withField (h : w.Holds n fs) (hf : Free n fs f) :
    (w.withField f.offset.toNat f.width.toNat f.value.toNat).Holds n (fs ++ [f]) := by
  have hroom := hf.window
  have hpow : 2 ^ (n.family.windowBits - f.offset.toNat) ≤ 2 ^ n.family.windowBits :=
    Nat.pow_le_pow_right Nat.two_pos (Nat.sub_le _ _)
  have hbits : ∀ i < n.family.windowBits, ¬ f.Has i →
      topBit n.family.windowBits
          (w.bits ||| f.value.toNat <<< (n.family.windowBits - f.offset.toNat - f.width.toNat)) i =
        topBit n.family.windowBits w.bits i := by
    intro i hi houtside
    rw [topBit_or, topBit_shiftLeft_outside hroom hf.value hi houtside, Bool.or_false]
  unfold BitWindow.withField
  rw [h.family]
  refine ⟨rfl, h.length_le, ?_, ?_, fun i hi ↦ ?_, ?_, fun i hi hbehind hnone ↦ ?_, ?_,
    fun i hi ↦ ?_⟩
  · exact List.forall_mem_append.mpr ⟨h.room, List.forall_mem_singleton.mpr hroom⟩
  · exact Nat.or_lt_two_pow h.bits_lt (Nat.lt_of_lt_of_le (shiftLeft_lt hroom hf.value) hpow)
  · have houtside : ¬ f.Has i := fun hfi ↦ Nat.not_le.mpr hi (hf.behind i hfi)
    rw [hbits i (Nat.lt_of_lt_of_le hi h.length_le) houtside, h.leading i hi]
  · rw [List.forall_mem_append, List.forall_mem_singleton]
    refine ⟨fun g hg j hj ↦ ?_, fun j hj ↦ ?_⟩
    · have hgi := Field.has_add hj
      rw [hbits _ (Nat.lt_of_lt_of_le hgi.2 (h.room g hg)) fun hfi ↦ hf.apart g hg _ hfi hgi,
        h.values g hg j hj]
    · rw [topBit_or, h.eq_false_of_free hf (Field.has_add hj), Bool.false_or,
        topBit_shiftLeft hroom hj]
  · rw [List.forall_mem_append, List.forall_mem_singleton] at hnone
    rw [hbits i hi hnone.2, h.zeros i hi hbehind hnone.1]
  · exact Nat.or_lt_two_pow h.claimed_lt (Nat.lt_of_lt_of_le (fieldMask_lt hroom) hpow)
  · rw [topBit_or, Bool.or_eq_true, h.claimed i hi, topBit_fieldMask hroom hi, or_assoc]
    simp only [List.mem_append, List.mem_singleton, or_and_right, exists_or, exists_eq_left]
    rfl

/-- Windows that hold the same fields of a block have the same bits and the same mask. -/
theorem eq (h : w.Holds n fs) (h' : w'.Holds n gs) (hmem : ∀ f, f ∈ fs ↔ f ∈ gs)
    (hmask : w.maskLength = w'.maskLength) : w = w' := by
  have hbits : w.bits = w'.bits := by
    refine eq_of_topBit_eq h.bits_lt h'.bits_lt fun i hi ↦ ?_
    by_cases hleading : i < n.length
    · rw [h.leading i hleading, h'.leading i hleading]
    · by_cases hfield : ∃ f ∈ fs, f.Has i
      · obtain ⟨f, hf, hfi⟩ := hfield
        obtain ⟨j, hj, rfl⟩ := hfi.exists_add
        rw [h.values f hf j hj, h'.values f ((hmem f).mp hf) j hj]
      · have hnone : ∀ f ∈ fs, ¬ f.Has i := fun f hf hfi ↦ hfield ⟨f, hf, hfi⟩
        rw [h.zeros i hi (Nat.le_of_not_lt hleading) hnone,
          h'.zeros i hi (Nat.le_of_not_lt hleading) fun f hf ↦ hnone f ((hmem f).mpr hf)]
  have hclaimed : w.claimed = w'.claimed := by
    refine eq_of_topBit_eq h.claimed_lt h'.claimed_lt fun i hi ↦ ?_
    rw [Bool.eq_iff_iff, h.claimed i hi, h'.claimed i hi]
    simp only [hmem]
  obtain ⟨family, bits, claimed, mask⟩ := w
  obtain ⟨family', bits', claimed', mask'⟩ := w'
  obtain rfl : family = family' := h.family.trans h'.family.symm
  cases hbits
  cases hclaimed
  cases hmask
  rfl

end Holds

/-- The window over a block holds no field yet. -/
theorem holds_of_ofNetwork (h : ofNetwork n maskLength = .ok w) :
    w.Holds n [] ∧ w.maskLength = maskLength := by
  obtain ⟨⟨-, hshort⟩, rfl⟩ := ofNetwork_eq_ok_iff.mp h
  have hlimit := n.family.maskLimit_le_windowBits
  have hlength : 0 + n.length ≤ n.family.windowBits := by omega
  refine ⟨⟨rfl, by omega, nofun, base_shiftRight_lt n, fun i hi ↦ ?_, nofun,
    fun i hi hbehind _ ↦ ?_, fieldMask_lt hlength, fun i hi ↦ ?_⟩, rfl⟩
  · refine (topBit_base n (by omega)).trans ?_
    rw [decide_eq_true hi, Bool.true_and]
  · refine (topBit_base n hi).trans ?_
    rw [decide_eq_false (Nat.not_lt.mpr hbehind), Bool.false_and]
  · refine (topBit_fieldMask hlength hi).trans ?_
    simp

/-! ## Runs of writes -/

theorem free_append_iff : Free n (fs ++ [f]) g ↔ Free n fs g ∧ g.Apart f := by
  constructor
  · rintro ⟨hwindow, hvalue, hbehind, hapart⟩
    rw [List.forall_mem_append, List.forall_mem_singleton] at hapart
    exact ⟨⟨hwindow, hvalue, hbehind, hapart.1⟩, hapart.2⟩
  · rintro ⟨⟨hwindow, hvalue, hbehind, hapart⟩, hgf⟩
    refine ⟨hwindow, hvalue, hbehind, ?_⟩
    rw [List.forall_mem_append, List.forall_mem_singleton]
    exact ⟨hapart, hgf⟩

@[simp] theorem after_nil (w : BitWindow) : after w [] = w := rfl

theorem after_cons (w : BitWindow) (f : Field) (fs : List Field) :
    after w (f :: fs) = after ((put f).run w).2 fs := rfl

@[simp] theorem written_nil (w : BitWindow) : written w [] = [] := rfl

theorem written_cons_ok (h : (put f).run w = (.ok (), w')) (fs : List Field) :
    written w (f :: fs) = f :: written w' fs := by
  rw [written, h]

theorem written_cons_error {e : PlanError} (h : (put f).run w = (.error e, w'))
    (fs : List Field) : written w (f :: fs) = written w' fs := by
  rw [written, h]

namespace Holds

/-- A field is written, and joins those that the window holds, or it is refused, and the window
stays as it is. -/
theorem run_put_cases (h : w.Holds n fs) (f : Field) :
    (Free n fs f ∧ ∃ w', (put f).run w = (.ok (), w') ∧ w'.Holds n (fs ++ [f]) ∧
        w'.maskLength = w.maskLength) ∨
      (¬ Free n fs f ∧ ∃ e, (put f).run w = (.error e, w)) := by
  rw [run_put]
  cases hwrite : w.write f.offset.toNat f.width.toNat f.value.toNat with
  | ok w' =>
    obtain ⟨hf, rfl⟩ := h.write_eq_ok_iff.mp hwrite
    exact Or.inl ⟨hf, _, rfl, h.withField hf, rfl⟩
  | error e =>
    refine Or.inr ⟨fun hf ↦ ?_, e, rfl⟩
    have hok := h.write_eq_ok_iff.mpr ⟨hf, rfl⟩
    rw [hwrite] at hok
    cases hok

theorem exists_run_put_iff (h : w.Holds n fs) :
    (∃ w', (put f).run w = (.ok (), w')) ↔ Free n fs f := by
  rcases h.run_put_cases f with ⟨hf, w', hrun, -⟩ | ⟨hf, e, hrun⟩
  · exact iff_of_true ⟨w', hrun⟩ hf
  · refine iff_of_false ?_ hf
    rintro ⟨w', hok⟩
    rw [hrun] at hok
    cases hok

/-- After any run the window holds what was written. -/
theorem holds_after (h : w.Holds n fs) (gs : List Field) :
    (after w gs).Holds n (fs ++ written w gs) ∧ (after w gs).maskLength = w.maskLength := by
  induction gs generalizing w fs with
  | nil =>
    rw [written_nil, List.append_nil]
    exact ⟨h, rfl⟩
  | cons f gs ih =>
    rcases h.run_put_cases f with ⟨-, w', hrun, hw', hmask⟩ | ⟨-, e, hrun⟩
    · have hrest := ih hw'
      rw [after_cons, written_cons_ok hrun, hrun]
      rw [List.append_assoc] at hrest
      exact ⟨hrest.1, hrest.2.trans hmask⟩
    · rw [after_cons, written_cons_error hrun, hrun]
      exact ih h

/-- What was written was free in front of the run, and no two fields of it meet. -/
theorem free_written (h : w.Holds n fs) (gs : List Field) :
    (∀ f ∈ written w gs, Free n fs f) ∧ (written w gs).Pairwise Field.Apart := by
  induction gs generalizing w fs with
  | nil => exact ⟨nofun, .nil⟩
  | cons f gs ih =>
    rcases h.run_put_cases f with ⟨hf, w', hrun, hw', -⟩ | ⟨-, e, hrun⟩
    · obtain ⟨hfree, hpairwise⟩ := ih hw'
      rw [written_cons_ok hrun, List.forall_mem_cons, List.pairwise_cons]
      exact ⟨⟨hf, fun g hg ↦ (free_append_iff.mp (hfree g hg)).1⟩,
        fun g hg ↦ (free_append_iff.mp (hfree g hg)).2.symm, hpairwise⟩
    · rw [written_cons_error hrun]
      exact ih h

/-- Free fields that do not meet are all written. -/
theorem written_eq_self (h : w.Holds n fs) (hfree : ∀ f ∈ gs, Free n fs f)
    (hpairwise : gs.Pairwise Field.Apart) : written w gs = gs := by
  induction gs generalizing w fs with
  | nil => rfl
  | cons f gs ih =>
    obtain ⟨hf, hgs⟩ := List.forall_mem_cons.mp hfree
    obtain ⟨hapart, hpairwise⟩ := List.pairwise_cons.mp hpairwise
    rcases h.run_put_cases f with ⟨-, w', hrun, hw', -⟩ | ⟨hnot, -⟩
    · rw [written_cons_ok hrun, ih hw' (fun g hg ↦ ?_) hpairwise]
      exact free_append_iff.mpr ⟨hgs g hg, (hapart g hg).symm⟩
    · exact absurd hf hnot

/-- What a run wrote can be written in any order, with the same window in the end. -/
theorem perm (h : w.Holds n []) (hperm : gs.Perm (written w fs)) :
    written w gs = gs ∧ after w gs = after w fs := by
  obtain ⟨hfree, hpairwise⟩ := h.free_written fs
  have hall : written w gs = gs := by
    refine h.written_eq_self (fun f hf ↦ hfree f (hperm.mem_iff.mp hf)) ?_
    exact hperm.symm.pairwise hpairwise fun hfg ↦ hfg.symm
  obtain ⟨hgs, hmask⟩ := h.holds_after gs
  obtain ⟨hfs, hmask'⟩ := h.holds_after fs
  rw [hall] at hgs
  exact ⟨hall, hgs.eq hfs (fun f ↦ hperm.mem_iff) (hmask.trans hmask'.symm)⟩

end Holds

/-- Any run of writes from the window of a block.  The window holds the prefix of the block and
the fields that were written, in whatever order, and nothing else.  A field is written exactly
if it is free, and a field that is refused leaves the window as it is.  In words, no subtraction
and no shift goes wrong. -/
theorem run_of_writes (h : ofNetwork n maskLength = .ok w) (fs : List Field) :
    (after w fs).Holds n (written w fs) ∧ (after w fs).maskLength = maskLength ∧
      (∀ f, (∃ w', (put f).run (after w fs) = (.ok (), w')) ↔ Free n (written w fs) f) ∧
      (∀ f e w', (put f).run (after w fs) = (.error e, w') → w' = after w fs) ∧
      (∀ gs : List Field, gs.Perm (written w fs) →
        written w gs = gs ∧ after w gs = after w fs) ∧
      ofNetworkInWords? n maskLength = some (.ok w) ∧
      ∀ f : Field, (after w fs).writeInWords? f.offset.toNat f.width.toNat f.value.toNat =
        some ((after w fs).write f.offset.toNat f.width.toNat f.value.toNat) := by
  obtain ⟨hw, hmask⟩ := holds_of_ofNetwork h
  obtain ⟨hafter, hmask'⟩ := hw.holds_after fs
  rw [List.nil_append] at hafter
  refine ⟨hafter, hmask'.trans hmask, fun f ↦ hafter.exists_run_put_iff, fun f e w' ↦
    run_put_error, fun gs hperm ↦ hw.perm hperm, ?_, fun f ↦ ?_⟩
  · rw [ofNetworkInWords?_eq, h]
  · exact writeInWords?_eq _ f.offset.toNat_lt f.width.toNat_lt f.value.toNat_lt

/-- An address in 10.0.0.0/8 with a host bit. -/
def hostInTen : Network where
  family := .v4
  address := 10 * 2 ^ 24 + 1
  length := 8
  address_lt := by decide
  length_le := by decide

/-- Two fields and one without bits are free, the others meet one of them or the prefix, are too
narrow, or leave the window. -/
def mixedFields : List Field :=
  [⟨8, 8, 5⟩, ⟨12, 2, 1⟩, ⟨4, 5, 1⟩, ⟨4, 0, 0⟩, ⟨20, 1, 2⟩, ⟨24, 9, 1⟩, ⟨24, 8, 255⟩]

theorem run_of_writes_mixedFields :
    ∃ w, ofNetwork hostInTen 24 = .ok w ∧
      written w mixedFields = [⟨8, 8, 5⟩, ⟨4, 0, 0⟩, ⟨24, 8, 255⟩] ∧
      (after w mixedFields).Holds hostInTen (written w mixedFields) ∧
      (after w mixedFields).maskLength = 24 ∧
      (∀ f, (∃ w', (put f).run (after w mixedFields) = (.ok (), w')) ↔
        Free hostInTen (written w mixedFields) f) ∧
      (∀ f e w', (put f).run (after w mixedFields) = (.error e, w') →
        w' = after w mixedFields) ∧
      (∀ gs : List Field, gs.Perm (written w mixedFields) →
        written w gs = gs ∧ after w gs = after w mixedFields) ∧
      ofNetworkInWords? hostInTen 24 = some (.ok w) ∧
      ∀ f : Field,
        (after w mixedFields).writeInWords? f.offset.toNat f.width.toNat f.value.toNat =
          some ((after w mixedFields).write f.offset.toNat f.width.toNat f.value.toNat) := by
  have h : ofNetwork hostInTen 24 = .ok ⟨.v4, 0x0a000000, 0xff000000, 24⟩ := by decide +kernel
  exact ⟨_, h, by decide +kernel, run_of_writes h mixedFields⟩

/-- A single field may fill the window of the block of all addresses. -/
example : (put ⟨0, 64, 0xffffffffffffffff⟩).run ⟨.v6, 0, 0, 64⟩ =
    (.ok (), ⟨.v6, 2 ^ 64 - 1, 2 ^ 64 - 1, 64⟩) := by
  decide +kernel

end AddressPlan.BitWindow
