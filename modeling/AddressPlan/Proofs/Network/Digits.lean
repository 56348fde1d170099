import AddressPlan.Digits
import Mathlib.Algebra.Group.Nat.Defs
import Mathlib.Data.List.Induction
import Mathlib.Tactic.IntervalCases

/-!
# Digits and fields are read back

A number written in digits is read back from the front of a text, as long as what follows
does not go on with a digit.  A number below the limit of its fields is made up of them.
-/

namespace AddressPlan.Digits

variable {b most limit n d : Nat} {ds : List Nat}
  {text rest : List Char}

/-- The text does not begin with a digit. -/
def Stops (b : Nat) (text : List Char) : Prop :=
  ∀ c ∈ text.head?, value? b c = none

theorem value?_digitChar (hb : b ≤ 16) (hd : d < b) : value? b d.digitChar = some d := by
  have hlt : d < 16 := Nat.lt_of_lt_of_le hd hb
  interval_cases d <;> exact if_pos hd

theorem span_of_stops (h : Stops b text) : span b text = ([], text) := by
  cases text with
  | nil => rfl
  | cons c rest => simp only [span, h c rfl]

theorem span_append (hb : b ≤ 16) (hds : ∀ d ∈ ds, d < b) (h : Stops b text) :
    span b (ds.map Nat.digitChar ++ text) = (ds, text) := by
  induction ds with
  | nil => exact span_of_stops h
  | cons d ds ih =>
    rw [List.map_cons, List.cons_append, span, value?_digitChar hb (hds d List.mem_cons_self),
      ih fun e he ↦ hds e (List.mem_cons_of_mem d he)]

theorem number_append (b : Nat) (ds : List Nat) (d : Nat) :
    number b (ds ++ [d]) = number b ds * b + d := by
  rw [number, List.foldl_append]
  rfl

theorem number_cons (b d : Nat) (ds : List Nat) :
    number b (d :: ds) = d * b ^ ds.length + number b ds := by
  induction ds using List.reverseRecOn with
  | nil => simp [number]
  | append_singleton ds e ih =>
    rw [← List.cons_append, number_append, number_append, ih, List.length_append,
      List.length_singleton, Nat.pow_succ, Nat.add_mul, Nat.mul_assoc, Nat.add_assoc]

theorem exists_digits (hb : 1 < b) (n : Nat) :
    ∃ ds, Nat.toDigits b n = ds.map Nat.digitChar ∧ (∀ d ∈ ds, d < b) ∧ number b ds = n := by
  induction n using Nat.strongRecOn with
  | _ n ih =>
    rw [Nat.toDigits_eq_if hb]
    split
    · rename_i hlt
      exact ⟨[n], rfl, fun d hd ↦ List.mem_singleton.mp hd ▸ hlt, by simp [number]⟩
    · rename_i hge
      obtain ⟨ds, htext, hlt, hnumber⟩ := ih (n / b) (Nat.div_lt_self (by omega) hb)
      refine ⟨ds ++ [n % b], by rw [htext, List.map_append, List.map_singleton], ?_, ?_⟩
      · intro d hd
        rcases List.mem_append.mp hd with hd | hd
        · exact hlt d hd
        · exact List.mem_singleton.mp hd ▸ Nat.mod_lt n (by omega)
      · rw [number_append, hnumber, Nat.div_add_mod']

/-- A number is read back from its digits. -/
theorem read?_toDigits (hb : 1 < b) (hb' : b ≤ 16) (hmost : 0 < most) (hn : n < b ^ most)
    (hlimit : n < limit) (h : Stops b text) :
    read? b most limit (Nat.toDigits b n ++ text) = some (n, text) := by
  obtain ⟨ds, htext, hlt, hnumber⟩ := exists_digits hb n
  have hlength : ds.length ≤ most := by
    rw [← List.length_map (f := Nat.digitChar), ← htext]
    exact (Nat.length_toDigits_le_iff hb hmost).mpr hn
  have hne : ds ≠ [] := by
    rintro rfl
    exact Nat.toDigits_ne_nil htext
  rw [read?, htext, span_append hb' hlt h]
  simp only [hnumber]
  rw [if_pos ⟨hne, hlength, hlimit⟩]

theorem read?_rest (h : read? b most limit text = some (n, rest)) : rest = (span b text).2 := by
  unfold read? at h
  rcases hspan : span b text with ⟨ds, behind⟩
  rw [hspan] at h
  dsimp only at h
  split at h
  · cases h
    rfl
  · cases h

theorem read?_of_stops (h : Stops b text) : read? b most limit text = none := by
  rw [read?, span_of_stops h]
  simp

theorem fields_succ (bits count n : Nat) :
    fields bits (count + 1) n = n / 2 ^ (bits * count) % 2 ^ bits :: fields bits count n := by
  simp [fields, List.range_succ]

/-- The lowest fields of a number make up its rest. -/
theorem ofFields_fields (bits count n : Nat) :
    ofFields bits (fields bits count n) = n % 2 ^ (bits * count) := by
  induction count with
  | zero => simp [fields, ofFields, number, Nat.mod_one]
  | succ count ih =>
    rw [fields_succ, ofFields, number_cons, length_fields]
    change _ * (2 ^ bits) ^ count + ofFields bits (fields bits count n) = _
    rw [ih, ← Nat.pow_mul, Nat.mul_succ, Nat.pow_add, Nat.mod_mul, Nat.mul_comm, Nat.add_comm]

theorem ofFields_fields_of_lt (bits count : Nat) (h : n < 2 ^ (bits * count)) :
    ofFields bits (fields bits count n) = n := by
  rw [ofFields_fields, Nat.mod_eq_of_lt h]

end AddressPlan.Digits
