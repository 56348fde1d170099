/-!
# Digits and fields

An address is a number cut into fields of equal width, and a field is written in
decimal or hexadecimal digits.  Readers take a list of characters and return what
they leave over.
-/

namespace AddressPlan.Digits

def value? (b : Nat) (c : Char) : Option Nat :=
  let v :=
    if '0' ≤ c ∧ c ≤ '9' then c.toNat - '0'.toNat
    else if 'a' ≤ c ∧ c ≤ 'z' then c.toNat - 'a'.toNat + 10
    else if 'A' ≤ c ∧ c ≤ 'Z' then c.toNat - 'A'.toNat + 10
    else b
  if v < b then some v else none

def span (b : Nat) : List Char → List Nat × List Char
  | [] => ([], [])
  | c :: rest =>
    match value? b c with
    | some v => (v :: (span b rest).1, (span b rest).2)
    | none => ([], c :: rest)

def number (b : Nat) (digits : List Nat) : Nat :=
  digits.foldl (fun n d ↦ n * b + d) 0

/-- Reads a number below `limit` written in one to `most` digits.  All leading
digits belong to it, so a longer run is refused rather than cut. -/
def read? (b most limit : Nat) (text : List Char) : Option (Nat × List Char) :=
  let (digits, rest) := span b text
  if digits ≠ [] ∧ digits.length ≤ most ∧ number b digits < limit then
    some (number b digits, rest)
  else none

def decimal? (text : List Char) : Option Nat :=
  match span 10 text with
  | (d :: ds, []) => some (number 10 (d :: ds))
  | _ => none

def unsigned? : List Char → Option Nat
  | '+' :: text => decimal? text
  | text => decimal? text

def signed? : List Char → Option Int
  | '-' :: text => (decimal? text).map fun n ↦ -n
  | text => (unsigned? text).map fun n ↦ n

def fitsSigned (bits : Nat) (n : Int) : Bool :=
  -Int.ofNat (Nat.pow 2 (bits - 1)) ≤ n && n < Int.ofNat (Nat.pow 2 (bits - 1))

/-- The `count` lowest fields of `bits` bits, the most significant one first. -/
def fields (bits count n : Nat) : List Nat :=
  (List.range count).reverse.map fun i ↦ n / Nat.pow 2 (bits * i) % Nat.pow 2 bits

def ofFields (bits : Nat) (fs : List Nat) : Nat :=
  number (Nat.pow 2 bits) fs

theorem length_fields (bits count n : Nat) : (fields bits count n).length = count := by
  simp [fields]

theorem lt_of_mem_fields {bits count n f : Nat} (h : f ∈ fields bits count n) :
    f < Nat.pow 2 bits := by
  simp only [fields, List.mem_map] at h
  obtain ⟨i, _, rfl⟩ := h
  exact Nat.mod_lt _ (Nat.two_pow_pos _)

end AddressPlan.Digits
