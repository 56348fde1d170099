import AddressPlan.Digits

/-!
# Numbers in a body

A number is a whole number if it is written without fraction and exponent and has at
most 64 bits.  Any other number is held in double precision, and one that is too
large for that cannot be read at all.
-/

namespace AddressPlan.Service.Body

inductive Numeral where
  | whole (n : Int)
  | inexact
  | tooLarge
  deriving DecidableEq, Repr

namespace Numeral

structure Parts where
  negative : Bool
  integer : List Nat
  fraction : Option (List Nat)
  /-- The sign of the exponent, true if it is negative, and its digits. -/
  exponent : Option (Bool × List Nat)
  deriving DecidableEq, Repr

/-- A double has 53 significant bits. -/
def precision : Nat := 53

/-- The nearest number with 53 significant bits; a tie goes to the even one. -/
def nearest (n : Nat) : Nat :=
  let excess := n.log2 + 1 - precision
  let step := Nat.pow 2 excess
  let low := n / step
  let rest := n % step
  if step < 2 * rest ∨ (2 * rest = step ∧ low % 2 = 1) then (low + 1) * step else low * step

/-- Whether a number rounds to nothing smaller than the power of two that doubles
cannot hold. -/
def exceedsDouble (n : Nat) : Bool :=
  Nat.pow 2 1024 ≤ nearest n

/-- Appends digits to a significand of 64 bits until one would overflow it, and tells
how many digits are left. -/
def append (significand : Nat) : List Nat → Nat × Nat
  | [] => (significand, 0)
  | d :: ds =>
    if Nat.pow 2 64 ≤ significand * 10 + d then (significand, ds.length + 1)
    else append (significand * 10 + d) ds

def largestPower : Nat := 308

def overflows (significand : Nat) (exponent : Int) : Bool :=
  if significand = 0 ∨ exponent < 0 then false
  else if largestPower < exponent then true
  else exceedsDouble (nearest significand * nearest (Nat.pow 10 exponent.toNat))

/-- A number without fraction and exponent.  Minus zero is not a whole number. -/
def ofInteger (negative : Bool) (significand : Nat) : Numeral :=
  if negative then
    if significand = 0 ∨ Nat.pow 2 63 < significand then inexact else whole (-significand)
  else whole significand

def ofParts (p : Parts) : Numeral :=
  let (significand, dropped) := append 0 p.integer
  match p.fraction, p.exponent, dropped with
  | none, none, 0 => ofInteger p.negative significand
  | _, _, _ =>
    let fraction := p.fraction.getD []
    let (significand, ignored) := append significand fraction
    let scale : Int := dropped - (fraction.length - ignored : Nat)
    let (down, exponent) : Bool × Nat :=
      match p.exponent with
      | some (down, digits) => (down, Digits.number 10 digits)
      | none => (false, 0)
    if Nat.pow 2 31 ≤ exponent then
      if significand ≠ 0 ∧ !down then tooLarge else inexact
    else if overflows significand (if down then scale - exponent else scale + exponent) then
      tooLarge
    else inexact

def readDigits? (cs : List Char) : Option (List Nat × List Char) :=
  match Digits.span 10 cs with
  | ([], _) => none
  | found => some found

/-- The digits in front of a fraction; only zero starts with a zero. -/
def readInteger? (cs : List Char) : Option (List Nat × List Char) := do
  let (digits, rest) ← readDigits? cs
  match digits with
  | 0 :: _ :: _ => none
  | _ => some (digits, rest)

def readFraction? : List Char → Option (Option (List Nat) × List Char)
  | '.' :: cs => (readDigits? cs).map fun (digits, rest) ↦ (some digits, rest)
  | cs => some (none, cs)

def readExponent? (cs : List Char) : Option (Option (Bool × List Nat) × List Char) :=
  let signed (cs : List Char) : Option (Option (Bool × List Nat) × List Char) :=
    let (down, cs) := match cs with
      | '+' :: cs => (false, cs)
      | '-' :: cs => (true, cs)
      | cs => (false, cs)
    (readDigits? cs).map fun (digits, rest) ↦ (some (down, digits), rest)
  match cs with
  | 'e' :: cs => signed cs
  | 'E' :: cs => signed cs
  | cs => some (none, cs)

def read? (cs : List Char) : Option (Numeral × List Char) := do
  let (negative, cs) := match cs with
    | '-' :: cs => (true, cs)
    | cs => (false, cs)
  let (integer, cs) ← readInteger? cs
  let (fraction, cs) ← readFraction? cs
  let (exponent, cs) ← readExponent? cs
  return (ofParts { negative, integer, fraction, exponent }, cs)

end Numeral

end AddressPlan.Service.Body
