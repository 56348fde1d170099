/-!
# Words

A word of some bits holds the numbers below a power of two.  What is too large for a word, or
negative, is wrapped around: only its lowest bits are left.  Each operation whose name ends in a
question mark has a result only if nothing is lost, neither by wrapping around nor by a shift as
long as the word.
-/

namespace AddressPlan.Word

/-- The word that has the lowest bits of a number. -/
def wrap (bits : Nat) (n : Int) : Nat :=
  (n % Int.ofNat (Nat.pow 2 bits)).toNat

def add (bits a b : Nat) : Nat :=
  wrap bits (a + b)

def sub (bits a b : Nat) : Nat :=
  wrap bits (a - b)

/-- The number as a word, if it is one. -/
def fit? (bits n : Nat) : Option Nat :=
  if n < Nat.pow 2 bits then some n else none

/-- The integer as a word, if it is one. -/
def ofInt? (bits : Nat) (n : Int) : Option Nat :=
  if 0 ≤ n then fit? bits n.toNat else none

def add? (bits a b : Nat) : Option Nat :=
  fit? bits (a + b)

def sub? (a b : Nat) : Option Nat :=
  if b ≤ a then some (a - b) else none

def mul? (bits a b : Nat) : Option Nat :=
  fit? bits (a * b)

/-- Bits that leave the word are lost. -/
def shiftLeft? (bits a amount : Nat) : Option Nat :=
  if amount < bits then some (a <<< amount % Nat.pow 2 bits) else none

def shiftRight? (bits a amount : Nat) : Option Nat :=
  if amount < bits then some (a >>> amount) else none

end AddressPlan.Word
