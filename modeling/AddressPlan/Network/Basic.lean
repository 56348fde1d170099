/-!
# Address blocks

A block is an address of one family together with a prefix length.  The address
may carry host bits; `Network.base` clears them.
-/

namespace AddressPlan

inductive Family where
  | v4
  | v6
  deriving DecidableEq, Repr, Inhabited

namespace Family

def addressBits : Family → Nat
  | v4 => 32
  | v6 => 128

/-- The leading bits of an address in which segments are numbered: a whole IPv4
address, the routing half of an IPv6 address. -/
def windowBits : Family → Nat
  | v4 => 32
  | v6 => 64

/-- The longest prefix that segments may be numbered down to. -/
def maskLimit : Family → Nat
  | v4 => 24
  | v6 => 64

theorem maskLimit_le_windowBits (f : Family) : f.maskLimit ≤ f.windowBits := by
  cases f <;> decide

theorem windowBits_le (f : Family) : f.windowBits ≤ 64 := by
  cases f <;> decide

theorem maskLimit_le (f : Family) : f.maskLimit ≤ 64 :=
  Nat.le_trans f.maskLimit_le_windowBits f.windowBits_le

theorem windowBits_le_addressBits (f : Family) : f.windowBits ≤ f.addressBits := by
  cases f <;> decide

end Family

structure Network where
  family : Family
  address : Nat
  length : Nat
  address_lt : address < Nat.pow 2 family.addressBits
  length_le : length ≤ family.addressBits
  deriving DecidableEq, Repr

namespace Network

def ofParts? (family : Family) (address length : Nat) : Option Network :=
  if h : address < Nat.pow 2 family.addressBits ∧ length ≤ family.addressBits then
    some ⟨family, address, length, h.1, h.2⟩
  else none

theorem ofParts?_eq_some_iff {family : Family} {address length : Nat} {n : Network} :
    ofParts? family address length = some n ↔
      n.family = family ∧ n.address = address ∧ n.length = length := by
  constructor
  · intro h
    unfold ofParts? at h
    split at h
    · cases h
      exact ⟨rfl, rfl, rfl⟩
    · cases h
  · rintro ⟨rfl, rfl, rfl⟩
    rw [ofParts?, dif_pos ⟨n.address_lt, n.length_le⟩]

def size (n : Network) : Nat :=
  Nat.pow 2 (n.family.addressBits - n.length)

/-- The block with its host bits cleared. -/
def base (n : Network) : Network where
  family := n.family
  address := n.address / n.size * n.size
  length := n.length
  address_lt := Nat.lt_of_le_of_lt (Nat.div_mul_le_self _ _) n.address_lt
  length_le := n.length_le

@[simp] theorem base_family (n : Network) : n.base.family = n.family := rfl

@[simp] theorem base_length (n : Network) : n.base.length = n.length := rfl

@[simp] theorem base_size (n : Network) : n.base.size = n.size := rfl

theorem size_pos (n : Network) : 0 < n.size := Nat.two_pow_pos _

@[simp] theorem base_base (n : Network) : n.base.base = n.base := by
  simp only [base, Network.mk.injEq, true_and, and_true]
  change n.address / n.size * n.size / n.size * n.size = _
  rw [Nat.mul_div_cancel _ n.size_pos]

def Contains (outer inner : Network) : Prop :=
  outer.family = inner.family ∧ outer.length ≤ inner.length ∧
    inner.address / outer.size = outer.address / outer.size

instance (outer inner : Network) : Decidable (Contains outer inner) :=
  inferInstanceAs (Decidable (_ ∧ _ ∧ _))

end Network

end AddressPlan
