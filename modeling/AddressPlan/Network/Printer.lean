import AddressPlan.Network.Basic
import AddressPlan.Digits

/-!
# Writing blocks

IPv4 addresses are written as four decimal fields.  IPv6 addresses are written as
lower-case groups without leading zeros, the first of the longest runs of at least
two zero groups as `::`, and addresses that embed an IPv4 address keep its dots.
-/

namespace AddressPlan.Network

open Digits

def quadText (address : Nat) : List Char :=
  List.intercalate ['.'] ((fields 8 4 address).map (Nat.toDigits 10))

def groupsText (groups : List Nat) : List Char :=
  List.intercalate [':'] (groups.map (Nat.toDigits 16))

def leadingZeros (groups : List Nat) : Nat :=
  (groups.takeWhile (· == 0)).length

/-- Start and length of the first of the longest runs of zero groups. -/
def longestZeroRun (groups : List Nat) : Nat × Nat :=
  (List.range groups.length).foldl
    (fun best i ↦
      if best.2 < leadingZeros (groups.drop i) then (i, leadingZeros (groups.drop i)) else best)
    (0, 0)

/-- The value of the first six groups of an address that embeds an IPv4 address. -/
def embeddedHead : Nat := 0xffff

def groupAddressText (address : Nat) : List Char :=
  if address / Nat.pow 2 32 = embeddedHead then
    "::ffff:".toList ++ quadText (address % Nat.pow 2 32)
  else
    let groups := fields 16 8 address
    let (start, run) := longestZeroRun groups
    if 1 < run then
      groupsText (groups.take start) ++ "::".toList ++ groupsText (groups.drop (start + run))
    else groupsText groups

def addressText : Family → Nat → List Char
  | .v4 => quadText
  | .v6 => groupAddressText

/-- The written form of a block; host bits are kept. -/
def text (n : Network) : String :=
  String.ofList (addressText n.family n.address ++ '/' :: Nat.toDigits 10 n.length)

end AddressPlan.Network
