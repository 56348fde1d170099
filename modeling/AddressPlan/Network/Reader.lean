import AddressPlan.Network.Basic
import AddressPlan.Digits

/-!
# Reading blocks

The syntax is `address/length` with nothing around it.  An IPv4 address is four
decimal fields; an IPv6 address is eight hexadecimal groups, where a dotted IPv4
address may stand for the last two and one `::` for a run of zero groups.
-/

namespace AddressPlan.Network

open Digits

def readQuad (text : List Char) : Option (Nat × List Char) := do
  let (a, text) ← read? 10 3 256 text
  let '.' :: text := text | none
  let (b, text) ← read? 10 3 256 text
  let '.' :: text := text | none
  let (c, text) ← read? 10 3 256 text
  let '.' :: text := text | none
  let (d, text) ← read? 10 3 256 text
  pure (ofFields 8 [a, b, c, d], text)

/-- The groups that were read, whether the last two came from a dotted address,
and the text behind them. -/
structure Groups where
  groups : List Nat
  dotted : Bool
  rest : List Char
  deriving DecidableEq, Repr

/-- Reads as many groups as fit into `free`.  Each one but the first has a colon
in front, and a dotted address is tried wherever two groups are still free. -/
def readGroups : (free : Nat) → (first : Bool) → List Char → Groups
  | 0, _, text => ⟨[], false, text⟩
  | free + 1, first, text =>
    let body? := match first, text with
      | true, text => some text
      | false, ':' :: text => some text
      | false, _ => none
    match body? with
    | none => ⟨[], false, text⟩
    | some body =>
      match if free = 0 then none else readQuad body with
      | some (quad, rest) => ⟨fields 16 2 quad, true, rest⟩
      | none =>
        match read? 16 4 65536 body with
        | none => ⟨[], false, text⟩
        | some (group, rest) =>
          let more := readGroups free false rest
          { more with groups := group :: more.groups }

def readGroupAddress (text : List Char) : Option (Nat × List Char) :=
  let head := readGroups 8 true text
  if head.groups.length = 8 then
    some (ofFields 16 head.groups, head.rest)
  else if head.dotted then none
  else match head.rest with
    | ':' :: ':' :: rest =>
      let free := 8 - head.groups.length
      let tail := readGroups free true rest
      let zeros := List.replicate (free - tail.groups.length) 0
      some (ofFields 16 (head.groups ++ zeros ++ tail.groups), tail.rest)
    | _ => none

def readAddress : Family → List Char → Option (Nat × List Char)
  | .v4 => readQuad
  | .v6 => readGroupAddress

/-- How many digits a prefix length may be written in. -/
def lengthDigits : Family → Nat
  | .v4 => 2
  | .v6 => 3

def ofText? (family : Family) (text : List Char) : Option Network := do
  let (address, text) ← readAddress family text
  let '/' :: text := text | none
  let (length, []) ← read? 10 (lengthDigits family) (family.addressBits + 1) text | none
  ofParts? family address length

def parse? (text : String) : Option Network :=
  (ofText? .v4 text.toList).or (ofText? .v6 text.toList)

end AddressPlan.Network
