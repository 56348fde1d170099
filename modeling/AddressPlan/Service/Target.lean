import AddressPlan.Digits
import AddressPlan.Network.Basic
import AddressPlan.Separated

/-!
# Request targets

A target is a path and an optional query, possibly behind the scheme and the authority
of a service.  Path parameters are ids; the query may name an address family.
-/

namespace AddressPlan.Service

open Separated

inductive Route where
  | health
  | plans
  | plan (id : String)
  | planLayouts (id : String)
  | layout (id : String)
  | report (id : String)
  deriving DecidableEq, Repr

/-- The route of a path.  An id in front of more path may be empty, a last one may
not. -/
def Route.ofPath? (path : List Char) : Option Route :=
  match (split '/' path).map String.ofList with
  | ["", "api", "health"] => some .health
  | ["", "api", "plans"] => some .plans
  | ["", "api", "plans", id] => if id = "" then none else some (.plan id)
  | ["", "api", "plans", id, "layouts"] => some (.planLayouts id)
  | ["", "api", "layouts", id] => if id = "" then none else some (.layout id)
  | ["", "api", "layouts", id, "report"] => some (.report id)
  | _ => none

namespace Target

/-- The text with its escapes `%xx` replaced.  A percent sign without two hexadecimal
digits stands for itself.  There is no answer if an escape leaves ASCII, because
nothing that is accepted does. -/
def unescape? : List Char → Option (List Char)
  | [] => some []
  | '%' :: a :: b :: rest =>
    match Digits.value? 16 a, Digits.value? 16 b with
    | some x, some y =>
      if x < 8 then (unescape? rest).map (Char.ofNat (x * 16 + y) :: ·) else none
    | _, _ => (unescape? (a :: b :: rest)).map ('%' :: ·)
  | c :: rest => (unescape? rest).map (c :: ·)

def id? (segment : String) : Option Int := do
  let id ← Digits.signed? (← unescape? segment.toList)
  if Digits.fitsSigned 64 id then some id else none

/-- A target from its path on.  Scheme and authority go up to the first character
that cannot be in them. -/
def withoutAuthority (target : List Char) : List Char :=
  let opensPath (c : Char) : Bool := c == '/' || c == '?' || c == '#'
  match target.dropWhile fun c ↦ c != ':' && !opensPath c with
  | ':' :: '/' :: '/' :: rest => rest.dropWhile (!opensPath ·)
  | _ => target

def pathAndQuery (target : String) : List Char × List Char :=
  let whole := (withoutAuthority target.toList).takeWhile (· != '#')
  (splitFirst? '?' whole).getD (whole, [])

def parameters (query : List Char) : List (Option (List Char) × Option (List Char)) :=
  let plain (cs : List Char) : Option (List Char) :=
    unescape? (cs.map fun c ↦ if c = '+' then ' ' else c)
  ((split '&' query).filter (· ≠ [])).map fun piece ↦
    let (name, value) := (splitFirst? '=' piece).getD (piece, [])
    (plain name, plain value)

/-- Why a query is not accepted: the family is unknown or named twice. -/
inductive QueryFault where
  | unknownFamily
  | repeatedFamily
  deriving DecidableEq, Repr

def familyOfText? (text : List Char) : Option Family :=
  if text = "v4".toList then some .v4
  else if text = "v6".toList then some .v6
  else none

def family (query : List Char) : Except QueryFault (Option Family) :=
  match (parameters query).filter fun (name, _) ↦ name == some "family".toList with
  | [] => .ok none
  | [(_, value)] =>
    match value.bind familyOfText? with
    | some f => .ok (some f)
    | none => .error .unknownFamily
  | _ => .error .repeatedFamily

end Target

end AddressPlan.Service
