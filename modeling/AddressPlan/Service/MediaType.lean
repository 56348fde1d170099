/-!
# Media types

A body is read if its declared type is `application/json` or an `application` type
with the suffix `json`.
-/

namespace AddressPlan.Service.MediaType

def isTokenChar (c : Char) : Bool :=
  c.isAlphanum || "!#$%&'*+-.^_".toList.contains c || c == '\x60' || c == '|' || c == '~'

/-- A quoted value may hold every visible character, the closing quote apart. -/
def isQuotedChar (c : Char) : Bool :=
  31 < c.toNat && c.toNat < 127

/-- Whether a quoted value ends properly and what stands behind its closing quote.
The first character always belongs to the value. -/
def afterQuoted? : (first : Bool) → List Char → Option (List Char)
  | _, [] => none
  | first, c :: rest =>
    if c = '"' ∧ !first then some rest
    else if isQuotedChar c then afterQuoted? false rest
    else none

/-- What stands behind a parameter and its semicolon: nothing if it was the last
one, and no answer if it is malformed. -/
def afterParameter? (cs : List Char) : Option (List Char) :=
  match cs.span isTokenChar with
  | (_ :: _, '=' :: '"' :: rest) => do
    match (← afterQuoted? true rest).dropWhile (· == ' ') with
    | [] => some []
    | ';' :: rest => some rest
    | _ => none
  | (_ :: _, '=' :: rest) =>
    match rest.span isTokenChar with
    | (_, []) => some []
    | (_ :: _, ';' :: rest) => some rest
    | _ => none
  | _ => none

/-- Parameters separated by semicolons, each with blanks in front; the last one may
be missing. -/
def parametersFit : (fuel : Nat) → List Char → Bool
  | 0, cs => cs.isEmpty
  | fuel + 1, cs =>
    match cs.dropWhile (· == ' ') with
    | [] => true
    | cs => (afterParameter? cs).any (parametersFit fuel)

/-- Type and subtype in lower case, if the text is a media type.  The subtype keeps
its suffix. -/
def parse? (text : String) : Option (List Char × List Char) :=
  match text.toList.span isTokenChar with
  | (kind@(_ :: _), '/' :: rest) =>
    match rest.span isTokenChar with
    | (subtype@(_ :: _), []) => some (kind.map Char.toLower, subtype.map Char.toLower)
    | (subtype@(_ :: _), ';' :: parameters) =>
      if parametersFit parameters.length parameters then
        some (kind.map Char.toLower, subtype.map Char.toLower)
      else none
    | _ => none
  | _ => none

/-- A subtype without its suffix and the suffix, which stands behind the last plus
sign but the one in front. -/
def suffixed (subtype : List Char) : List Char × Option (List Char) :=
  let suffix := (subtype.drop 1).reverse.takeWhile (· != '+')
  if suffix.length = (subtype.drop 1).length then (subtype, none)
  else (subtype.take (subtype.length - suffix.length - 1), some suffix.reverse)

def isJson (declared : Option String) : Bool :=
  match declared.bind parse? with
  | none => false
  | some (kind, subtype) =>
    let (main, suffix) := suffixed subtype
    kind == "application".toList &&
      (main == "json".toList || suffix == some "json".toList)

end AddressPlan.Service.MediaType
