import AddressPlan.Service.Body.Numeral

/-!
# Bodies as far as they can be read

A body is JSON.  A `Reading` is the value in front of a text up to the place where
the text stops being well formed, so that whoever walks through it in order meets
that place only after everything that stands before it.
-/

namespace AddressPlan.Service.Body

mutual
inductive Reading where
  | null
  | flag (b : Bool)
  | number (n : Numeral)
  /-- A text, unless it has an escaped surrogate without its partner. -/
  | text (s : Option String)
  | list (items : Items)
  | record (members : Members)
  | broken
  deriving Repr

inductive Items where
  | closed
  | broken
  | item (head : Reading) (rest : Items)
  deriving Repr

inductive Members where
  | closed
  | broken
  | member (name : Option String) (value : Reading) (rest : Members)
  deriving Repr
end

mutual
def Reading.isWhole : Reading → Bool
  | .broken => false
  | .list items => items.isWhole
  | .record members => members.isWhole
  | _ => true

def Items.isWhole : Items → Bool
  | .closed => true
  | .broken => false
  | .item head rest => head.isWhole && rest.isWhole

def Members.isWhole : Members → Bool
  | .closed => true
  | .broken => false
  | .member _ value rest => value.isWhole && rest.isWhole
end

namespace Reading

def isBlank (c : Char) : Bool :=
  c == ' ' || c == '\n' || c == '\t' || c == '\r'

def skipBlanks (cs : List Char) : List Char :=
  cs.dropWhile isBlank

def escape? : Char → Option Nat
  | '"' => some 34
  | '\\' => some 92
  | '/' => some 47
  | 'b' => some 8
  | 'f' => some 12
  | 'n' => some 10
  | 'r' => some 13
  | 't' => some 9
  | _ => none

def unit? (a b c d : Char) : Option Nat := do
  let digits ← [a, b, c, d].mapM (Digits.value? 16)
  return Digits.number 16 digits

/-- The codes up to the closing quote.  An escaped unit counts as a code of its own. -/
def readCodes? : List Char → Option (List Nat × List Char)
  | [] => none
  | '"' :: rest => some ([], rest)
  | '\\' :: 'u' :: a :: b :: c :: d :: rest =>
    match unit? a b c d, readCodes? rest with
    | some u, some (codes, rest) => some (u :: codes, rest)
    | _, _ => none
  | '\\' :: c :: rest =>
    match escape? c, readCodes? rest with
    | some code, some (codes, rest) => some (code :: codes, rest)
    | _, _ => none
  | c :: rest =>
    if c.toNat < 32 then none
    else (readCodes? rest).map fun (codes, rest) ↦ (c.toNat :: codes, rest)

def isHighSurrogate (u : Nat) : Bool :=
  0xD800 ≤ u && u < 0xDC00

def isLowSurrogate (u : Nat) : Bool :=
  0xDC00 ≤ u && u < 0xE000

def ofCodes? : List Nat → Option (List Char)
  | [] => some []
  | [u] =>
    if isHighSurrogate u || isLowSurrogate u then none else some [Char.ofNat u]
  | u :: v :: rest =>
    if isHighSurrogate u then
      if isLowSurrogate v then
        (ofCodes? rest).map (Char.ofNat (0x10000 + (u - 0xD800) * 1024 + (v - 0xDC00)) :: ·)
      else none
    else if isLowSurrogate u then none
    else (ofCodes? (v :: rest)).map (Char.ofNat u :: ·)

def readText? (cs : List Char) : Option (Option String × List Char) :=
  (readCodes? cs).map fun (codes, rest) ↦ ((ofCodes? codes).map String.ofList, rest)

mutual
def readValue (fuel : Nat) (cs : List Char) : Reading × Option (List Char) :=
  match fuel with
  | 0 => (.broken, none)
  | fuel + 1 =>
    match skipBlanks cs with
    | '"' :: cs =>
      match readText? cs with
      | some (s, cs) => (.text s, some cs)
      | none => (.broken, none)
    | '[' :: cs =>
      match skipBlanks cs with
      | ']' :: cs => (.list .closed, some cs)
      | cs => (readItems fuel cs).map .list id
    | '\x7b' :: cs =>
      match skipBlanks cs with
      | '\x7d' :: cs => (.record .closed, some cs)
      | cs => (readMembers fuel cs).map .record id
    | 'n' :: 'u' :: 'l' :: 'l' :: cs => (.null, some cs)
    | 't' :: 'r' :: 'u' :: 'e' :: cs => (.flag true, some cs)
    | 'f' :: 'a' :: 'l' :: 's' :: 'e' :: cs => (.flag false, some cs)
    | cs =>
      match Numeral.read? cs with
      | some (n, cs) => (.number n, some cs)
      | none => (.broken, none)

/-- Reads at least one item up to the closing bracket. -/
def readItems (fuel : Nat) (cs : List Char) : Items × Option (List Char) :=
  match fuel with
  | 0 => (.broken, none)
  | fuel + 1 =>
    match readValue fuel cs with
    | (head, none) => (.item head .broken, none)
    | (head, some cs) =>
      match skipBlanks cs with
      | ',' :: cs => (readItems fuel cs).map (.item head) id
      | ']' :: cs => (.item head .closed, some cs)
      | _ => (.item head .broken, none)

/-- Reads at least one member up to the closing brace.  A name that is not followed
by a colon and a value has a broken value. -/
def readMembers (fuel : Nat) (cs : List Char) : Members × Option (List Char) :=
  match fuel with
  | 0 => (.broken, none)
  | fuel + 1 =>
    match skipBlanks cs with
    | '"' :: cs =>
      match readText? cs with
      | none => (.broken, none)
      | some (name, cs) =>
        match skipBlanks cs with
        | ':' :: cs =>
          match readValue fuel cs with
          | (value, none) => (.member name value .broken, none)
          | (value, some cs) =>
            match skipBlanks cs with
            | ',' :: cs => (readMembers fuel cs).map (.member name value) id
            | '\x7d' :: cs => (.member name value .closed, some cs)
            | _ => (.member name value .broken, none)
        | _ => (.member name .broken .broken, none)
    | _ => (.broken, none)
end

/-- The value in front of a text.  What stands behind it does not matter.  Every
character makes for at most two steps of reading. -/
def ofText (text : String) : Reading :=
  (readValue (2 * text.toList.length + 2) text.toList).1

end Reading

end AddressPlan.Service.Body
