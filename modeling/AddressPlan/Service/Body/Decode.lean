import AddressPlan.Service.Body.Reading

/-!
# From readings to requests

A body is refused at the first fault in reading order.  The fault is one of syntax
where the text breaks off, and one of shape where a value is not what is asked for.
-/

namespace AddressPlan.Service.Body

inductive Fault where
  | syntactic
  | shape
  deriving DecidableEq, Repr

abbrev Decoded (α : Type) : Type :=
  Except Fault α

/-- The fault of a value that is not of the kind asked for.  Lists and records show
their kind at once; anything else has to be read first. -/
def unexpected : Reading → Fault
  | .number .tooLarge => .syntactic
  | .text none => .syntactic
  | .broken => .syntactic
  | _ => .shape

def flag : Reading → Decoded Bool
  | .flag b => .ok b
  | r => .error (unexpected r)

def text : Reading → Decoded String
  | .text (some s) => .ok s
  | r => .error (unexpected r)

def optionalText : Reading → Decoded (Option String)
  | .null => .ok none
  | r => (text r).map some

def integer (inRange : Int → Bool) : Reading → Decoded Int
  | .number (.whole n) => if inRange n then .ok n else .error .shape
  | r => .error (unexpected r)

def items {α : Type} (item : Reading → Decoded α) : Items → Decoded (List α)
  | .closed => .ok []
  | .broken => .error .syntactic
  | .item head rest => do
    let first ← item head
    let others ← items item rest
    return first :: others

def listOf {α : Type} (item : Reading → Decoded α) : Reading → Decoded (List α)
  | .list is => items item is
  | r => .error (unexpected r)

/-- A field of a record: its name, whether it has to be there, and how its value is
entered. -/
structure Field (α : Type) where
  name : String
  required : Bool := false
  enter : Reading → α → Decoded α

namespace Field

variable {α : Type}

/-- Enters the members of a record, and tells which fields were named.  Members that
are no fields are passed over; no field may be named twice. -/
def members (fields : List (Field α)) :
    List String → α → Members → Decoded (List String × α)
  | named, a, .closed => .ok (named, a)
  | _, _, .broken => .error .syntactic
  | _, _, .member none _ _ => .error .syntactic
  | named, a, .member (some name) value rest =>
    match fields.find? (·.name == name) with
    | none => if value.isWhole then members fields named a rest else .error .syntactic
    | some field =>
      if named.contains name then .error .shape
      else do
        let a ← field.enter value a
        members fields (name :: named) a rest

def positional : List (Field α) → α → Items → Decoded α
  | fields, a, .closed => if fields.any Field.required then .error .shape else .ok a
  | _, _, .broken => .error .syntactic
  | [], _, .item _ _ => .error .syntactic
  | field :: fields, a, .item head rest => do
    let a ← field.enter head a
    positional fields a rest

/-- A record, which may also be written as the list of its fields. -/
def record (fields : List (Field α)) (blank : α) : Reading → Decoded α
  | .record ms => do
    let (named, a) ← members fields [] blank ms
    if fields.any fun field ↦ field.required && !named.contains field.name then
      throw .shape
    return a
  | .list is => positional fields blank is
  | r => .error (unexpected r)

def of {β : Type} (name : String) (required : Bool) (decode : Reading → Decoded β)
    (put : β → α → α) : Field α where
  name
  required
  enter value a := (decode value).map (put · a)

end Field

end AddressPlan.Service.Body
