import AddressPlan.Layout.Basic
import AddressPlan.Plan
import AddressPlan.Report.Row

/-!
# Responses

What a request is answered with, and the documents that show plans, layouts and
report rows.
-/

namespace AddressPlan.Service

inductive Status where
  | ok
  | created
  | noContent
  | badRequest
  | notFound
  | methodNotAllowed
  | conflict
  | contentTooLarge
  | unsupportedMediaType
  | unprocessable
  | internal
  deriving DecidableEq, Repr

def Status.code : Status → Nat
  | ok => 200
  | created => 201
  | noContent => 204
  | badRequest => 400
  | notFound => 404
  | methodNotAllowed => 405
  | conflict => 409
  | contentTooLarge => 413
  | unsupportedMediaType => 415
  | unprocessable => 422
  | internal => 500

inductive Document where
  | flag (b : Bool)
  | number (n : Int)
  | text (s : String)
  | list (items : List Document)
  | record (fields : List (String × Document))
  /-- A time that the clock of the service fills in. -/
  | moment
  deriving Repr

inductive Content where
  | empty
  | notice
  | document (d : Document)
  deriving Repr

structure Response where
  status : Status
  content : Content := .empty
  deriving Repr

namespace Document

def ofPlan (plan : Plan) : Document :=
  .record ([("id", .number plan.id), ("prefix", .text plan.cidr),
      ("mask_len", .number plan.maskLength)] ++
    (plan.description.map fun text ↦ ("description", .text text)).toList ++
    (plan.layoutCount.map fun (n : Nat) ↦ ("layout_count", .number n)).toList ++
    [("created_at", .moment), ("updated_at", .moment)])

def ofNode (n : Node) : Document :=
  .record [("id", .number n.id), ("layout_id", .number n.layoutId), ("pid", .number n.parentId),
    ("name", .text n.name), ("prefix", .text n.cidr), ("sequence", .number n.sequence),
    ("bit_width", .number n.bitWidth), ("value", .number n.value), ("ipv4", .text n.literals),
    ("modified", .flag n.modified)]

def ofLayout (header : LayoutHeader) (nodes : List Node) : Document :=
  .record [("id", .number header.id), ("plan_id", .number header.planId),
    ("name", .text header.name), ("auto_fill", .flag header.autoFill),
    ("first_finished", .flag header.firstFinished), ("nodes", .list (nodes.map ofNode)),
    ("created_at", .moment), ("updated_at", .moment)]

def ofRow (r : Report.Row) : Document :=
  .record [("name", .text r.name), ("prefix", .text r.cidr), ("tags", .text r.tags),
    ("level", .text r.level), ("usage", .text r.usageText), ("depth", .number r.depth)]

def health : Document :=
  .record [("status", .text "ok"), ("service", .text "ipplan"), ("timestamp", .moment)]

def ofError (message : String) : Document :=
  .record [("error", .text message)]

end Document

namespace Response

def ofDocument (status : Status) (d : Document) : Response :=
  ⟨status, .document d⟩

def bare (status : Status) : Response :=
  ⟨status, .empty⟩

def refusal (status : Status) : Response :=
  ⟨status, .notice⟩

end Response

end AddressPlan.Service
