import AddressPlan.Layout.Lifecycle
import AddressPlan.Report.ByFamily
import AddressPlan.Service.Body.Requests
import AddressPlan.Service.Failure
import AddressPlan.Service.MediaType
import AddressPlan.Service.Target
import AddressPlan.Store.Database

/-!
# Answering requests

A request is answered from a database and may change it.  Whatever is answered with a
failure leaves the database as it was, because work on a layout is one transaction.
-/

namespace AddressPlan.Service

inductive Method where
  | get
  | head
  | post
  | put
  | delete
  | options
  | other
  deriving DecidableEq, Repr

def Method.ofText : String → Method
  | "GET" => get
  | "HEAD" => head
  | "POST" => post
  | "PUT" => put
  | "DELETE" => delete
  | "OPTIONS" => options
  | _ => other

structure Request where
  method : Method
  target : String
  contentType : Option String := none
  body : String := ""
  deriving DecidableEq, Repr

inductive Action where
  | showHealth
  | listPlans
  | createPlan
  | showPlan (id : String)
  | deletePlan (id : String)
  | listLayouts (plan : String)
  | createLayout (plan : String)
  | showLayout (id : String)
  | updateLayout (id : String)
  | deleteLayout (id : String)
  | showReport (id : String)
  deriving DecidableEq, Repr

def Action.of? : Route → Method → Option Action
  | .health, .get => some .showHealth
  | .plans, .get => some .listPlans
  | .plans, .post => some .createPlan
  | .plan id, .get => some (.showPlan id)
  | .plan id, .delete => some (.deletePlan id)
  | .planLayouts id, .get => some (.listLayouts id)
  | .planLayouts id, .post => some (.createLayout id)
  | .layout id, .get => some (.showLayout id)
  | .layout id, .put => some (.updateLayout id)
  | .layout id, .delete => some (.deleteLayout id)
  | .report id, .get => some (.showReport id)
  | _, _ => none

/-- What is left to do is answered early or goes on with a value. -/
abbrev Answer (α : Type) : Type :=
  Except Response α

def readId (segment : String) : Answer Int :=
  match Target.id? segment with
  | some id => .ok id
  | none => .error (.refusal .badRequest)

/-- How many bytes a body may have, two mebibytes. -/
def largestBody : Nat := 2097152

def readBody {α : Type} (decode : Body.Reading → Body.Decoded α) (r : Request) : Answer α :=
  if !MediaType.isJson r.contentType then .error (.refusal .unsupportedMediaType)
  else if largestBody < r.body.utf8ByteSize then .error (.refusal .contentTooLarge)
  else
    match decode (Body.Reading.ofText r.body) with
    | .ok a => .ok a
    | .error .syntactic => .error (.refusal .badRequest)
    | .error .shape => .error (.refusal .unprocessable)

def isWhiteSpace (c : Char) : Bool :=
  (9 ≤ c.toNat && c.toNat ≤ 13) ||
    [0x20, 0x85, 0xA0, 0x1680, 0x2028, 0x2029, 0x202F, 0x205F, 0x3000].contains c.toNat ||
    (0x2000 ≤ c.toNat && c.toNat ≤ 0x200A)

def isBlank (name : String) : Bool :=
  name.toList.all isWhiteSpace

def requireName (r : LayoutRequest) : Answer LayoutRequest :=
  if isBlank r.name then .error (Failure.response ⟨.badRequest, "name is required"⟩) else .ok r

/-- Runs a step in a transaction and answers with what it gives or with its failure. -/
def inTransaction {α : Type} (db : Database) (m : Step Database α) (answer : α → Response) :
    Response × Database :=
  match m.run db with
  | (.ok a, db) => (answer a, db)
  | (.error e, _) => ((Failure.ofPlanError e).response, db)

def failed (db : Database) (fault : StoreFault) : Response × Database :=
  ((Incident.failure { cause := .store fault }).response, db)

def showLayout (l : Layout) : Document :=
  .ofLayout l.header l.nodes

def onLayout (l : Layout) (m : Step (Layout × Database) Unit) : Step Database Layout := fun db ↦
  let (r, l, db) := m.run (l, db)
  (r.map fun _ ↦ l, db)

def report (id : Int) (family : Option Family) : Step Database (List Report.Row) := do
  let l ← Layout.load id
  let plan ← Layout.fetchPlan l.header.planId
  let family ← match family with
    | some f => pure f
    | none => Step.ofExcept plan.family
  Step.ofExcept (Report.rows plan l.tree family)

def perform (db : Database) (r : Request) (query : List Char) :
    Action → Answer (Response × Database)
  | .showHealth => return (.ofDocument .ok .health, db)
  | .listPlans => return (.ofDocument .ok (.list (db.listPlans.map .ofPlan)), db)
  | .createPlan => do
    let request ← readBody Body.planRequest r
    match request.check with
    | .error e => return ((Failure.ofPlanError e).response, db)
    | .ok _ =>
      match db.createPlan request with
      | .ok (plan, db) => return (.ofDocument .created (.ofPlan plan), db)
      | .error fault => return failed db fault
  | .showPlan id => do
    match db.plan? (← readId id) with
    | some plan => return (.ofDocument .ok (.ofPlan plan), db)
    | none => return ((Failure.notFound "Plan").response, db)
  | .deletePlan id => do
    match db.deletePlan (← readId id) with
    | .ok db => return (.bare .noContent, db)
    | .error fault => return failed db fault
  | .listLayouts plan => do
    let plan ← readId plan
    match db.plan? plan with
    | some _ =>
      return (.ofDocument .ok (.list ((db.headersOf plan).map (.ofLayout · []))), db)
    | none => return ((Failure.notFound "Plan").response, db)
  | .createLayout plan => do
    let plan ← readId plan
    let request ← requireName (← readBody Body.layoutRequest r)
    return inTransaction db (onLayout (.ofRequest plan request) Layout.save)
      fun l ↦ .ofDocument .created (showLayout l)
  | .showLayout id => do
    let id ← readId id
    return inTransaction db (Layout.load id) fun l ↦ .ofDocument .ok (showLayout l)
  | .updateLayout id => do
    let id ← readId id
    let request ← requireName (← readBody Body.layoutRequest r)
    return inTransaction db
      (do onLayout ((← Layout.load id).apply request) Layout.update)
      fun l ↦ .ofDocument .ok (showLayout l)
  | .deleteLayout id => do
    let id ← readId id
    return inTransaction db (do Layout.delete (← Layout.load id)) fun _ ↦ .bare .noContent
  | .showReport id => do
    let id ← readId id
    match Target.family query with
    | .error _ => return (.refusal .badRequest, db)
    | .ok family =>
      return inTransaction db (report id family)
        fun rows ↦ .ofDocument .ok (.list (rows.map .ofRow))

def dispatch (db : Database) (r : Request) (path query : List Char) (method : Method) :
    Response × Database :=
  match Route.ofPath? path with
  | none => (.bare .notFound, db)
  | some route =>
    match Action.of? route method with
    | none => (.bare .methodNotAllowed, db)
    | some action =>
      match perform db r query action with
      | .ok answer => answer
      | .error response => (response, db)

/-- Answers a request.  `HEAD` is `GET` without the content, and `OPTIONS` is allowed
everywhere. -/
def handle (db : Database) (r : Request) : Response × Database :=
  let (path, query) := Target.pathAndQuery r.target
  match r.method with
  | .options => (.bare .ok, db)
  | .head =>
    let (response, db) := dispatch db r path query .get
    ({ response with content := .empty }, db)
  | method => dispatch db r path query method

end AddressPlan.Service
