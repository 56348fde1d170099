import AddressPlan.Store.Basic

/-!
# The relational store

Three tables, of plans, layouts and nodes.  A layout belongs to a stored plan and a
node to a stored layout, and goes away with it.  Each table numbers its rows and
never gives an id twice.
-/

namespace AddressPlan

structure Database where
  plans : List Plan := []
  headers : List LayoutHeader := []
  nodes : List Node := []
  lastPlan : Int := 0
  lastLayout : Int := 0
  lastNode : Int := 0
  deriving DecidableEq, Repr

namespace Database

def largestId : Int := 9223372036854775807

def nextId (last : Int) (usedUp : StoreFault) : Except StoreFault Int :=
  if last < largestId then .ok (last + 1) else .error usedUp

/-! ## Plans -/

def withCount (db : Database) (plan : Plan) : Plan :=
  { plan with layoutCount := some (db.headers.filter (·.planId == plan.id)).length }

def plan? (db : Database) (id : Int) : Option Plan :=
  (db.plans.find? (·.id == id)).map db.withCount

def listPlans (db : Database) : List Plan :=
  (Order.sortBy (fun a b ↦ decide (a.cidr ≤ b.cidr)) db.plans).map db.withCount

/-- Stores a plan unless its block is stored already.  An empty description is
none. -/
def createPlan (db : Database) (r : PlanRequest) : Except StoreFault (Plan × Database) := do
  if let some first := db.plans.find? (·.cidr == r.cidr) then
    throw (.planExists first.cidr first.id)
  let id ← nextId db.lastPlan .database
  let plan : Plan := {
    id
    cidr := r.cidr
    maskLength := r.maskLength
    description := r.description.filter (· ≠ "") }
  let db := { db with plans := db.plans ++ [plan], lastPlan := id }
  return (db.withCount plan, db)

def deletePlan (db : Database) (id : Int) : Except StoreFault Database :=
  if db.plans.any (·.id == id) then
    let gone := (db.headers.filter (·.planId == id)).map LayoutHeader.id
    .ok { db with
      plans := db.plans.filter (·.id != id)
      headers := db.headers.filter (·.planId != id)
      nodes := db.nodes.filter fun n ↦ !gone.contains n.layoutId }
  else .error (.missing "Plan" (toString id))

/-! ## Layouts -/

def header? (db : Database) (id : Int) : Option LayoutHeader :=
  db.headers.find? (·.id == id)

def headersOf (db : Database) (planId : Int) : List LayoutHeader :=
  db.headers.filter (·.planId == planId)

def createLayout (db : Database) (header : LayoutHeader) :
    Except StoreFault (Int × Database) := do
  if !db.plans.any (·.id == header.planId) then throw .database
  let id ← nextId db.lastLayout .database
  return (id, { db with headers := db.headers ++ [{ header with id }], lastLayout := id })

def updateHeader (db : Database) (header : LayoutHeader) : Except StoreFault Database :=
  if db.headers.any (·.id == header.id) then
    .ok { db with headers := db.headers.map fun h ↦
      if h.id == header.id then { header with planId := h.planId } else h }
  else .error (.missing "Layout" (toString header.id))

def deleteLayout (db : Database) (id : Int) : Except StoreFault Database :=
  if db.headers.any (·.id == id) then
    .ok { db with
      headers := db.headers.filter (·.id != id)
      nodes := db.nodes.filter (·.layoutId != id) }
  else .error (.missing "Layout" (toString id))

/-! ## Nodes -/

def nodesOf (db : Database) (layoutId : Int) : List Node :=
  Order.sortBy (fun a b ↦ Order.lexLe (a.sequence, a.id) (b.sequence, b.id))
    (db.nodes.filter (·.layoutId == layoutId))

def rowsById (db : Database) : List Node :=
  Order.sortBy (fun a b ↦ decide (a.id ≤ b.id)) db.nodes

/-- Stores a row under its own id if that is positive and free, and under the next id
if it is not positive.  A larger own id moves the table's numbering on.  The id is
settled before the row's layout is looked up. -/
def insertNode (db : Database) (n : Node) : Except StoreFault (Int × Database) := do
  let id ← if 0 < n.id then pure n.id else nextId db.lastNode (.idsUsedUp n)
  if 0 < n.id ∧ db.nodes.any (·.id == n.id) then throw .database
  if !db.headers.any (·.id == n.layoutId) then throw .database
  return (id, { db with nodes := db.nodes ++ [{ n with id }], lastNode := max db.lastNode id })

/-- The given ids and those of the rows right below one of them. -/
def withChildren (rows : List Node) (ids : List Int) : List Int :=
  ids ++ (rows.filter fun n ↦ ids.contains n.parentId && !ids.contains n.id).map Node.id

/-- An id and the ids of all rows below it.  Every round that finds a row finds a new
one, so as many rounds as there are rows find them all. -/
def subtreeIds (rows : List Node) (id : Int) : List Int :=
  rows.length.repeat (withChildren rows) [id]

/-- Removes a row with all rows below it, in whatever layout, and tells their ids in
order. -/
def deleteSubtree (db : Database) (id : Int) : List Int × Database :=
  let ids := subtreeIds db.nodes id
  ((db.rowsById.filter fun n ↦ ids.contains n.id).map Node.id,
    { db with nodes := db.nodes.filter fun n ↦ !ids.contains n.id })

/-! ## As the store of layouts -/

/-- A change that may be refused; the refusal shows as a failure of the store. -/
def change {α : Type} (f : Database → Except StoreFault (α × Database)) : Step Database α :=
  fun db ↦
    match f db with
    | .ok (a, db) => (.ok a, db)
    | .error fault => (.error (.storeFailure fault), db)

instance : Store Database where
  plan? id := fun db ↦ (.ok (db.plan? id), db)
  createLayout header := change (createLayout · header)
  updateHeader header := change fun db ↦ (db.updateHeader header).map (Prod.mk ())
  deleteLayout id := change fun db ↦ (db.deleteLayout id).map (Prod.mk ())
  header? id := fun db ↦ (.ok (db.header? id), db)
  nodes layoutId := fun db ↦ (.ok (db.nodesOf layoutId), db)
  insertNode n := change (insertNode · n)
  deleteSubtree id := fun db ↦ let (ids, db) := db.deleteSubtree id; (.ok ids, db)

end Database

end AddressPlan
