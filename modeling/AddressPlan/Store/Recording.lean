import AddressPlan.Store.Basic

/-!
# A recording store

A store in memory that writes down every request it serves and can be told to fail
at an insertion.  It has one counter for the ids of layouts and nodes and never
goes back.
-/

namespace AddressPlan

inductive Call where
  | createLayout (id : Int)
  | updateHeader (id : Int)
  | deleteLayout (id : Int)
  | fetchHeader (id : Int)
  | fetchNodes (layoutId : Int)
  | insertNode (id : Int)
  | deleteSubtree (id : Int)
  | fetchPlan (id : Int)
  deriving DecidableEq, Repr

structure Recording where
  plans : List Plan := []
  headers : List LayoutHeader := []
  nodes : List Node := []
  calls : List Call := []
  /-- How many insertions may succeed before one fails. -/
  failAfter : Option Nat := none
  lastId : Int := 0
  inserted : Nat := 0
  deriving DecidableEq, Repr

namespace Recording

def record (call : Call) (s : Recording) : Recording :=
  { s with calls := s.calls ++ [call] }

def putPlan (s : Recording) (plan : Plan) : Recording :=
  { s with plans := s.plans.filter (·.id != plan.id) ++ [plan] }

def createLayout (header : LayoutHeader) : Step Recording Int := fun s ↦
  let id := s.lastId + 1
  (.ok id, { s with
    lastId := id
    headers := s.headers ++ [{ header with id }]
    calls := s.calls ++ [.createLayout id] })

def updateHeader (header : LayoutHeader) : Step Recording Unit := fun s ↦
  let s := s.record (.updateHeader header.id)
  if s.headers.any (·.id == header.id) then
    (.ok (), { s with headers := s.headers.map fun h ↦
      if h.id == header.id then { header with planId := h.planId } else h })
  else (.error (.notFound "Layout" header.id), s)

def deleteLayout (id : Int) : Step Recording Unit := fun s ↦
  (.ok (), { s.record (.deleteLayout id) with
    headers := s.headers.filter (·.id != id)
    nodes := s.nodes.filter (·.layoutId != id) })

def nodesOf (s : Recording) (layoutId : Int) : List Node :=
  Order.sortBy (fun a b ↦ Order.lexLe (a.sequence, a.id) (b.sequence, b.id))
    (s.nodes.filter (·.layoutId == layoutId))

def insertNode (n : Node) : Step Recording Int := fun s ↦
  if s.failAfter = some s.inserted then (.error (.storeFailure .device), s)
  else if 0 < n.id ∧ s.nodes.any (·.id == n.id) then
    (.error (.storeFailure (.idTaken n.id)), s)
  else
    let id := if 0 < n.id then n.id else s.lastId + 1
    (.ok id, { s with
      lastId := max s.lastId id
      nodes := s.nodes ++ [{ n with id }]
      inserted := s.inserted + 1
      calls := s.calls ++ [.insertNode id] })

/-- Adds the ids of the rows below the id at a place of the work list. -/
def growDoomed (rows : List Node) (doomed : List Int) (i : Nat) : List Int :=
  match doomed[i]? with
  | none => doomed
  | some parent =>
    doomed ++ (rows.filter fun n ↦ n.parentId == parent && !doomed.contains n.id).map Node.id

/-- An id and the ids of all rows below it.  The work list grows by at most one entry
for each row. -/
def doomed (rows : List Node) (id : Int) : List Int :=
  (List.range (rows.length + 1)).foldl (growDoomed rows) [id]

def deleteSubtree (id : Int) : Step Recording (List Int) := fun s ↦
  let removed := (doomed s.nodes id).filter fun id ↦ s.nodes.any (·.id == id)
  (.ok removed, { s.record (.deleteSubtree id) with
    nodes := s.nodes.filter fun n ↦ !removed.contains n.id })

instance : Store Recording where
  plan? id := fun s ↦ (.ok (s.plans.find? (·.id == id)), s.record (.fetchPlan id))
  createLayout := createLayout
  updateHeader := updateHeader
  deleteLayout := deleteLayout
  header? id := fun s ↦ (.ok (s.headers.find? (·.id == id)), s.record (.fetchHeader id))
  nodes layoutId := fun s ↦ (.ok (s.nodesOf layoutId), s.record (.fetchNodes layoutId))
  insertNode := insertNode
  deleteSubtree := deleteSubtree

end Recording

end AddressPlan
