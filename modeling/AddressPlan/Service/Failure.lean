import AddressPlan.Error
import AddressPlan.Service.Response

/-!
# Failures

How refusals of the planning operations and of the store show to a client.
-/

namespace AddressPlan.Service

structure Failure where
  status : Status
  message : String
  deriving DecidableEq, Repr

namespace Failure

def notFound (resource : String) : Failure :=
  ⟨.notFound, s!"{resource} not found"⟩

def ofPlanError (e : PlanError) : Failure :=
  match e with
  | .malformed _ => ⟨.badRequest, e.message⟩
  | .capacity _ => ⟨.unprocessable, e.message⟩
  | .duplicate .. => ⟨.conflict, e.message⟩
  | .notFound resource _ => notFound resource
  | .storeFailure _ => ⟨.internal, e.message⟩

def response (f : Failure) : Response :=
  .ofDocument f.status (.ofError f.message)

end Failure

inductive Cause where
  | planning (e : PlanError)
  | store (fault : StoreFault)
  deriving DecidableEq, Repr

/-- A cause with remarks on where it came up, the outermost first. -/
structure Incident where
  remarks : List String := []
  cause : Cause
  deriving DecidableEq, Repr

namespace Incident

def causeText (i : Incident) : String :=
  match i.cause with
  | .planning e => e.message
  | .store fault => fault.message

/-- A cause of a known kind shows whatever the remarks; of any other only the
outermost text does. -/
def failure (i : Incident) : Failure :=
  match i.cause with
  | .planning e => .ofPlanError e
  | .store (.missing resource _) => .notFound resource
  | .store fault@(.planExists ..) => ⟨.conflict, fault.message⟩
  | .store _ => ⟨.internal, i.remarks.headD i.causeText⟩

def planError (i : Incident) : PlanError :=
  .storeFailure (.reported (String.intercalate ": " (i.remarks ++ [i.causeText])))

end Incident

end AddressPlan.Service
