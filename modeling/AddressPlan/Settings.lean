import AddressPlan.Digits

/-!
# Settings

What the service takes from its environment, with a default for everything that is
not set.
-/

namespace AddressPlan

structure Settings where
  databasePath : String := "/data/ipplan.db"
  connections : Nat := 5
  listenAddress : String := "0.0.0.0:8080"
  deriving DecidableEq, Repr

namespace Settings

/-- A number of connections has 32 bits. -/
def connections? (text : String) : Option Nat :=
  (Digits.unsigned? text.toList).filter (· < Nat.pow 2 32)

/-- The settings under these variables.  A number of connections that cannot be read
counts as not set. -/
def ofEnvironment (lookup : String → Option String) : Settings :=
  let default : Settings := {}
  { databasePath := (lookup "DB_PATH").getD default.databasePath
    connections := ((lookup "DB_MAX_CONNECTIONS").bind connections?).getD default.connections
    listenAddress := (lookup "LISTEN_ADDR").getD default.listenAddress }

end Settings

end AddressPlan
