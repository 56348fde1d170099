import AddressPlan.Store.Database

/-!
# Connections to the relational store

Rows that bring ids of their own can use up the ids of the table of nodes.  A row that
finds none left undoes its transaction and every transaction around it, which frees
the ids that they had taken.  The row is then tried once more, by itself.

The connection goes on as if it still had a transaction to end.  From then on every
transaction stands inside an enclosing one, which opens and ends with it.  Only a
refused transaction leaves the enclosing one open, and what is done there lasts until
a row finds no id again.  Requests to the service number new rows from one on, so they
never come to this.
-/

namespace AddressPlan

/-- What stands around the next transaction of a connection. -/
inductive Enclosure where
  | absent
  /-- A transaction that opens and ends with the next one, unless that is refused. -/
  | due
  /-- An open transaction, which found this database. -/
  | begun (start : Database)
  deriving DecidableEq, Repr

structure Connection where
  db : Database := {}
  enclosure : Enclosure := .absent
  deriving DecidableEq, Repr

namespace Connection

def start (c : Connection) : Database :=
  match c.enclosure with
  | .begun start => start
  | _ => c.db

/-- Inserts a row that had found no id, if there is one for it now. -/
def insertAlone (db : Database) (row : Node) : Database :=
  match db.insertNode row with
  | .ok (_, db) => db
  | .error _ => db

/-- The connection behind a transaction that was refused. -/
def afterRefusal (c : Connection) : PlanError → Connection
  | .storeFailure (.idsUsedUp row) => ⟨insertAlone c.start row, .due⟩
  | _ =>
    match c.enclosure with
    | .due => ⟨c.db, .begun c.db⟩
    | _ => c

def transaction {τ α : Type} (m : Step (τ × Database) α) : Step (τ × Connection) α :=
  fun (t, c) ↦
    match m (t, c.db) with
    | (.ok a, t, db) => (.ok a, t, { c with db })
    | (.error e, t, _) => (.error e, t, c.afterRefusal e)

/-- As long as the ids last, a connection keeps what is carried out and undoes what is
refused. -/
theorem run_transaction {τ α : Type} {m : Step (τ × Database) α} {t : τ} {db : Database}
    (h : ∀ row, (m.run (t, db)).1 ≠ .error (.storeFailure (.idsUsedUp row))) :
    (transaction m).run (t, ⟨db, .absent⟩) =
      ((m.transaction.run (t, db)).1, (m.transaction.run (t, db)).2.1,
        ⟨(m.transaction.run (t, db)).2.2, .absent⟩) := by
  unfold Step.run transaction Step.transaction at *
  dsimp only at *
  rcases hm : m (t, db) with ⟨r, t', db'⟩
  rw [hm] at h
  cases r with
  | ok a => rfl
  | error e =>
    have kept : afterRefusal ⟨db, .absent⟩ e = ⟨db, .absent⟩ := by
      unfold afterRefusal
      split
      · rename_i row
        exact absurd rfl (h row)
      · rfl
    simp only [kept]

end Connection

end AddressPlan
