import AddressPlan.Proofs.Service.Runs

/-!
# Requests that change nothing

A request that is answered with a failure leaves the database as it was, and so does one that
only asks for what is stored.  Such requests can be left out of a run: it ends with the same
database without them.
-/

namespace AddressPlan.Service

def Status.Refuses (s : Status) : Prop :=
  400 ≤ s.code

instance (s : Status) : Decidable s.Refuses :=
  inferInstanceAs (Decidable (_ ≤ _))

theorem not_refuses_ok : ¬ Status.ok.Refuses := by decide

theorem not_refuses_created : ¬ Status.created.Refuses := by decide

theorem not_refuses_noContent : ¬ Status.noContent.Refuses := by decide

/-- These methods ask for what is stored, or for less. -/
def Method.Reads (m : Method) : Prop :=
  m = .get ∨ m = .head ∨ m = .options

variable {db : Database} {r : Request}

/-- If what is carried out is not answered with a failure, then a failure is the answer to
something that was undone. -/
theorem inTransaction_of_refuses {α : Type} {m : Step Database α} {answer : α → Response}
    (hanswer : ∀ a, ¬ (answer a).status.Refuses)
    (h : (inTransaction db m answer).1.status.Refuses) : (inTransaction db m answer).2 = db := by
  unfold inTransaction at h ⊢
  rcases hrun : m.run db with ⟨result, db'⟩
  rw [hrun] at h
  cases result with
  | ok a => exact absurd h (hanswer a)
  | error e => rfl

theorem perform_of_refuses {query : List Char} {action : Action} {answer : Response × Database}
    (h : perform db r query action = .ok answer) (hrefuses : answer.1.status.Refuses) :
    answer.2 = db := by
  cases action with
  | createPlan =>
    obtain ⟨request, -, h⟩ := bind_eq_ok_iff.mp h
    split at h
    · cases h
      rfl
    · split at h
      · cases h
        exact absurd hrefuses not_refuses_created
      · cases h
        rfl
  | deletePlan id =>
    obtain ⟨id, -, h⟩ := bind_eq_ok_iff.mp h
    split at h
    · cases h
      exact absurd hrefuses not_refuses_noContent
    · cases h
      rfl
  | createLayout plan =>
    obtain ⟨id, -, h⟩ := bind_eq_ok_iff.mp h
    obtain ⟨body, -, h⟩ := bind_eq_ok_iff.mp h
    obtain ⟨request, -, h⟩ := bind_eq_ok_iff.mp h
    cases h
    exact inTransaction_of_refuses (fun _ ↦ not_refuses_created) hrefuses
  | updateLayout id =>
    obtain ⟨id, -, h⟩ := bind_eq_ok_iff.mp h
    obtain ⟨body, -, h⟩ := bind_eq_ok_iff.mp h
    obtain ⟨request, -, h⟩ := bind_eq_ok_iff.mp h
    cases h
    exact inTransaction_of_refuses (fun _ ↦ not_refuses_ok) hrefuses
  | deleteLayout id =>
    obtain ⟨id, -, h⟩ := bind_eq_ok_iff.mp h
    cases h
    exact inTransaction_of_refuses (fun _ ↦ not_refuses_noContent) hrefuses
  | showHealth | listPlans | showPlan _ | listLayouts _ | showLayout _ | showReport _ =>
    exact perform_reads (by trivial) h

theorem handle_of_refuses (h : (handle db r).1.status.Refuses) : (handle db r).2 = db := by
  cases haction : r.action? with
  | none => exact handle_of_no_action haction
  | some action =>
    rw [handle_of_action haction] at h ⊢
    split
    · rename_i hperform
      rw [hperform] at h
      exact perform_of_refuses hperform h
    · rfl

theorem handle_of_reads (h : r.method.Reads) : (handle db r).2 = db := by
  cases haction : r.action? with
  | none => exact handle_of_no_action haction
  | some action =>
    obtain ⟨route, -, hroute⟩ := Option.bind_eq_some_iff.mp haction
    rw [handle_of_action haction]
    split
    · rename_i hperform
      refine perform_reads ?_ hperform
      rcases h with h | h | h
      · exact reads_of_get (h ▸ hroute)
      · rw [h] at hroute
        cases route <;> cases hroute
      · rw [h] at hroute
        cases route <;> cases hroute
    · rfl

/-- A request that is refused, or that only reads, does not touch plans, layouts, nodes or the
numbering of any of them. -/
theorem handle_unchanged (db : Database) (r : Request)
    (h : (handle db r).1.status.Refuses ∨ r.method.Reads) : (handle db r).2 = db :=
  h.elim handle_of_refuses handle_of_reads

def postPlan : Request where
  method := .post
  target := "/api/plans"
  contentType := some "application/json"
  body := "\x7b\"prefix\": \"10.0.0.0/8\", \"mask_len\": 24\x7d"

/-- The block of a plan can be registered only once. -/
theorem handle_unchanged_postPlan :
    (handle {} postPlan).1.status = .created ∧
      (handle (afterAll [postPlan]) postPlan).1.status = .conflict ∧
      (handle (afterAll [postPlan]) postPlan).2 = afterAll [postPlan] := by
  have hstatus : (handle (afterAll [postPlan]) postPlan).1.status = .conflict := by
    decide +kernel
  refine ⟨by decide +kernel, hstatus, handle_unchanged _ _ (Or.inl ?_)⟩
  rw [hstatus]
  decide

/-- What follows a request that is refused or only reads goes on as if it had not been made. -/
theorem afterAll_without (requests more : List Request) {r : Request}
    (h : (handle (afterAll requests) r).1.status.Refuses ∨ r.method.Reads) :
    afterAll (requests ++ r :: more) = afterAll (requests ++ more) := by
  have hsame : (handle (afterAll requests) r).2 = afterAll requests :=
    h.elim handle_of_refuses handle_of_reads
  simp only [afterAll, List.foldl_append, List.foldl_cons] at hsame ⊢
  rw [hsame]

end AddressPlan.Service
