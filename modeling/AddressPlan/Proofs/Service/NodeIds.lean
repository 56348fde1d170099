import AddressPlan.Proofs.Layout.Lineage
import AddressPlan.Proofs.Service.Refusals
import AddressPlan.Proofs.Service.Runs

/-!
# Ids of nodes are not given twice

Whatever is requested, every row of the later database has an id that had not been given or
the id of a row of the same layout.  So an id that is gone stays away, also from a request that
names it, and as long as it is there it belongs to one layout.
-/

namespace AddressPlan

open Rows

namespace Service

variable {db db' : Database}

theorem Changed.continues (h : Changed db db') (hdb : db.Coherent) : Continues db db' := by
  cases h with
  | same => exact .refl db
  | createPlan _ h =>
    obtain ⟨-, new, -, -, -, rfl⟩ := Database.createPlan_eq_ok h
    exact .of_subset (Int.le_refl _) (List.Subset.refl _)
  | deletePlan h =>
    obtain rfl := Database.deletePlan_eq_ok h
    exact .of_subset (Int.le_refl _) (List.filter_subset_self _)
  | @save plan r l _ h =>
    have hsaved := continues_save (s := db) hdb.numbered (.ofRequest plan r)
    rwa [h] at hsaved
  | update _ h => exact continues_update (s := db) hdb.numbered h
  | deleteLayout h =>
    obtain rfl := Database.deleteLayout_eq_ok h
    exact .of_subset (Int.le_refl _) (List.filter_subset_self _)

theorem continues_foldl (requests : List Request) {db : Database} (h : db.Coherent) :
    Continues db (requests.foldl (fun db r ↦ (handle db r).2) db) := by
  induction requests generalizing db with
  | nil => exact .refl db
  | cons r requests ih =>
    have hfirst := handle_changed db r
    exact (hfirst.continues h).trans (ih (hfirst.coherent h))

theorem afterAll_append (requests more : List Request) :
    afterAll (requests ++ more) =
      more.foldl (fun db r ↦ (handle db r).2) (afterAll requests) :=
  List.foldl_append

theorem continues_afterAll (requests more : List Request) :
    Continues (afterAll requests) (afterAll (requests ++ more)) :=
  afterAll_append requests more ▸ continues_foldl more (coherent_afterAll requests)

/-- A node that is stored at some time and whose id is stored later belongs to the same layout
then.  If its id is not stored at a later time, it is not stored at any time from then on. -/
theorem afterAll_id_not_recycled (requests more : List Request) {n : Node}
    (hn : n ∈ (afterAll requests).nodes) :
    (∀ m ∈ (afterAll (requests ++ more)).nodes, m.id = n.id → m.layoutId = n.layoutId) ∧
    ((∀ m ∈ (afterAll (requests ++ more)).nodes, m.id ≠ n.id) →
      ∀ further, ∀ m ∈ (afterAll (requests ++ more ++ further)).nodes, m.id ≠ n.id) := by
  have hdb := (coherent_afterAll requests).numbered
  have hlater := continues_afterAll requests more
  constructor
  · exact fun m hm hid ↦ hlater.layoutId_eq (s := afterAll requests) hdb hn hm hid
  · intro hgone further
    have hle : n.id ≤ (afterAll (requests ++ more)).lastNode :=
      Int.le_trans (hdb.le_last n hn) hlater.last_le
    exact (continues_afterAll (requests ++ more) further).absent hle hgone

def sitesRequest (method : Method) (target nodes : String) : Request where
  method := method
  target := target
  contentType := some "application/json"
  body := "\x7b\"name\": \"sites\", \"nodes\": [" ++ nodes ++ "]\x7d"

/-- A root and a node below it under the id 2. -/
def rootAndSite : String :=
  "\x7b\"id\": 1, \"name\": \"root\"\x7d, \x7b\"id\": 2, \"pid\": 1, \"name\": \"site\"\x7d"

def flaggedRoot : String :=
  "\x7b\"id\": 1, \"name\": \"root\", \"modified\": true\x7d"

/-- The site is stored, left out and sent again under its id, and then has another one. -/
theorem afterAll_id_not_recycled_sentAgain :
    let created := [postPlan, sitesRequest .post "/api/plans/1/layouts" rootAndSite]
    let dropped := [sitesRequest .put "/api/layouts/1" flaggedRoot]
    let again := [sitesRequest .put "/api/layouts/1" rootAndSite]
    ∃ n ∈ (afterAll created).nodes, n.id = 2 ∧
      (∀ m ∈ (afterAll (created ++ dropped)).nodes, m.id = n.id → m.layoutId = n.layoutId) ∧
      (∀ m ∈ (afterAll (created ++ dropped)).nodes, m.id ≠ n.id) ∧
      (∀ m ∈ (afterAll (created ++ dropped ++ again)).nodes, m.id ≠ n.id) ∧
      ∃ m ∈ (afterAll (created ++ dropped ++ again)).nodes, m.name = "site" := by
  intro created dropped again
  obtain ⟨⟨n, hn, hid⟩, hgone, hsite⟩ : (∃ n ∈ (afterAll created).nodes, n.id = 2) ∧
      (∀ m ∈ (afterAll (created ++ dropped)).nodes, m.id ≠ 2) ∧
      ∃ m ∈ (afterAll (created ++ dropped ++ again)).nodes, m.name = "site" := by decide +kernel
  rw [← hid] at hgone
  obtain ⟨hlayout, habsent⟩ := afterAll_id_not_recycled created dropped hn
  exact ⟨n, hn, hid, hlayout, hgone, habsent hgone again, hsite⟩

end Service

end AddressPlan
