import AddressPlan.Proofs.Store.Consistent
import AddressPlan.Service.Handler

/-!
# Runs of the service

A request changes the database in one of five ways or not at all.  Each of them keeps a
coherent database coherent, so the database is consistent after any requests whatever.
-/

namespace AddressPlan

open Rows NodeTree Layout

namespace Database

/-! ## What writing nodes leaves alone -/

/-- Everything but the nodes and their numbering. -/
def catalogue (db : Database) : List Plan × Int × List LayoutHeader × Int :=
  (db.plans, db.lastPlan, db.headers, db.lastLayout)

theorem catalogue_eq_iff {db : Database} {plans : List Plan} {lastPlan lastLayout : Int}
    {headers : List LayoutHeader} :
    db.catalogue = (plans, lastPlan, headers, lastLayout) ↔
      db.plans = plans ∧ db.lastPlan = lastPlan ∧ db.headers = headers ∧
        db.lastLayout = lastLayout := by
  simp only [catalogue, Prod.mk.injEq]

section Catalogue

variable {c : List Plan × Int × List LayoutHeader × Int} {db db' : Database} {l l' : Layout}

theorem keeps_catalogue_insertNode (n : Node) :
    Step.Keeps (fun db : Database ↦ db.catalogue = c) (Store.insertNode n) := by
  apply keeps_change
  intro db id db' hdb hrun
  obtain ⟨-, -, rfl⟩ := insertNode_eq_ok hrun
  exact hdb

theorem keeps_catalogue_deleteSubtree (d : Int) :
    Step.Keeps (fun db : Database ↦ db.catalogue = c) (Store.deleteSubtree d) := fun _ hdb ↦ hdb

theorem plan?_run_eq_ok {id : Int} {plan : Plan}
    (hrun : (Store.plan? id).run db = (.ok (some plan), db')) :
    db.plan? id = some plan ∧ db = db' :=
  ⟨Except.ok.inj (congrArg Prod.fst hrun), congrArg Prod.snd hrun⟩

theorem frame_of_catalogue (h : db'.catalogue = db.catalogue) : db'.frame = db.frame := by
  have hheaders : db'.headers = db.headers := congrArg (fun c ↦ c.2.2.1) h
  rw [frame, frame, hheaders, show db'.plans = db.plans from congrArg Prod.fst h,
    show db'.lastLayout = db.lastLayout from congrArg (fun c ↦ c.2.2.2) h]

/-- An update finds the header of its own layout and changes it, and nothing else of the
catalogue. -/
theorem header_and_catalogue_of_update
    (hrun : Layout.update.run (l, db) = (.ok (), (l', db'))) :
    (∃ header ∈ db.headers, header.id = l.header.id) ∧
      db'.catalogue = (db.plans, db.lastPlan,
        db.headers.map fun old ↦
          if old.id == l.header.id then { l.header with planId := old.planId } else old,
        db.lastLayout) := by
  obtain ⟨plan, checked, prepared, db₁, db₂, db₃, stored, live, tally, l₄, db₄, p₅, shown, hplan,
    hcheck, hfill, hheader, hnodes, hstale, hreconcile, hshown, -⟩ := run_update_steps hrun
  obtain ⟨hsame, -, -⟩ := run_check_fill_eq_ok l.tree_dropTree_of_empty hcheck hfill
  have hfound : ((fetchPlan l.header.planId).run db).2 = db :=
    keeps_fetchPlan (Q := (· = db)) (fun _ _ h ↦ h) _ db rfl
  rw [hplan] at hfound
  obtain rfl : db₁ = db := hfound
  obtain ⟨hfoundHeader, hdb₂⟩ :=
    updateHeader_eq_ok (map_mk_eq_ok_iff.mp (run_change_eq_ok_iff.mp hheader))
  obtain rfl : db₂ = db₃ := congrArg Prod.snd hnodes
  obtain rfl : p₅.2 = db' := congrArg Prod.snd hshown
  have hdeleted := keeps_deleteStaleRoots (Q := fun db ↦ db.catalogue = db₂.catalogue)
    keeps_catalogue_deleteSubtree (prepared.keepTree.tree.root?.map Node.id) stored
    (prepared.keepTree, db₂) rfl
  rw [hstale] at hdeleted
  have hkeeps : Step.Keeps (fun p : NodeTree × Database ↦ p.2.catalogue = db₂.catalogue)
      (reconcile prepared.header.id live) :=
    keeps_reconcile (fun n _ _ ↦ keeps_catalogue_insertNode n) keeps_catalogue_deleteSubtree live
  have hwritten := keeps_onTreeAndStore (Q := fun db ↦ db.catalogue = db₂.catalogue) hkeeps
    (l₄, db₄) hdeleted
  rw [hreconcile] at hwritten
  rw [hsame] at hfoundHeader hdb₂
  refine ⟨hfoundHeader, ?_⟩
  rw [hwritten, hdb₂]
  rfl

theorem catalogue_update (hrun : Layout.update.run (l, db) = (.ok (), (l', db'))) :
    db'.catalogue = (db.plans, db.lastPlan,
      db.headers.map fun old ↦
        if old.id == l.header.id then { l.header with planId := old.planId } else old,
      db.lastLayout) :=
  (header_and_catalogue_of_update hrun).2

theorem frame_update (hrun : Layout.update.run (l, db) = (.ok (), (l', db'))) :
    db'.frame = db.frame := by
  obtain ⟨hplans, -, hheaders, hlast⟩ := catalogue_eq_iff.mp (catalogue_update hrun)
  rw [frame, frame, hplans, hheaders, hlast, List.map_map]
  congr 2
  apply List.map_congr_left
  intro old _
  by_cases hid : old.id = l.header.id
  · simp [hid]
  · simp [hid]

end Catalogue

namespace Coherent

variable {db db' : Database} {l l' : Layout}

theorem tree (h : Coherent db) {id : Int} (hheader : ∃ header ∈ db.headers, header.id = id) :
    EmptyOrTree (ofLayout db.nodes id) := by
  obtain ⟨header, hmem, rfl⟩ := hheader
  exact h.trees header hmem

/-- Storing a layout adds its header under a new id and rewrites all places of its tree, for
which no row was stored. -/
theorem exists_rewrite_of_save (h : Coherent db) (hready : l.Ready)
    (hrun : Layout.save.run (l, db) = (.ok (), (l', db'))) :
    ∃ plan db₂, db.plan? l.header.planId = some plan ∧
      db₂ = { db with
        headers := db.headers ++ [{ l.header with id := db.lastLayout + 1 }]
        lastLayout := db.lastLayout + 1 } ∧
      Coherent db₂ ∧ db'.catalogue = db₂.catalogue ∧
      NumberedTo db'.nodes db'.lastNode ∧ (l.numberedTree plan).Rooted ∧
      ofLayout db₂.nodes (db.lastLayout + 1) = [] ∧
      Rewrite (db.lastLayout + 1) (l.numberedTree plan) db₂.nodes db'.nodes l'.tree []
        ((l.numberedTree plan).placesBelow 0) := by
  obtain ⟨plan, db₁, id, db₂, tally, hplan, hcreate, -, -, hpersist⟩ :=
    run_save_eq_ok (s := db) h.numbered hready hrun
  obtain ⟨hfound, rfl⟩ := plan?_run_eq_ok hplan
  have hcreate := run_change_eq_ok_iff.mp hcreate
  obtain ⟨h₂, hnone, -⟩ := h.createLayout hcreate
  obtain ⟨-, rfl, hdb₂⟩ := createLayout_eq_ok hcreate
  have hrooted := (relabelled_numberedTree plan l).sameShape.rooted hready.rooted
  have hwrote := wrote_persistAll (p := (l.numberedTree plan, db₂)) h₂.numbered hrooted hpersist
  have hkeeps : Step.Keeps (fun p : NodeTree × Database ↦ p.2.catalogue = db₂.catalogue)
      (persistAll (db.lastLayout + 1)) :=
    keeps_persistAll fun n _ _ _ ↦ keeps_catalogue_insertNode n
  have hcatalogue := hkeeps (l.numberedTree plan, db₂) rfl
  rw [hpersist] at hcatalogue
  exact ⟨plan, db₂, hfound, hdb₂, h₂, hcatalogue, hwrote.sound, hrooted, hnone,
    rewrite_of_wrote hrooted hnone hwrote⟩

theorem save (h : Coherent db) (hready : l.Ready)
    (hrun : Layout.save.run (l, db) = (.ok (), (l', db'))) : Coherent db' := by
  obtain ⟨plan, db₂, -, hdb₂, h₂, hcatalogue, hnumbered, hrooted, -, hrewrite⟩ :=
    h.exists_rewrite_of_save hready hrun
  refine h₂.rewrite (frame_of_catalogue hcatalogue) ?_ hnumbered hrooted hrewrite
  rw [hdb₂]
  exact ⟨_, List.mem_append_right _ List.mem_cons_self, rfl⟩

theorem update (h : Coherent db) (hheader : ∃ header ∈ db.headers, header.id = l.header.id)
    (hrun : Layout.update.run (l, db) = (.ok (), (l', db'))) : Coherent db' := by
  obtain ⟨plan, -, -, -, hnumbered, t', gone, places, hrewrite⟩ :=
    exists_rewrite_of_update (s := db) h.numbered (h.tree hheader) hrun
  exact h.rewrite (frame_update hrun) hheader hnumbered (rooted_requestTree plan l) hrewrite

end Coherent

end Database

namespace Service

/-- What a request may do to the database. -/
inductive Changed (db : Database) : Database → Prop where
  | same : Changed db db
  | createPlan {r : PlanRequest} {plan : Plan} {db' : Database} (hr : r.check = .ok ())
    (h : db.createPlan r = .ok (plan, db')) : Changed db db'
  | deletePlan {id : Int} {db' : Database} (h : db.deletePlan id = .ok db') : Changed db db'
  | save {plan : Int} {r : LayoutRequest} {l : Layout} {db' : Database}
    (h : Layout.save.run (.ofRequest plan r, db) = (.ok (), (l, db'))) : Changed db db'
  | update {id : Int} {r : LayoutRequest} {l l' : Layout} {db' : Database}
    (hload : (Layout.load id).run db = (.ok l, db))
    (h : Layout.update.run (l.apply r, db) = (.ok (), (l', db'))) : Changed db db'
  | deleteLayout {id : Int} {db' : Database} (h : db.deleteLayout id = .ok db') :
    Changed db db'

theorem run_load_eq_ok {db db' : Database} {id : Int} {l : Layout}
    (hrun : (Layout.load id).run db = (.ok l, db')) :
    db' = db ∧ ∃ header ∈ db.headers, header.id = id ∧
      l = { header, nodes := inOrder (ofLayout db.nodes id) } := by
  obtain ⟨header, db₁, nodes, hfound, hnodes, rfl⟩ := run_load_steps hrun
  have hheader : Except.ok (db.header? id) = Except.ok (ε := PlanError) (some header) ∧ db = db₁ :=
    Prod.mk.inj hfound
  obtain ⟨hheader, rfl⟩ := hheader
  have hsome : db.headers.find? (·.id == id) = some header := Except.ok.inj hheader
  have hid := List.find?_some hsome
  cases hnodes
  exact ⟨rfl, header, List.mem_of_find?_eq_some hsome, beq_iff_eq.mp hid, rfl⟩

theorem run_onLayout_eq_ok {db db' : Database} {l l' : Layout}
    {m : Step (Layout × Database) Unit} (hrun : (onLayout l m).run db = (.ok l', db')) :
    m.run (l, db) = (.ok (), (l', db')) := by
  have hstep : (onLayout l m).run db =
      ((m.run (l, db)).1.map fun _ ↦ (m.run (l, db)).2.1, (m.run (l, db)).2.2) := rfl
  rw [hstep, Prod.mk.injEq] at hrun
  obtain ⟨hok, rfl⟩ := hrun
  rcases hm : m.run (l, db) with ⟨r, l₁, db₁⟩
  rw [hm] at hok
  cases r with
  | error e => cases hok
  | ok u =>
    cases hok
    rfl

/-- A transaction changes the database only if it is carried out. -/
theorem of_inTransaction {P : Database → Prop} {α : Type} {db : Database} {m : Step Database α}
    {answer : α → Response} (hsame : P db) (hm : ∀ a db', m.run db = (.ok a, db') → P db') :
    P (inTransaction db m answer).2 := by
  unfold inTransaction
  rcases hrun : m.run db with ⟨r, db'⟩
  cases r with
  | ok a => exact hm a db' hrun
  | error e => exact hsame

/-! Reading leaves the database as it is. -/

section Reading

variable {db : Database}

theorem keeps_load (id : Int) : Step.Keeps (· = db) (Layout.load (σ := Database) id) := by
  refine Step.Keeps.bind (fun _ h ↦ h) fun found ↦ ?_
  cases found with
  | none => exact .refuse _
  | some header => exact Step.Keeps.bind (fun _ h ↦ h) fun _ ↦ .pure _

theorem keeps_report (id : Int) (family : Option Family) :
    Step.Keeps (· = db) (report id family) := by
  apply (keeps_load id).bind
  intro l
  refine (keeps_fetchPlan (fun _ _ h ↦ h) _).bind fun plan ↦ ?_
  cases family with
  | none => exact Step.Keeps.bind (fun _ h ↦ h) fun _ _ h ↦ h
  | some f => exact Step.Keeps.bind (.pure f) fun _ _ h ↦ h

end Reading

theorem readId_eq_ok {segment : String} {id : Int} (h : readId segment = .ok id) :
    Target.id? segment = some id := by
  unfold readId at h
  split at h
  · cases h
    assumption
  · cases h

/-! What an action on a layout or the deletion of a plan does, if it does anything. -/

section Actions

variable {P : Database → Prop} {db : Database} {r : Request} {query : List Char}
  {segment : String} {answer : Response × Database}

theorem of_perform_createLayout (h : perform db r query (.createLayout segment) = .ok answer)
    (hsame : P db)
    (hsave : ∀ plan request l db',
      Layout.save.run (.ofRequest plan request, db) = (.ok (), (l, db')) → P db') :
    P answer.2 := by
  obtain ⟨plan, -, h⟩ := bind_eq_ok_iff.mp h
  obtain ⟨body, -, h⟩ := bind_eq_ok_iff.mp h
  obtain ⟨request, -, h⟩ := bind_eq_ok_iff.mp h
  cases h
  exact of_inTransaction hsame fun l db' hrun ↦ hsave _ _ l db' (run_onLayout_eq_ok hrun)

theorem of_perform_updateLayout (h : perform db r query (.updateLayout segment) = .ok answer)
    (hsame : P db)
    (hupdate : ∀ id request l l' db', Target.id? segment = some id →
      (Layout.load id).run db = (.ok l, db) →
      Layout.update.run (l.apply request, db) = (.ok (), (l', db')) → P db') :
    P answer.2 := by
  obtain ⟨id, hid, h⟩ := bind_eq_ok_iff.mp h
  obtain ⟨body, -, h⟩ := bind_eq_ok_iff.mp h
  obtain ⟨request, -, h⟩ := bind_eq_ok_iff.mp h
  cases h
  apply of_inTransaction hsame
  intro l db' hrun
  obtain ⟨loaded, db₁, hload, hstep⟩ := Step.run_bind_eq_ok_iff.mp hrun
  obtain rfl := (run_load_eq_ok hload).1
  exact hupdate id _ loaded l db' (readId_eq_ok hid) hload (run_onLayout_eq_ok hstep)

theorem of_perform_deleteLayout (h : perform db r query (.deleteLayout segment) = .ok answer)
    (hsame : P db)
    (hdelete : ∀ id db', Target.id? segment = some id → db.deleteLayout id = .ok db' → P db') :
    P answer.2 := by
  obtain ⟨id, hid, h⟩ := bind_eq_ok_iff.mp h
  cases h
  apply of_inTransaction hsame
  intro _ db' hrun
  obtain ⟨loaded, db₁, hload, hstep⟩ := Step.run_bind_eq_ok_iff.mp hrun
  obtain ⟨rfl, header, -, hheader, rfl⟩ := run_load_eq_ok hload
  apply hdelete id db' (readId_eq_ok hid)
  rw [← hheader]
  exact Database.map_mk_eq_ok_iff.mp (Database.run_change_eq_ok_iff.mp hstep)

theorem of_perform_deletePlan (h : perform db r query (.deletePlan segment) = .ok answer)
    (hsame : P db)
    (hdelete : ∀ id db', Target.id? segment = some id → db.deletePlan id = .ok db' → P db') :
    P answer.2 := by
  obtain ⟨id, hid, h⟩ := bind_eq_ok_iff.mp h
  split at h
  · rename_i hdone
    cases h
    exact hdelete id _ (readId_eq_ok hid) hdone
  · cases h
    exact hsame

end Actions

/-- The actions that only show what is stored. -/
def Action.Reads : Action → Prop
  | .showHealth | .listPlans | .showPlan _ | .listLayouts _ | .showLayout _ | .showReport _ => True
  | _ => False

section Requests

variable {db : Database} {r : Request} {query : List Char} {action : Action}
  {answer : Response × Database}

theorem perform_reads (hreads : action.Reads) (h : perform db r query action = .ok answer) :
    answer.2 = db := by
  cases action with
  | showHealth | listPlans =>
    cases h
    rfl
  | showPlan id | listLayouts id =>
    obtain ⟨id, -, h⟩ := bind_eq_ok_iff.mp h
    split at h
    · cases h
      rfl
    · cases h
      rfl
  | showLayout id =>
    obtain ⟨id, -, h⟩ := bind_eq_ok_iff.mp h
    cases h
    apply of_inTransaction (P := (· = db)) rfl
    exact fun l db' hrun ↦ (run_load_eq_ok hrun).1
  | showReport id =>
    obtain ⟨id, -, h⟩ := bind_eq_ok_iff.mp h
    split at h
    · cases h
      rfl
    · rename_i family _
      cases h
      apply of_inTransaction (P := (· = db)) rfl
      intro rows db' hrun
      have hkept : ((report id family).run db).2 = db := keeps_report id family db rfl
      rwa [hrun] at hkept
  | createPlan | deletePlan _ | createLayout _ | updateLayout _ | deleteLayout _ => cases hreads

theorem of_perform_createPlan {P : Database → Prop}
    (h : perform db r query .createPlan = .ok answer) (hsame : P db)
    (hcreate : ∀ request plan db', request.check = .ok () →
      db.createPlan request = .ok (plan, db') → P db') :
    P answer.2 := by
  obtain ⟨request, -, h⟩ := bind_eq_ok_iff.mp h
  split at h
  · cases h
    exact hsame
  · rename_i hcheck
    split at h
    · rename_i hdone
      cases h
      exact hcreate request _ _ hcheck hdone
    · cases h
      exact hsame

theorem perform_changed (h : perform db r query action = .ok answer) : Changed db answer.2 := by
  cases action with
  | createPlan => exact of_perform_createPlan h .same fun _ _ _ hr hcreate ↦ .createPlan hr hcreate
  | deletePlan id => exact of_perform_deletePlan h .same fun _ _ _ hdelete ↦ .deletePlan hdelete
  | createLayout plan => exact of_perform_createLayout h .same fun _ _ _ _ hrun ↦ .save hrun
  | updateLayout id =>
    exact of_perform_updateLayout h .same fun _ _ _ _ _ _ hload hrun ↦ .update hload hrun
  | deleteLayout id =>
    exact of_perform_deleteLayout h .same fun _ _ _ hdelete ↦ .deleteLayout hdelete
  | showHealth | listPlans | showPlan _ | listLayouts _ | showLayout _ | showReport _ =>
    have hsame : answer.2 = db := perform_reads (by trivial) h
    exact hsame ▸ .same

/-- What a request asks for.  A request for the head of an answer or for the methods that
are allowed asks for nothing else. -/
def Request.action? (r : Request) : Option Action :=
  (Route.ofPath? (Target.pathAndQuery r.target).1).bind (Action.of? · r.method)

theorem reads_of_get {route : Route} (h : Action.of? route .get = some action) :
    action.Reads := by
  cases route <;> cases h <;> trivial

/-- A request that asks for an action is answered by it. -/
theorem handle_of_action (h : r.action? = some action) :
    handle db r =
      match perform db r (Target.pathAndQuery r.target).2 action with
      | .ok answer => answer
      | .error response => (response, db) := by
  obtain ⟨route, hroute, haction⟩ := Option.bind_eq_some_iff.mp h
  unfold handle
  cases hmethod : r.method with
  | options | head =>
    rw [hmethod] at haction
    cases route <;> cases haction
  | get | post | put | delete | other =>
    rw [hmethod] at haction
    cases hperform : perform db r (Target.pathAndQuery r.target).2 action with
    | ok answer => simp only [dispatch, hroute, haction, hperform]
    | error response => simp only [dispatch, hroute, haction, hperform]

theorem handle_of_no_action (h : r.action? = none) : (handle db r).2 = db := by
  have hdispatch : ∀ path query method,
      (∀ route action, Route.ofPath? path = some route → Action.of? route method = some action →
        action.Reads) → (dispatch db r path query method).2 = db := by
    intro path query method hreads
    unfold dispatch
    split
    · rfl
    · split
      · rfl
      · rename_i haction
        split
        · rename_i hok
          exact perform_reads (hreads _ _ ‹_› haction) hok
        · rfl
  unfold handle
  cases hmethod : r.method with
  | options => rfl
  | head => exact hdispatch _ _ .get fun _ _ _ haction ↦ reads_of_get haction
  | get | post | put | delete | other =>
    refine hdispatch (Target.pathAndQuery r.target).1 _ _ fun route action hroute haction ↦ ?_
    rw [Request.action?, hroute, Option.bind_some, hmethod, haction] at h
    cases h

end Requests

theorem handle_changed (db : Database) (r : Request) : Changed db (handle db r).2 := by
  cases haction : r.action? with
  | none =>
    rw [handle_of_no_action haction]
    exact .same
  | some action =>
    rw [handle_of_action haction]
    split
    · exact perform_changed ‹_›
    · exact .same

theorem Changed.coherent {db db' : Database} (h : Changed db db') (hdb : db.Coherent) :
    db'.Coherent := by
  cases h with
  | same => exact hdb
  | createPlan hr h => exact hdb.createPlan hr h
  | deletePlan h => exact hdb.deletePlan h
  | save h => exact hdb.save (ready_of_kept_none rfl) h
  | update hload h =>
    obtain ⟨-, header, hheader, -, rfl⟩ := run_load_eq_ok hload
    exact hdb.update ⟨header, hheader, rfl⟩ h
  | deleteLayout h => exact hdb.deleteLayout h

/-- The database after requests that were answered one after the other, the first of them
from an empty one. -/
def afterAll (requests : List Request) : Database :=
  requests.foldl (fun db r ↦ (handle db r).2) {}

theorem coherent_foldl (requests : List Request) {db : Database} (h : db.Coherent) :
    (requests.foldl (fun db r ↦ (handle db r).2) db).Coherent := by
  induction requests generalizing db with
  | nil => exact h
  | cons r requests ih => exact ih ((handle_changed db r).coherent h)

theorem coherent_afterAll (requests : List Request) : (afterAll requests).Coherent :=
  coherent_foldl requests Database.Coherent.empty

/-- Whatever is requested in whatever order, and whether it succeeds or fails, the database
is consistent. -/
theorem afterAll_consistent (requests : List Request) : (afterAll requests).Consistent :=
  (coherent_foldl requests Database.Coherent.empty).toConsistent

end Service

end AddressPlan
