import AddressPlan.Proofs.Layout.Retry
import AddressPlan.Proofs.Service.Runs

/-!
# Layouts that are not stored

Loading a layout that is not stored is refused alike by both stores.  Its update is refused by
both when the header is to be written, but only the recording store says that the layout was not
found; and only the database refuses to delete it.  The service loads a layout before it does
anything else with it, so all of this shows to its clients as a layout that is not found.
-/

namespace AddressPlan

open Step FailingStore

namespace Layout

variable {σ : Type} [Store σ] {plan : Plan} {l : Layout} {s s₁ s₂ : σ} {id : Int} {e : PlanError}

/-- The store has the plan of the layout, but not the layout. -/
structure Lacks (plan : Plan) (l : Layout) (s : σ) : Prop where
  plan_stored : ((Store.plan? l.header.planId).run s).1 = .ok (some plan)
  header_missing : ((Store.header? l.header.id).run s).1 = .ok none

theorem run_load_of_missing (hmissing : ((Store.header? id).run s).1 = .ok none) :
    (load id).run s = (.error (.notFound "Layout" id), ((Store.header? id).run s).2) := by
  rw [load, run_bind_ok (run_eq_mk_of_fst hmissing)]
  rfl

/-- A layout that is ready to be written is refused for what the store has against its header. -/
theorem run_update_of_header_refused
    (hplan : (Store.plan? l.header.planId).run s = (.ok (some plan), s₁))
    (hprepared : ((prepare plan).run l.dropTree).1 = .ok ())
    (hheader : (Store.updateHeader l.header).run s₁ = (.error e, s₂)) :
    ∃ l', update.run (l, s) = (.error e, (l', s₂)) := by
  have hrun := run_eq_mk_of_fst hprepared
  have hsame := (keeps_sameContent_prepare l.dropTree plan).of_run ⟨rfl, rfl⟩ hrun
  generalize ((prepare plan).run l.dropTree).2 = prepared at hrun hsame
  obtain ⟨_, checked, hcheck, hfill⟩ := run_bind_eq_ok_iff.mp hrun
  have hfetch : (Step.second (fetchPlan l.header.planId)).run (l, s) = (.ok plan, (l, s₁)) :=
    run_second_eq_ok_iff.mpr ⟨run_bind_ok hplan, rfl⟩
  have hchecked : (Step.first (check plan)).run (l.dropTree, s₁) = (.ok (), (checked, s₁)) :=
    run_first_eq_ok_iff.mpr ⟨hcheck, rfl⟩
  have hfilled : (Step.first (Layout.fill plan)).run (checked, s₁) = (.ok (), (prepared, s₁)) :=
    run_first_eq_ok_iff.mpr ⟨hfill, rfl⟩
  have hrefused : (Step.second (Store.updateHeader prepared.header)).run (prepared, s₁) =
      (.error e, (prepared, s₂)) := by
    rw [run_second, hsame.header, show l.dropTree.header = l.header from rfl, hheader]
  have hdropped : (Step.first (Step.modify dropTree)).run (l, s₁) =
      (.ok (), (l.dropTree, s₁)) := rfl
  refine ⟨prepared, ?_⟩
  rw [update, run_bind_ok (run_get _), run_bind_ok hfetch, run_bind_ok hdropped,
    run_bind_ok hchecked, run_bind_ok hfilled, run_bind_ok (run_get _)]
  exact run_bind_error hrefused

end Layout

/-! ## In the two stores -/

namespace Recording

variable {s : Recording} {header : LayoutHeader}

theorem run_updateHeader_of_missing (hmissing : s.headers.find? (·.id == header.id) = none) :
    (Store.updateHeader header).run s =
      (.error (.notFound "Layout" header.id), s.record (.updateHeader header.id)) := by
  have hnone : (s.record (.updateHeader header.id)).headers.any (·.id == header.id) = false := by
    rw [List.any_eq_false]
    exact List.find?_eq_none.mp hmissing
  change updateHeader header s = _
  rw [updateHeader, hnone]
  rfl

end Recording

namespace Database

variable {db : Database} {header : LayoutHeader} {id : Int}

theorem any_id_eq_false_of_missing (hmissing : db.header? id = none) :
    db.headers.any (·.id == id) = false :=
  List.any_eq_false.mpr (List.find?_eq_none.mp hmissing)

theorem run_updateHeader_of_missing (hmissing : db.header? header.id = none) :
    (Store.updateHeader header).run db =
      (.error (.storeFailure (.missing "Layout" (toString header.id))), db) := by
  change change (fun db ↦ (db.updateHeader header).map (Prod.mk ())) db = _
  rw [change, updateHeader, any_id_eq_false_of_missing hmissing]
  rfl

theorem run_deleteLayout_of_missing (hmissing : db.header? id = none) :
    (Store.deleteLayout id).run db =
      (.error (.storeFailure (.missing "Layout" (toString id))), db) := by
  change change (fun db ↦ (db.deleteLayout id).map (Prod.mk ())) db = _
  rw [change, deleteLayout, any_id_eq_false_of_missing hmissing]
  rfl

end Database

/-! ## In the service -/

namespace Service

variable {db : Database} {r : Request} {query : List Char} {action : Action} {segment : String}
  {id : Int}

/-- The layout that an action is about. -/
def Action.layout? : Action → Option String
  | .showLayout id | .updateLayout id | .deleteLayout id | .showReport id => some id
  | _ => none

/-- What the request brings along for the action can be read. -/
def Action.Readable (r : Request) (query : List Char) : Action → Prop
  | .updateLayout _ => ∃ request,
      (readBody Body.layoutRequest r >>= fun body ↦ requireName body) = .ok request
  | .showReport _ => ∃ family, Target.family query = .ok family
  | _ => True

theorem inTransaction_of_error {α : Type} {m : Step Database α} {e : PlanError} {db' : Database}
    (hrun : m.run db = (.error e, db')) (answer : α → Response) :
    inTransaction db m answer = ((Failure.ofPlanError e).response, db) := by
  rw [inTransaction, hrun]

/-- Whatever is done with a layout that is not stored, it is not found. -/
theorem perform_of_missing (haction : action.layout? = some segment)
    (hid : Target.id? segment = some id) (hreadable : action.Readable r query)
    (hmissing : db.header? id = none) :
    perform db r query action = .ok ((Failure.notFound "Layout").response, db) := by
  have hsegment : readId segment = .ok id := by
    rw [readId, hid]
  have hload : (Layout.load id).run db = (.error (.notFound "Layout" id), db) :=
    Layout.run_load_of_missing (congrArg Except.ok hmissing)
  cases action with
  | showLayout _ =>
    cases haction
    rw [perform, hsegment]
    exact congrArg Except.ok (inTransaction_of_error hload _)
  | deleteLayout _ =>
    cases haction
    rw [perform, hsegment]
    exact congrArg Except.ok (inTransaction_of_error (run_bind_error hload) _)
  | updateLayout _ =>
    cases haction
    obtain ⟨request, hrequest⟩ := hreadable
    obtain ⟨body, hbody, hname⟩ := bind_eq_ok_iff.mp hrequest
    rw [perform, hsegment, hbody]
    change (requireName body >>= _) = _
    rw [hname]
    exact congrArg Except.ok (inTransaction_of_error (run_bind_error hload) _)
  | showReport _ =>
    cases haction
    obtain ⟨family, hfamily⟩ := hreadable
    rw [perform, hsegment]
    simp only [bind, Except.bind, hfamily]
    exact congrArg Except.ok (inTransaction_of_error (run_bind_error hload) _)
  | showHealth | listPlans | createPlan | showPlan _ | deletePlan _ | listLayouts _
  | createLayout _ => cases haction

theorem handle_of_missing (haction : r.action? = some action)
    (hlayout : action.layout? = some segment) (hid : Target.id? segment = some id)
    (hreadable : action.Readable r (Target.pathAndQuery r.target).2)
    (hmissing : db.header? id = none) :
    handle db r = ((Failure.notFound "Layout").response, db) := by
  rw [handle_of_action haction, perform_of_missing hlayout hid hreadable hmissing]

end Service

/-! ## What is reported -/

namespace Layout

variable {plan : Plan} {l : Layout}

/-- A layout is not found when it is loaded, its update is refused with `e`, and neither changes
anything that is stored. -/
structure Missed {σ : Type} [Store σ] [FailingStore σ] (l : Layout) (e : PlanError) (s : σ) :
    Prop where
  load : ∃ s', (load l.header.id).run s = (.error (.notFound "Layout" l.header.id), s') ∧
    contents s' = contents s
  update : ∃ l' s', update.run (l, s) = (.error e, (l', s')) ∧ contents s' = contents s

theorem Lacks.missed_recording {s : Recording} (h : Lacks plan l s)
    (hprepared : ((prepare plan).run l.dropTree).1 = .ok ()) :
    Missed l (.notFound "Layout" l.header.id) s := by
  obtain ⟨l', hupdate⟩ := run_update_of_header_refused (run_eq_mk_of_fst h.plan_stored) hprepared
    (Recording.run_updateHeader_of_missing (Except.ok.inj h.header_missing))
  exact ⟨⟨_, run_load_of_missing h.header_missing, rfl⟩, l', _, hupdate, rfl⟩

theorem Lacks.missed_database {db : Database} (h : Lacks plan l db)
    (hprepared : ((prepare plan).run l.dropTree).1 = .ok ()) :
    Missed l (.storeFailure (.missing "Layout" (toString l.header.id))) db := by
  obtain ⟨l', hupdate⟩ := run_update_of_header_refused (run_eq_mk_of_fst h.plan_stored) hprepared
    (Database.run_updateHeader_of_missing (Except.ok.inj h.header_missing))
  exact ⟨⟨_, run_load_of_missing h.header_missing, rfl⟩, l', _, hupdate, rfl⟩

/-- The recording store deletes no layout that it does not have, but rows that belong to none. -/
theorem Lacks.run_delete_recording {s : Recording} (h : Lacks plan l s) :
    ∃ s', (delete l).run s = (.ok (), s') ∧
      contents s' = (s.plans, s.headers, s.nodes.filter (·.layoutId != l.header.id)) := by
  have hmissing : s.headers.find? (·.id == l.header.id) = none :=
    Except.ok.inj h.header_missing
  have hothers : s.headers.filter (·.id != l.header.id) = s.headers :=
    List.filter_eq_self.mpr fun header hheader ↦ bne_iff_ne.mpr fun hid ↦
      List.find?_eq_none.mp hmissing header hheader (beq_iff_eq.mpr hid)
  refine ⟨_, rfl, ?_⟩
  change (s.plans, s.headers.filter (·.id != l.header.id), _) = _
  rw [hothers]

/-- A layout that is ready to be written, but not stored.  The recording store reports it as not
found when it is loaded or updated, and deletes it without complaint.  The database reports it as
not found only when it is loaded; its update and its deletion come out as failures of the store,
which would show as an internal error.  The service loads first, so that whatever a client asks
of a layout that is not stored is answered with `404` and changes nothing. -/
theorem missing_reported (hprepared : ((prepare plan).run l.dropTree).1 = .ok ()) :
    (∀ s : Recording, Lacks plan l s → Missed l (.notFound "Layout" l.header.id) s ∧
      ∃ s', (delete l).run s = (.ok (), s') ∧
        contents s' = (s.plans, s.headers, s.nodes.filter (·.layoutId != l.header.id))) ∧
    (∀ db : Database, Lacks plan l db →
      Missed l (.storeFailure (.missing "Layout" (toString l.header.id))) db ∧
      (delete l).run db =
        (.error (.storeFailure (.missing "Layout" (toString l.header.id))), db)) ∧
    (Service.Failure.ofPlanError (.notFound "Layout" l.header.id)).status = .notFound ∧
    (Service.Failure.ofPlanError
      (.storeFailure (.missing "Layout" (toString l.header.id)))).status = .internal ∧
    ∀ (db : Database) (r : Service.Request) (action : Service.Action) (segment : String),
      r.action? = some action → action.layout? = some segment →
      Service.Target.id? segment = some l.header.id →
      action.Readable r (Service.Target.pathAndQuery r.target).2 →
      db.header? l.header.id = none →
      Service.handle db r = ((Service.Failure.notFound "Layout").response, db) :=
  ⟨fun _ h ↦ ⟨h.missed_recording hprepared, h.run_delete_recording⟩,
    fun _ h ↦ ⟨h.missed_database hprepared,
      Database.run_deleteLayout_of_missing (Except.ok.inj h.header_missing)⟩,
    rfl, rfl, fun _ _ _ _ haction hlayout hid hreadable hmissing ↦
      Service.handle_of_missing haction hlayout hid hreadable hmissing⟩

/-! The plan is stored, and a layout of it has an id that was never given. -/

def strayLayout : Layout where
  header := { id := 99, planId := 1, name := "stray", autoFill := false, firstFinished := false }
  nodes := [{ id := 1, name := "root" }]

def strayPlan : Plan where
  id := 1
  cidr := "10.0.0.0/8"
  maskLength := 24
  layoutCount := some 0

theorem lacks_stray_recording : Lacks strayPlan strayLayout { plans := [strayPlan] : Recording } :=
  ⟨by decide +kernel, by decide +kernel⟩

theorem lacks_stray_database :
    Lacks strayPlan strayLayout { plans := [strayPlan], lastPlan := 1 : Database } :=
  ⟨by decide +kernel, by decide +kernel⟩

theorem missing_reported_stray :
    let s : Recording := { plans := [strayPlan] }
    let db : Database := { plans := [strayPlan], lastPlan := 1 }
    Missed strayLayout (.notFound "Layout" 99) s ∧ ((delete strayLayout).run s).1 = .ok () ∧
      Missed strayLayout (.storeFailure (.missing "Layout" "99")) db ∧
      ((delete strayLayout).run db).1 = .error (.storeFailure (.missing "Layout" "99")) ∧
      Service.handle db { method := .delete, target := "/api/layouts/99" } =
        ((Service.Failure.notFound "Layout").response, db) := by
  intro s db
  have hprepared : ((prepare strayPlan).run strayLayout.dropTree).1 = .ok () := by decide +kernel
  obtain ⟨hrecording, hdatabase, -, -, hservice⟩ := missing_reported hprepared
  obtain ⟨hmissed, s', hdeleted, -⟩ := hrecording s lacks_stray_recording
  obtain ⟨hmissed', hrefused⟩ := hdatabase db lacks_stray_database
  refine ⟨hmissed, congrArg Prod.fst hdeleted, hmissed', congrArg Prod.fst hrefused, ?_⟩
  exact hservice db _ (.deleteLayout "99") "99" (by decide +kernel) rfl (by decide +kernel) trivial
    (by decide +kernel)

/-- The database does not report the update as one of a layout that is not found, and neither
store reports the deletion that way. -/
theorem update_delete_stray_not_notFound :
    let s : Recording := { plans := [strayPlan] }
    let db : Database := { plans := [strayPlan], lastPlan := 1 }
    ((prepare strayPlan).run strayLayout.dropTree).1 = .ok () ∧ Lacks strayPlan strayLayout s ∧
      Lacks strayPlan strayLayout db ∧
      (update.run (strayLayout, db)).1 ≠ .error (.notFound "Layout" 99) ∧
      ((delete strayLayout).run db).1 ≠ .error (.notFound "Layout" 99) ∧
      ((delete strayLayout).run s).1 ≠ .error (.notFound "Layout" 99) :=
  ⟨by decide +kernel, lacks_stray_recording, lacks_stray_database, by decide +kernel,
    by decide +kernel, by decide +kernel⟩

end Layout

end AddressPlan
