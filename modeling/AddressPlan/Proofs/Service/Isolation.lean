import AddressPlan.Proofs.Service.Runs

/-!
# Layouts are kept apart

Nodes are deleted along parent ids over the whole table, and a request may name whatever ids
it likes.  In a coherent database parent ids do not leave a layout, so a change to one layout
leaves the headers and rows of all others alone, and no change to a layout touches a plan.
The deletion of a plan takes away that plan, its layouts and their rows, and nothing else.
-/

namespace AddressPlan

open Rows NodeTree Layout

namespace Database

/-- The plans, and the headers and rows of the layouts in `kept`, are as they were. -/
structure Untouched (kept : Int → Prop) (db db' : Database) : Prop where
  plans : db'.plans = db.plans
  headers : ∀ k, kept k → db'.headers.filter (·.id == k) = db.headers.filter (·.id == k)
  rows : ∀ k, kept k → ofLayout db'.nodes k = ofLayout db.nodes k

/-- The plan under `id`, its layouts and their rows are gone, and all else is as it was. -/
structure WithoutPlan (id : Int) (db db' : Database) : Prop where
  unique : ∀ p ∈ db.plans, ∀ q ∈ db.plans, p.id = id → q.id = id → p = q
  plans : db'.plans = db.plans.filter (·.id != id)
  headers : db'.headers = db.headers.filter (·.planId != id)
  gone : ∀ header ∈ db.headers, header.planId = id → ofLayout db'.nodes header.id = []
  rows : ∀ header ∈ db.headers, header.planId ≠ id →
    ofLayout db'.nodes header.id = ofLayout db.nodes header.id
  counters : (db'.lastPlan, db'.lastLayout, db'.lastNode) =
    (db.lastPlan, db.lastLayout, db.lastNode)

theorem Untouched.refl (kept : Int → Prop) (db : Database) : Untouched kept db db :=
  ⟨rfl, fun _ _ ↦ rfl, fun _ _ ↦ rfl⟩

theorem Untouched.mono {kept kept' : Int → Prop} {db db' : Database}
    (h : Untouched kept db db') (hkept : ∀ k, kept' k → kept k) : Untouched kept' db db' :=
  ⟨h.plans, fun k hk ↦ h.headers k (hkept k hk), fun k hk ↦ h.rows k (hkept k hk)⟩

theorem filter_ne_filter {α : Type} (key : α → Int) (as : List α) {id : Int} (k : Int)
    (hk : k ≠ id) : (as.filter (key · != id)).filter (key · == k) = as.filter (key · == k) := by
  rw [List.filter_filter]
  apply List.filter_congr
  intro a _
  by_cases hkey : key a = k
  · simp [hkey, hk]
  · simp [hkey]

theorem untouched_deleteLayout {db db' : Database} {id : Int}
    (hdelete : db.deleteLayout id = .ok db') : Untouched (· ≠ id) db db' := by
  obtain rfl := deleteLayout_eq_ok hdelete
  exact ⟨rfl, filter_ne_filter LayoutHeader.id db.headers, filter_ne_filter Node.layoutId db.nodes⟩

/-! ## Ids of plans and layouts -/

/-- A coherent database in which the ids of plans and of layouts are distinct. -/
structure Indexed (db : Database) : Prop extends Coherent db where
  plans_nodup : (db.plans.map Plan.id).Nodup
  plans_le : ∀ plan ∈ db.plans, plan.id ≤ db.lastPlan
  headers_nodup : (db.headers.map LayoutHeader.id).Nodup

namespace Coherent

variable {db db' : Database} {l l' : Layout}

/-- Parents of rows are rows of the same layout, whether or not the layout is stored. -/
theorem parentsIn (h : Coherent db) (k : Int) : ParentsIn (ofLayout db.nodes k) := by
  intro n hn
  obtain ⟨header, hheader, hid⟩ := h.layout_stored n (mem_ofLayout.mp hn).1
  have htree := h.trees header hheader
  rw [hid, (mem_ofLayout.mp hn).2] at htree
  exact htree.parentsIn n hn

theorem next_layout_new (h : Coherent db) :
    ∀ header ∈ db.headers, header.id ≠ db.lastLayout + 1 := by
  intro header hheader
  have hle := h.headers_le header hheader
  omega

/-- A save adds one header under a new id, and rows of that layout only. -/
theorem save_adds (h : Coherent db) (hready : l.Ready)
    (hrun : Layout.save.run (l, db) = (.ok (), (l', db'))) :
    db'.catalogue = (db.plans, db.lastPlan,
        db.headers ++ [{ l.header with id := db.lastLayout + 1 }], db.lastLayout + 1) ∧
      ∀ k, k ≠ db.lastLayout + 1 → ofLayout db'.nodes k = ofLayout db.nodes k := by
  obtain ⟨plan, db₂, -, rfl, h₂, hcatalogue, -, -, -, hrewrite⟩ :=
    h.exists_rewrite_of_save hready hrun
  exact ⟨hcatalogue, fun k hk ↦ hrewrite.ofLayout_other h₂.keyed hk (h₂.parentsIn k)⟩

theorem update_rows (h : Coherent db) (hheader : ∃ header ∈ db.headers, header.id = l.header.id)
    (hrun : Layout.update.run (l, db) = (.ok (), (l', db'))) {k : Int} (hk : k ≠ l.header.id) :
    ofLayout db'.nodes k = ofLayout db.nodes k := by
  obtain ⟨plan, -, -, -, -, t', gone, places, hrewrite⟩ :=
    exists_rewrite_of_update (s := db) h.numbered (h.tree hheader) hrun
  exact hrewrite.ofLayout_other h.keyed hk (h.parentsIn k)

end Coherent

namespace Indexed

variable {db db' : Database} {l l' : Layout}

theorem empty : Indexed {} :=
  { Coherent.empty with
    plans_nodup := List.nodup_nil
    plans_le := fun _ h ↦ absurd h List.not_mem_nil
    headers_nodup := List.nodup_nil }

theorem headers_eq_of_id (h : Indexed db) {a b : LayoutHeader} (ha : a ∈ db.headers)
    (hb : b ∈ db.headers) (hid : a.id = b.id) : a = b :=
  List.inj_on_of_nodup_map h.headers_nodup ha hb hid

theorem createPlan (h : Indexed db) {r : PlanRequest} {plan : Plan} (hr : r.check = .ok ())
    (hcreate : db.createPlan r = .ok (plan, db')) : Indexed db' := by
  refine { h.toCoherent.createPlan hr hcreate with
    plans_nodup := ?_, plans_le := ?_, headers_nodup := ?_ }
  all_goals obtain ⟨-, new, hid, -, -, rfl⟩ := createPlan_eq_ok hcreate
  · refine nodup_map_concat h.plans_nodup fun p hp ↦ ?_
    have hle := h.plans_le p hp
    omega
  · intro p hp
    change p.id ≤ new.id
    rcases List.mem_append.mp hp with hp | hp
    · have hle := h.plans_le p hp
      omega
    · exact Int.le_of_eq (congrArg Plan.id (List.mem_singleton.mp hp))
  · exact h.headers_nodup

theorem deletePlan (h : Indexed db) {id : Int} (hdelete : db.deletePlan id = .ok db') :
    Indexed db' := by
  refine { h.toCoherent.deletePlan hdelete with
    plans_nodup := ?_, plans_le := ?_, headers_nodup := ?_ }
  all_goals obtain rfl := deletePlan_eq_ok hdelete
  · exact h.plans_nodup.sublist (List.filter_sublist.map _)
  · exact fun p hp ↦ h.plans_le p (List.mem_of_mem_filter hp)
  · exact h.headers_nodup.sublist (List.filter_sublist.map _)

theorem save (h : Indexed db) (hready : l.Ready)
    (hrun : Layout.save.run (l, db) = (.ok (), (l', db'))) : Indexed db' := by
  obtain ⟨hplans, hlastPlan, hheaders, -⟩ :=
    catalogue_eq_iff.mp (h.toCoherent.save_adds hready hrun).1
  refine { h.toCoherent.save hready hrun with
    plans_nodup := hplans ▸ h.plans_nodup
    plans_le := by rw [hplans, hlastPlan]; exact h.plans_le
    headers_nodup := ?_ }
  rw [hheaders]
  exact nodup_map_concat h.headers_nodup h.next_layout_new

theorem update (h : Indexed db) (hheader : ∃ header ∈ db.headers, header.id = l.header.id)
    (hrun : Layout.update.run (l, db) = (.ok (), (l', db'))) : Indexed db' := by
  obtain ⟨hplans, hlastPlan, -, -⟩ := catalogue_eq_iff.mp (catalogue_update hrun)
  refine { h.toCoherent.update hheader hrun with
    plans_nodup := hplans ▸ h.plans_nodup
    plans_le := by rw [hplans, hlastPlan]; exact h.plans_le
    headers_nodup := ?_ }
  have hids : db'.headers.map LayoutHeader.id = db.headers.map LayoutHeader.id := by
    have hpairs := congrArg (fun f ↦ f.2.1.map Prod.fst) (frame_update hrun)
    simp only [frame, List.map_map] at hpairs
    exact hpairs
  exact hids ▸ h.headers_nodup

theorem deleteLayout (h : Indexed db) {id : Int} (hdelete : db.deleteLayout id = .ok db') :
    Indexed db' := by
  refine { h.toCoherent.deleteLayout hdelete with
    plans_nodup := ?_, plans_le := ?_, headers_nodup := ?_ }
  all_goals obtain rfl := deleteLayout_eq_ok hdelete
  · exact h.plans_nodup
  · exact h.plans_le
  · exact h.headers_nodup.sublist (List.filter_sublist.map _)

/-! ## What a change leaves untouched -/

theorem untouched_save (h : Indexed db) (hready : l.Ready)
    (hrun : Layout.save.run (l, db) = (.ok (), (l', db'))) :
    Untouched (· ≠ db.lastLayout + 1) db db' := by
  obtain ⟨hcatalogue, hrows⟩ := h.toCoherent.save_adds hready hrun
  obtain ⟨hplans, -, hheaders, -⟩ := catalogue_eq_iff.mp hcatalogue
  refine ⟨hplans, fun k hk ↦ ?_, hrows⟩
  have hnew : ({ l.header with id := db.lastLayout + 1 }.id == k) = false :=
    beq_eq_false_iff_ne.mpr fun heq ↦ hk heq.symm
  rw [hheaders, List.filter_append, List.filter_cons_of_neg (by simp [hnew]), List.filter_nil,
    List.append_nil]

theorem untouched_update (h : Indexed db)
    (hheader : ∃ header ∈ db.headers, header.id = l.header.id)
    (hrun : Layout.update.run (l, db) = (.ok (), (l', db'))) :
    Untouched (· ≠ l.header.id) db db' := by
  obtain ⟨hplans, -, hheaders, -⟩ := catalogue_eq_iff.mp (catalogue_update hrun)
  refine ⟨hplans, fun k hk ↦ ?_, fun k hk ↦ h.toCoherent.update_rows hheader hrun hk⟩
  rw [hheaders, List.filter_map]
  -- The headers with the id `k` are those that the update leaves alone.
  have hother : ∀ old ∈ db.headers.filter (·.id == k),
      (if old.id == l.header.id then { l.header with planId := old.planId } else old) = old := by
    intro old hold
    have hid : old.id = k := beq_iff_eq.mp (List.mem_filter.mp hold).2
    exact if_neg (by simpa [hid] using hk)
  have hpick : db.headers.filter ((·.id == k) ∘ fun old ↦
      if old.id == l.header.id then { l.header with planId := old.planId } else old) =
      db.headers.filter (·.id == k) := by
    apply List.filter_congr
    intro old _
    by_cases hid : old.id = l.header.id
    · simp [hid]
    · simp [hid]
  rw [hpick]
  exact (List.map_congr_left hother).trans (List.map_id _)

theorem withoutPlan (h : Indexed db) {id : Int} (hdelete : db.deletePlan id = .ok db') :
    WithoutPlan id db db' := by
  obtain rfl := deletePlan_eq_ok hdelete
  refine
    { unique := fun p hp q hq hpid hqid ↦
        List.inj_on_of_nodup_map h.plans_nodup hp hq (hpid.trans hqid.symm)
      plans := rfl
      headers := rfl
      gone := fun header hheader hplan ↦ ?_
      rows := fun header hheader hplan ↦ ?_
      counters := rfl }
  · simp only [ofLayout, List.filter_filter, List.filter_eq_nil_iff]
    intro n hn hkept
    simp only [Bool.and_eq_true, beq_iff_eq, Bool.not_eq_true', List.contains_eq_mem,
      decide_eq_false_iff_not] at hkept
    exact hkept.2 (List.mem_map.mpr
      ⟨header, List.mem_filter.mpr ⟨hheader, by simpa using hplan⟩, hkept.1.symm⟩)
  · have hstays : header.id ∉ (db.headers.filter (·.planId == id)).map LayoutHeader.id := by
      intro hgone
      obtain ⟨other, hother, hsame⟩ := List.mem_map.mp hgone
      obtain ⟨hother, hplan'⟩ := List.mem_filter.mp hother
      rw [h.headers_eq_of_id hother hheader hsame] at hplan'
      exact hplan (by simpa using hplan')
    simp only [ofLayout, List.filter_filter]
    apply List.filter_congr
    intro n _
    by_cases hid : n.layoutId = header.id
    · simpa [hid] using hstays
    · simp [hid]

/-- A plan that is not stored has no layouts. -/
theorem withoutPlan_of_absent (h : Indexed db) {id : Int} (habsent : ∀ p ∈ db.plans, p.id ≠ id) :
    WithoutPlan id db db := by
  have hnone : ∀ header ∈ db.headers, header.planId ≠ id := by
    intro header hheader heq
    obtain ⟨p, hp, hid⟩ := h.plan_stored header hheader
    exact habsent p hp (hid.trans heq)
  exact
    { unique := fun p hp q hq hpid hqid ↦ absurd hpid (habsent p hp)
      plans := (List.filter_eq_self.mpr fun p hp ↦ by simpa using habsent p hp).symm
      headers := (List.filter_eq_self.mpr fun header hheader ↦ by
        simpa using hnone header hheader).symm
      gone := fun header hheader hplan ↦ absurd hplan (hnone header hheader)
      rows := fun _ _ _ ↦ rfl
      counters := rfl }

end Indexed

end Database

namespace Service

open Database

theorem Changed.indexed {db db' : Database} (h : Changed db db') (hdb : db.Indexed) :
    db'.Indexed := by
  cases h with
  | same => exact hdb
  | createPlan hr h => exact hdb.createPlan hr h
  | deletePlan h => exact hdb.deletePlan h
  | save h => exact hdb.save (ready_of_kept_none rfl) h
  | update hload h =>
    obtain ⟨-, header, hheader, -, rfl⟩ := run_load_eq_ok hload
    exact hdb.update ⟨header, hheader, rfl⟩ h
  | deleteLayout h => exact hdb.deleteLayout h

theorem indexed_foldl (requests : List Request) {db : Database} (h : db.Indexed) :
    (requests.foldl (fun db r ↦ (handle db r).2) db).Indexed := by
  induction requests generalizing db with
  | nil => exact h
  | cons r requests ih => exact ih ((handle_changed db r).indexed h)

/-- What an action leaves alone.  A new layout gets an id that no layout has, and a path that
shows no id changes nothing. -/
def Confined (db db' : Database) : Action → Prop
  | .createPlan => db'.headers = db.headers ∧ db'.nodes = db.nodes
  | .deletePlan segment =>
    match Target.id? segment with
    | some id => WithoutPlan id db db'
    | none => db' = db
  | .createLayout _ => ∃ new, (∀ header ∈ db.headers, header.id ≠ new) ∧ Untouched (· ≠ new) db db'
  | .updateLayout segment | .deleteLayout segment =>
    Untouched (fun k ↦ Target.id? segment ≠ some k) db db'
  | .showHealth | .listPlans | .showPlan _ | .listLayouts _ | .showLayout _ | .showReport _ =>
    db' = db

theorem perform_confined {db : Database} (hdb : db.Indexed) {r : Request} {query : List Char}
    {action : Action} {answer : Response × Database}
    (h : perform db r query action = .ok answer) : Confined db answer.2 action := by
  cases action with
  | createPlan =>
    apply of_perform_createPlan (P := (Confined db · .createPlan)) h ⟨rfl, rfl⟩
    intro request plan db' _ hcreate
    obtain ⟨-, new, -, -, -, rfl⟩ := createPlan_eq_ok hcreate
    exact ⟨rfl, rfl⟩
  | deletePlan segment =>
    obtain ⟨id, hid, hdone⟩ := bind_eq_ok_iff.mp h
    simp only [Confined, readId_eq_ok hid]
    split at hdone
    · rename_i hdelete
      cases hdone
      exact hdb.withoutPlan hdelete
    · rename_i hmissing
      cases hdone
      exact hdb.withoutPlan_of_absent (deletePlan_eq_error hmissing)
  | createLayout segment =>
    apply of_perform_createLayout (P := (Confined db · (.createLayout segment))) h
      ⟨_, hdb.next_layout_new, .refl _ db⟩
    exact fun plan request l db' hrun ↦
      ⟨_, hdb.next_layout_new, hdb.untouched_save (ready_of_kept_none rfl) hrun⟩
  | updateLayout segment =>
    apply of_perform_updateLayout (P := (Confined db · (.updateLayout segment))) h (.refl _ db)
    intro id request l l' db' hid hload hrun
    obtain ⟨-, header, hheader, rfl, rfl⟩ := run_load_eq_ok hload
    have huntouched := hdb.untouched_update ⟨header, hheader, rfl⟩ hrun
    exact huntouched.mono fun k hk heq ↦ hk (hid.trans (congrArg some heq.symm))
  | deleteLayout segment =>
    apply of_perform_deleteLayout (P := (Confined db · (.deleteLayout segment))) h (.refl _ db)
    intro id db' hid hdelete
    exact (untouched_deleteLayout hdelete).mono fun k hk heq ↦
      hk (hid.trans (congrArg some heq.symm))
  | showHealth | listPlans | showPlan _ | listLayouts _ | showLayout _ | showReport _ =>
    exact perform_reads (by trivial) h

/-- An action that is refused before it looks at the database does not name a plan. -/
theorem confined_of_refused {db : Database} (hdb : db.Indexed) {r : Request}
    {query : List Char} {action : Action} {response : Response}
    (h : perform db r query action = .error response) :
    Confined db db action := by
  cases action with
  | createPlan => exact ⟨rfl, rfl⟩
  | deletePlan segment =>
    cases hid : Target.id? segment with
    | none => simp only [Confined, hid]
    | some id =>
      have hread : readId segment = .ok id := by rw [readId, hid]
      simp only [perform, hread, bind, Except.bind] at h
      split at h
      · cases h
      · cases h
  | createLayout segment => exact ⟨_, hdb.next_layout_new, .refl _ db⟩
  | updateLayout segment | deleteLayout segment => exact .refl _ db
  | showHealth | listPlans | showPlan _ | listLayouts _ | showLayout _ | showReport _ => rfl

/-- Whatever was requested before, a request changes only what it names.  A change to a layout
leaves all plans and the headers and rows of the other layouts alone, whatever ids its body
brings, and the deletion of a plan takes away just that plan with its layouts and their rows. -/
theorem handle_confined (requests : List Request) (r : Request) :
    match r.action? with
    | some action => Confined (afterAll requests) (handle (afterAll requests) r).2 action
    | none => (handle (afterAll requests) r).2 = afterAll requests := by
  have hdb : (afterAll requests).Indexed := indexed_foldl requests .empty
  cases haction : r.action? with
  | none => exact handle_of_no_action haction
  | some action =>
    dsimp only
    rw [handle_of_action haction]
    split
    · exact perform_confined hdb ‹_›
    · exact confined_of_refused hdb ‹_›

end Service

end AddressPlan
