import AddressPlan.Proofs.Layout.Validity
import AddressPlan.Proofs.Service.Isolation
import AddressPlan.Report.ByFamily

/-!
# Layouts stay valid in the store

A client creates and deletes plans, and loads, changes, saves, updates and deletes layouts in
any order.  Of a layout all of whose updates flag what they change, the stored rows pass the
check whenever they are loaded back.  An update may change anything else without a flag, and
what it does to other layouts does not matter.
-/

namespace AddressPlan

open Rows NodeTree Layout

/-- What a client of an empty database may come to: the database, and the layouts at hand.  A
step that is refused is undone, and its layout is given up.  Updates of the layout `id` flag
each node whose width, literals or parent they change, and each node they drop. -/
inductive Session (id : Int) : Database → List Layout → Prop where
  | start : Session id {} []
  | createPlan {db db' : Database} {ls : List Layout} {r : PlanRequest} {plan : Plan}
    (h : Session id db ls) (hr : r.check = .ok ()) (hdone : db.createPlan r = .ok (plan, db')) :
    Session id db' ls
  | deletePlan {db db' : Database} {ls : List Layout} {planId : Int} (h : Session id db ls)
    (hdone : db.deletePlan planId = .ok db') : Session id db' ls
  | request {db : Database} {ls : List Layout} (planId : Int) (r : LayoutRequest)
    (h : Session id db ls) : Session id db (.ofRequest planId r :: ls)
  | load {db : Database} {ls : List Layout} {l : Layout} {k : Int} (h : Session id db ls)
    (hrun : (Layout.load k).run db = (.ok l, db)) : Session id db (l :: ls)
  | apply {db : Database} {ls : List Layout} {l : Layout} (r : LayoutRequest)
    (h : Session id db ls) (hl : l ∈ ls) : Session id db (l.apply r :: ls)
  | save {db db' : Database} {ls : List Layout} {l l' : Layout} (h : Session id db ls)
    (hl : l ∈ ls) (hrun : Layout.save.run (l, db) = (.ok (), (l', db'))) :
    Session id db' (l' :: ls)
  | update {db db' : Database} {ls : List Layout} {l l' : Layout} (h : Session id db ls)
    (hl : l ∈ ls)
    (hflags : l.header.id = id → FlagsChanges Node.space l.nodes (ofLayout db.nodes id))
    (hrun : Layout.update.run (l, db) = (.ok (), (l', db'))) : Session id db' (l' :: ls)
  | delete {db db' : Database} {ls : List Layout} {l : Layout} (h : Session id db ls)
    (hl : l ∈ ls) (hrun : (Layout.delete l).run db = (.ok (), db')) : Session id db' ls

namespace Database

variable {db db' : Database} {l l' : Layout} {id : Int}

theorem find?_key_eq_some {α : Type} {key : α → Int} {as : List α} {a : α}
    (hnodup : (as.map key).Nodup) (ha : a ∈ as) : as.find? (key · == key a) = some a := by
  cases hfound : as.find? (key · == key a) with
  | none => exact absurd (beq_self_eq_true (key a)) (List.find?_eq_none.mp hfound a ha)
  | some b =>
    have hkey := List.find?_some hfound
    rw [List.inj_on_of_nodup_map hnodup (List.mem_of_find?_eq_some hfound) ha (beq_iff_eq.mp hkey)]

theorem plan?_eq_some {plan : Plan} (h : db.plan? id = some plan) :
    ∃ p ∈ db.plans, p.id = id ∧ plan = db.withCount p := by
  obtain ⟨p, hp, rfl⟩ := Option.map_eq_some_iff.mp h
  have hid := List.find?_some hp
  exact ⟨p, List.mem_of_find?_eq_some hp, beq_iff_eq.mp hid, rfl⟩

namespace Indexed

theorem plan_eq_of_id (h : Indexed db) {p q : Plan} (hp : p ∈ db.plans) (hq : q ∈ db.plans)
    (hid : p.id = q.id) : p = q :=
  List.inj_on_of_nodup_map h.plans_nodup hp hq hid

end Indexed

/-- A layout at hand is ready to be written.  If it is stored, it belongs to the plan it says,
and its number will not be given again. -/
structure Holds (db : Database) (l : Layout) : Prop where
  ready : l.Ready
  plan_eq : ∀ header ∈ db.headers, header.id = l.header.id → header.planId = l.header.planId
  le_last : l.header.id ≤ db.lastLayout

/-- The layouts of the second database belong to the same plans as before, or are new. -/
structure Extends (db db' : Database) : Prop where
  le_last : db.lastLayout ≤ db'.lastLayout
  headers : ∀ header ∈ db'.headers,
    (∃ old ∈ db.headers, old.id = header.id ∧ old.planId = header.planId) ∨
      db.lastLayout < header.id

theorem Holds.extends (h : Holds db l) (hext : Extends db db') : Holds db' l where
  ready := h.ready
  plan_eq := by
    intro header hheader hid
    rcases hext.headers header hheader with ⟨old, hold, hsame, hplan⟩ | hnew
    · exact hplan ▸ h.plan_eq old hold (hsame.trans hid)
    · have hle := h.le_last
      omega
  le_last := Int.le_trans h.le_last hext.le_last

/-- The rows of the layout `id`, if it is stored, fit its plan. -/
def FitsPlan (db : Database) (id : Int) : Prop :=
  ∀ header ∈ db.headers, header.id = id → ∀ plan ∈ db.plans, plan.id = header.planId →
    ∀ allowed, plan.allowedBits = .ok allowed → Fits allowed (ofLayout db.nodes id)

/-- What holds of a database and the layouts at hand all through a session. -/
structure Orderly (id : Int) (db : Database) (ls : List Layout) : Prop extends Indexed db where
  last_nonneg : 0 ≤ db.lastLayout
  headers_pos : ∀ header ∈ db.headers, 0 < header.id
  holds : ∀ l ∈ ls, Holds db l
  fits : FitsPlan db id

namespace Coherent

/-- The rows of a new layout fit its plan. -/
theorem fits_of_save (h : Coherent db) (hready : l.Ready)
    (hrun : Layout.save.run (l, db) = (.ok (), (l', db'))) :
    ∃ plan, db.plan? l.header.planId = some plan ∧ ∀ allowed, plan.allowedBits = .ok allowed →
      Fits allowed (ofLayout db'.nodes (db.lastLayout + 1)) := by
  obtain ⟨plan, db₂, hplan, -, h₂, -, -, hrooted, hnone, hrewrite⟩ :=
    h.exists_rewrite_of_save hready hrun
  obtain ⟨plan', checked, _, db₁, _, _, _, hfetch, hcheck, -⟩ := run_save_steps hrun
  obtain ⟨hplan', -⟩ := plan?_run_eq_ok (run_fetchPlan_eq_ok (s := db) h.numbered hfetch).1
  cases hplan.symm.trans hplan'
  refine ⟨plan, hplan, fun allowed hallowed ↦ ?_⟩
  refine hrewrite.fits_new h₂.keyed ((relabelled_numberedTree plan l).linked hready.linked)
    hrooted (hnone ▸ parentsIn_nil) (hnone ▸ matched_nil _ _) ?_
  exact check_numberedTree hready.rooted (by rw [hcheck]) hallowed hready.empty

/-- A layout that was saved is ready again, under the number that its header got. -/
theorem ready_of_save (h : Coherent db) (hready : l.Ready)
    (hrun : Layout.save.run (l, db) = (.ok (), (l', db'))) :
    l'.Ready ∧ l'.header = { l.header with id := db.lastLayout + 1 } := by
  obtain ⟨plan, db₂, -, -, h₂, -, -, hrooted, hnone, hrewrite⟩ :=
    h.exists_rewrite_of_save hready hrun
  obtain ⟨plan', checked, prepared, db₁, id, db₃, _, hfetch, hcheck, hfill, hcreate, -, hheader,
    hnodes⟩ := run_save_steps hrun
  have hlinked := (relabelled_numberedTree plan l).linked hready.linked
  refine ⟨⟨hrewrite.sameShape.rooted hrooted, ?_, fun hnil ↦ ?_⟩, ?_⟩
  · exact hrewrite.linked_of_all h₂.keyed hlinked hrooted hnone fun i hi ↦
      hrooted.mem_placesBelow.mpr ⟨hi, hrooted.under_zero hi⟩
  · have hslots := List.map_eq_nil_iff.mp (hnodes.symm.trans hnil)
    rw [← show ⟨l'.tree.slots⟩ = l'.tree from rfl, hslots]
  · have hfound : ((fetchPlan l.header.planId).run db).2 = db :=
      keeps_fetchPlan (Q := (· = db)) (fun _ _ h ↦ h) _ db rfl
    rw [hfetch] at hfound
    obtain rfl : db₁ = db := hfound
    obtain ⟨-, rfl, -⟩ := createLayout_eq_ok (run_change_eq_ok_iff.mp hcreate)
    rw [hheader, (run_check_fill_eq_ok hready.empty hcheck hfill).1]

end Coherent

variable {ls : List Layout}

/-! ## What a change does to layouts at hand -/

theorem extends_of_subset (hlast : db'.lastLayout = db.lastLayout)
    (hheaders : db'.headers ⊆ db.headers) : Extends db db' where
  le_last := Int.le_of_eq hlast.symm
  headers := fun header hheader ↦ Or.inl ⟨header, hheaders hheader, rfl, rfl⟩

theorem extends_of_frame (h : db'.frame = db.frame) : Extends db db' where
  le_last := Int.le_of_eq (congrArg (fun f ↦ f.2.2) h).symm
  headers := fun _ hheader ↦ Or.inl (exists_header_of_frame h hheader)

theorem extends_of_new {header : LayoutHeader} (hlast : db'.lastLayout = db.lastLayout + 1)
    (hheaders : db'.headers = db.headers ++ [{ header with id := db.lastLayout + 1 }]) :
    Extends db db' where
  le_last := by omega
  headers := by
    intro other hother
    rw [hheaders] at hother
    rcases List.mem_append.mp hother with hother | hother
    · exact Or.inl ⟨other, hother, rfl, rfl⟩
    · rw [List.mem_singleton.mp hother]
      exact Or.inr (Int.lt_succ _)

theorem FitsPlan.of_subset (h : FitsPlan db id) (hplans : db'.plans ⊆ db.plans)
    (hheaders : ∀ header ∈ db'.headers, header.id = id →
      (∃ old ∈ db.headers, old.id = id ∧ old.planId = header.planId) ∧
        ofLayout db'.nodes id = ofLayout db.nodes id) : FitsPlan db' id := by
  intro header hheader hid plan hplan hplanId allowed hallowed
  obtain ⟨⟨old, hold, holdId, holdPlan⟩, hrows⟩ := hheaders header hheader hid
  rw [hrows]
  exact h old hold holdId plan (hplans hplan) (hplanId.trans holdPlan.symm) allowed hallowed

namespace Orderly

theorem empty (id : Int) : Orderly id {} [] :=
  { Indexed.empty with
    last_nonneg := Int.le_refl 0
    headers_pos := fun _ h ↦ absurd h List.not_mem_nil
    holds := fun _ h ↦ absurd h List.not_mem_nil
    fits := fun _ h ↦ absurd h List.not_mem_nil }

theorem change (h : Orderly id db ls) (hindexed : Indexed db') (hext : Extends db db')
    (hfits : FitsPlan db' id) : Orderly id db' ls :=
  { hindexed with
    last_nonneg := Int.le_trans h.last_nonneg hext.le_last
    headers_pos := by
      intro header hheader
      rcases hext.headers header hheader with ⟨old, hold, hsame, -⟩ | hnew
      · exact hsame ▸ h.headers_pos old hold
      · exact Int.lt_of_le_of_lt h.last_nonneg hnew
    holds := fun l hl ↦ (h.holds l hl).extends hext
    fits := hfits }

theorem cons (h : Orderly id db ls) (hl : Holds db l) : Orderly id db (l :: ls) :=
  { h with
    holds := fun k hk ↦ by
      rcases List.mem_cons.mp hk with rfl | hk
      · exact hl
      · exact h.holds k hk }

theorem createPlan (h : Orderly id db ls) {r : PlanRequest} {plan : Plan} (hr : r.check = .ok ())
    (hdone : db.createPlan r = .ok (plan, db')) : Orderly id db' ls := by
  refine h.change (h.toIndexed.createPlan hr hdone) ?_ ?_
  all_goals obtain ⟨-, new, hnew, -, -, rfl⟩ := createPlan_eq_ok hdone
  · exact extends_of_subset rfl (List.Subset.refl _)
  · intro header hheader hid p hp hplanId allowed hallowed
    rcases List.mem_append.mp hp with hp | hp
    · exact h.fits header hheader hid p hp hplanId allowed hallowed
    · -- No stored layout belongs to a plan that is new.
      obtain ⟨q, hq, hqid⟩ := h.plan_stored header hheader
      have hle := h.plans_le q hq
      rw [List.mem_singleton.mp hp] at hplanId
      omega

theorem deletePlan (h : Orderly id db ls) {planId : Int}
    (hdone : db.deletePlan planId = .ok db') : Orderly id db' ls := by
  have hwithout := h.toIndexed.withoutPlan hdone
  refine h.change (h.toIndexed.deletePlan hdone) ?_ (h.fits.of_subset ?_ ?_)
  · apply extends_of_subset (congrArg (fun c ↦ c.2.1) hwithout.counters)
    rw [hwithout.headers]
    exact List.filter_sublist.subset
  · rw [hwithout.plans]
    exact List.filter_sublist.subset
  · intro header hheader hid
    rw [hwithout.headers] at hheader
    obtain ⟨hmem, hother⟩ := List.mem_filter.mp hheader
    refine ⟨⟨header, hmem, hid, rfl⟩, ?_⟩
    rw [← hid]
    exact hwithout.rows header hmem (by simpa using hother)

theorem deleteLayout (h : Orderly id db ls) {k : Int} (hdone : db.deleteLayout k = .ok db') :
    Orderly id db' ls := by
  have huntouched := untouched_deleteLayout hdone
  refine h.change (h.toIndexed.deleteLayout hdone) ?_ (h.fits.of_subset ?_ ?_)
  · obtain rfl := deleteLayout_eq_ok hdone
    exact extends_of_subset rfl List.filter_sublist.subset
  · rw [huntouched.plans]
    exact List.Subset.refl _
  · intro header hheader hid
    obtain rfl := deleteLayout_eq_ok hdone
    obtain ⟨hmem, hother⟩ := List.mem_filter.mp hheader
    exact ⟨⟨header, hmem, hid, rfl⟩, huntouched.rows id (by simpa [hid] using hother)⟩

theorem request (h : Orderly id db ls) (planId : Int) (r : LayoutRequest) :
    Orderly id db (.ofRequest planId r :: ls) :=
  h.cons
    { ready := ready_of_kept_none rfl
      plan_eq := fun header hheader hid ↦ by
        have hpos := h.headers_pos header hheader
        have hzero : header.id = 0 := hid
        omega
      le_last := h.last_nonneg }

theorem load (h : Orderly id db ls) {k : Int} (hrun : (Layout.load k).run db = (.ok l, db)) :
    Orderly id db (l :: ls) := by
  obtain ⟨-, header, hheader, -, rfl⟩ := Service.run_load_eq_ok hrun
  refine h.cons ⟨ready_of_kept_none rfl, fun other hother hid ↦ ?_, h.headers_le header hheader⟩
  rw [h.headers_eq_of_id hother hheader hid]

theorem apply (h : Orderly id db ls) (hl : l ∈ ls) (r : LayoutRequest) :
    Orderly id db (l.apply r :: ls) :=
  h.cons ⟨ready_of_kept_none rfl, (h.holds l hl).plan_eq, (h.holds l hl).le_last⟩

theorem save (h : Orderly id db ls) (hl : l ∈ ls)
    (hrun : Layout.save.run (l, db) = (.ok (), (l', db'))) : Orderly id db' (l' :: ls) := by
  have hready := (h.holds l hl).ready
  obtain ⟨hready', hheader⟩ := h.ready_of_save hready hrun
  obtain ⟨plan, hplan, hnewFits⟩ := h.fits_of_save hready hrun
  obtain ⟨hcatalogue, hrows⟩ := h.save_adds hready hrun
  obtain ⟨hplans, -, hheaders, hlast⟩ := catalogue_eq_iff.mp hcatalogue
  have hindexed := h.toIndexed.save hready hrun
  have hchanged : Orderly id db' ls := by
    refine h.change hindexed (extends_of_new hlast hheaders) ?_
    intro header hmem hid p hp hpid allowed hallowed
    rw [hplans] at hp
    rw [hheaders] at hmem
    rcases List.mem_append.mp hmem with hmem | hmem
    · rw [hrows id (hid ▸ h.next_layout_new header hmem)]
      exact h.fits header hmem hid p hp hpid allowed hallowed
    · rw [List.mem_singleton.mp hmem] at hid hpid
      obtain ⟨q, hq, hqid, rfl⟩ := plan?_eq_some hplan
      cases h.plan_eq_of_id hp hq (hpid.trans hqid.symm)
      exact hid ▸ hnewFits allowed hallowed
  refine hchanged.cons ⟨hready', fun other hother hid ↦ ?_, ?_⟩
  · have hown : { l.header with id := db.lastLayout + 1 } ∈ db'.headers := by
      rw [hheaders]
      exact List.mem_append_right _ List.mem_cons_self
    rw [hheader] at hid ⊢
    rw [hindexed.headers_eq_of_id hother hown hid]
  · rw [hheader, hlast]

theorem update (h : Orderly id db ls) (hl : l ∈ ls)
    (hflags : l.header.id = id → FlagsChanges Node.space l.nodes (ofLayout db.nodes id))
    (hrun : Layout.update.run (l, db) = (.ok (), (l', db'))) : Orderly id db' (l' :: ls) := by
  have hheld := h.holds l hl
  obtain ⟨⟨stored, hstored, hid⟩, hcatalogue⟩ := header_and_catalogue_of_update hrun
  have hplans : db'.plans = db.plans := congrArg Prod.fst hcatalogue
  have hframe := frame_update hrun
  have hexists : ∃ header ∈ db.headers, header.id = l.header.id := ⟨stored, hstored, hid⟩
  obtain ⟨hheader, hkept⟩ := layout_of_update hrun
  have hchanged : Orderly id db' ls := by
    refine h.change (h.toIndexed.update hexists hrun) (extends_of_frame hframe) ?_
    by_cases hown : l.header.id = id
    · intro header hmem hheaderId p hp hpid allowed hallowed
      obtain ⟨old, hold, holdId, holdPlan⟩ := exists_header_of_frame hframe hmem
      obtain ⟨plan, db₀, hplan, hfits⟩ :=
        fits_of_update (s := db) h.numbered (h.tree hexists) (hown ▸ hflags hown) hrun
      obtain ⟨q, hq, hqid, rfl⟩ := plan?_eq_some (plan?_run_eq_ok hplan).1
      have hsame := hheld.plan_eq old hold (holdId.trans (hheaderId.trans hown.symm))
      rw [hplans] at hp
      cases h.plan_eq_of_id hp hq (by rw [hpid, ← holdPlan, hsame, hqid])
      exact hown ▸ hfits allowed hallowed
    · refine h.fits.of_subset (hplans ▸ List.Subset.refl _) fun header hmem hheaderId ↦ ?_
      obtain ⟨old, hold, holdId, holdPlan⟩ := exists_header_of_frame hframe hmem
      exact ⟨⟨old, hold, holdId.trans hheaderId, holdPlan⟩,
        h.update_rows hexists hrun (Ne.symm hown)⟩
  have hheld' := hheld.extends (extends_of_frame hframe)
  exact hchanged.cons ⟨ready_of_kept_none hkept, hheader ▸ hheld'.plan_eq, hheader ▸ hheld'.le_last⟩

end Orderly

end Database

open Database

namespace Session

variable {id : Int} {db : Database} {ls : List Layout}

theorem orderly (h : Session id db ls) : Orderly id db ls := by
  induction h with
  | start => exact .empty id
  | createPlan _ hr hdone ih => exact ih.createPlan hr hdone
  | deletePlan _ hdone ih => exact ih.deletePlan hdone
  | request planId r _ ih => exact ih.request planId r
  | load _ hrun ih => exact ih.load hrun
  | apply r _ hl ih => exact ih.apply hl r
  | save _ hl hrun ih => exact ih.save hl hrun
  | update _ hl hflags hrun ih => exact ih.update hl hflags hrun
  | delete _ _ hrun ih =>
    exact ih.deleteLayout (map_mk_eq_ok_iff.mp (run_change_eq_ok_iff.mp hrun))

/-- If every update of a layout flags what it changes, then the layout can be loaded back at any
time and passes the check against its plan.  Its rows fit the bits of the plan, and its report
for IPv4 does not fail. -/
theorem stored_layout_valid (h : Session id db ls)
    (hstored : ∃ header ∈ db.headers, header.id = id) :
    ∃ l plan allowed, (Layout.load id).run db = (.ok l, db) ∧
      db.plan? l.header.planId = some plan ∧ plan.allowedBits = .ok allowed ∧
      ((check plan).run l).1 = .ok () ∧ Fits allowed l.nodes ∧
      ∃ rows, Report.rows plan l.tree .v4 = .ok rows := by
  obtain ⟨header, hheader, rfl⟩ := hstored
  have horderly := h.orderly
  obtain ⟨p, hp, hpid⟩ := horderly.plan_stored header hheader
  have hchecked := horderly.plans_checked p hp
  obtain ⟨allowed, hallowed⟩ := Plan.exists_allowedBits hchecked
  have hload : (Layout.load header.id).run db =
      (.ok { header, nodes := inOrder (ofLayout db.nodes header.id) }, db) := by
    have hfound : (Store.header? header.id).run db = (.ok (some header), db) :=
      congrArg (fun found ↦ (Except.ok found, db))
        (find?_key_eq_some horderly.headers_nodup hheader)
    rw [Layout.load, Step.run_bind_ok hfound]
    rfl
  have hplan : db.plan? header.planId = some (db.withCount p) := by
    rw [plan?, ← hpid, find?_key_eq_some horderly.plans_nodup hp]
    rfl
  have hperm : (ofLayout db.nodes header.id).Perm (inOrder (ofLayout db.nodes header.id)) :=
    (Order.sortBy_perm _ _).symm
  have hfits : Fits allowed (inOrder (ofLayout db.nodes header.id)) :=
    (horderly.fits header hheader rfl p hp hpid allowed hallowed).perm hperm
  have hcheck : ((check (db.withCount p)).run
      { header, nodes := inOrder (ofLayout db.nodes header.id) }).1 = .ok () :=
    (run_check_loaded_iff ((horderly.keyed.ofLayout header.id).perm hperm)
      ((horderly.trees header hheader).perm hperm) rfl hchecked hallowed).mpr hfits
  obtain ⟨claims, hclaims⟩ := exists_claims_of_check (ready_of_kept_none rfl) hcheck
  exact ⟨_, _, allowed, hload, hplan, hallowed, hcheck, hfits, Report.ofClaims claims,
    congrArg (Except.map Report.ofClaims) hclaims⟩

/-! A site hands its block on to a new one, with and without a flag. -/

def oneSite : LayoutRequest where
  name := "sites"
  nodes := [{ id := 1, name := "root" },
    { id := 2, parentId := 1, name := "a", sequence := 1, literals := "10.1.0.0/16" }]

/-- What saving the site leaves in the store. -/
def oneSiteStored : Database :=
  { planOnly with
    headers := [{ (Layout.ofRequest 1 oneSite).header with id := 1 }]
    nodes := oneSite.nodes.map fun n ↦ { n with layoutId := 1 }
    lastLayout := 1
    lastNode := 2 }

def oneSiteLoaded : Layout where
  header := { (Layout.ofRequest 1 oneSite).header with id := 1 }
  nodes := oneSite.nodes.map fun n ↦ { n with layoutId := 1 }

/-- The site gets another block, and a new site the one that it had. -/
def handedOn (flagged : Bool) : LayoutRequest where
  name := "sites"
  nodes := [{ id := 1, name := "root" },
    { id := 2, parentId := 1, name := "a", sequence := 1, literals := "10.2.0.0/16",
      modified := flagged },
    { id := -1, parentId := 1, name := "b", sequence := 2, literals := "10.1.0.0/16" }]

theorem session_oneSiteStored (id : Int) :
    ∃ ls, Session id oneSiteStored (oneSiteLoaded :: ls) := by
  have hplan : Session id planOnly [] :=
    Session.start.createPlan (r := ⟨"10.0.0.0/8", 24, none⟩) (by decide +kernel)
      (show Database.createPlan {} _ = .ok (⟨1, "10.0.0.0/8", 24, none, some 0⟩, planOnly) by
        decide +kernel)
  have hstored : (Layout.save.run (.ofRequest 1 oneSite, planOnly)).2.2 = oneSiteStored := by
    decide +kernel
  have hsave := Step.run_eq_ok_of_fst (m := Layout.save) (p := (.ofRequest 1 oneSite, planOnly))
    (a := ()) (by decide +kernel)
  rw [hstored] at hsave
  have hload : (Layout.load 1).run oneSiteStored = (.ok oneSiteLoaded, oneSiteStored) := by
    decide +kernel
  exact ⟨_, ((hplan.request 1 oneSite).save List.mem_cons_self hsave).load hload⟩

theorem flagsChanges_handedOn :
    FlagsChanges Node.space (handedOn true).nodes (ofLayout oneSiteStored.nodes 1) := by
  have hrows : ∀ r ∈ ofLayout oneSiteStored.nodes 1,
      (∃ n ∈ (handedOn true).nodes, n.id = r.id ∧ n.parentId = r.parentId ∧ n.space = r.space) ∨
        r.id = 2 := by
    decide +kernel
  refine Or.inr fun r hr ↦ (hrows r hr).imp_right fun hid ↦ ?_
  have htop : (build (handedOn true).nodes).TopmostDirty
      ((ofLayout oneSiteStored.nodes 1).map Node.id) 1 := by
    refine ⟨⟨_, rfl, Or.inl rfl⟩, fun j hj hne ↦ ?_⟩
    have hle := (build_rooted (handedOn true).nodes).le_of_under hj
    obtain rfl : j = 0 := by omega
    rintro ⟨n, hn, hdirty⟩
    cases hn
    revert hdirty
    decide +kernel
  exact ⟨1, _, htop, rfl, by decide +kernel, hid ▸ Below.refl r.id⟩

theorem stored_layout_valid_handedOn : ∃ db ls, Session 1 db ls ∧
    (∃ header ∈ db.headers, header.id = 1) ∧
      ∃ l plan allowed, (Layout.load 1).run db = (.ok l, db) ∧
        db.plan? l.header.planId = some plan ∧ plan.allowedBits = .ok allowed ∧
        ((check plan).run l).1 = .ok () ∧ Fits allowed l.nodes ∧
        ∃ rows, Report.rows plan l.tree .v4 = .ok rows := by
  obtain ⟨ls, hstored⟩ := session_oneSiteStored 1
  obtain ⟨l', db, hrun, hheader⟩ : ∃ l' db,
      Layout.update.run (oneSiteLoaded.apply (handedOn true), oneSiteStored) =
        (.ok (), (l', db)) ∧ ∃ header ∈ db.headers, header.id = 1 :=
    ⟨_, _, Step.run_eq_ok_of_fst (by decide +kernel), by decide +kernel⟩
  have hsession := (hstored.apply (handedOn true) List.mem_cons_self).update List.mem_cons_self
    (fun _ ↦ flagsChanges_handedOn) hrun
  exact ⟨db, _, hsession, hheader, stored_layout_valid hsession hheader⟩

/-- Without the flag the site keeps its row and with it the block that the new site gets too, so
the stored layout does not pass the check. -/
theorem update_keeps_unflagged_block :
    let updated := Layout.update.run (oneSiteLoaded.apply (handedOn false), oneSiteStored)
    (Database.createPlan {} ⟨"10.0.0.0/8", 24, none⟩).map Prod.snd = .ok planOnly ∧
      (Layout.save.run (.ofRequest 1 oneSite, planOnly)).1 = .ok () ∧
      (Layout.save.run (.ofRequest 1 oneSite, planOnly)).2.2 = oneSiteStored ∧
      (Layout.load 1).run oneSiteStored = (.ok oneSiteLoaded, oneSiteStored) ∧
      updated.1 = .ok () ∧
      (do
        let l ← Layout.load 1
        let plan ← fetchPlan l.header.planId
        Step.ofExcept ((check plan).run l).1 : Step Database Unit).run updated.2.2 =
      (.error (.duplicate "10.1.0.0/16" "a" "b"), updated.2.2) := by
  decide +kernel

end Session

end AddressPlan
