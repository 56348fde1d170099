import AddressPlan.Proofs.Layout.WellFormed
import AddressPlan.Proofs.NodeTree.Uniform
import AddressPlan.Proofs.Service.Sessions

/-!
# Rounds of one layout

A layout is saved and then loaded, changed and updated any number of times.  Each round
numbers its whole tree but writes only some of the places, so the rows come from several
rounds.  The prefix of a row is the one that its node got in the round that wrote it last.  If
all nodes are equally wide, rows of one round differ in their prefixes, and rows of two rounds
agree exactly if the trees of these rounds have equally many levels and the nodes stood at the
same label.
-/

namespace AddressPlan

open Rows NodeTree Layout

/-- The nodes that a client sent, and the rows of the layout before and after. -/
structure Round where
  number : Nat
  request : LayoutRequest
  before : List Node
  after : List Node

namespace Round

def tree (round : Round) : NodeTree :=
  build round.request.nodes

/-- The row stays as it is when the rows are made to follow the tree. -/
def Keeps (round : Round) (row : Node) : Prop :=
  row ∈ round.before ∧ ¬ round.tree.Removed round.before row

/-- The row is the one that was written for a place, with what the place got when the whole
tree was numbered. -/
structure Writes (round : Round) (base : Network) (maskLength place : Nat) (row : Node) :
    Prop where
  mem_after : row ∈ round.after
  not_kept : ¬ round.Keeps row
  rewritten : round.tree.Rewritten round.before place
  numbered : ∃ t n id layoutId parentId, round.tree.fill base maskLength = (.ok (), t) ∧
    t.node? place = some n ∧ row = { n with id, layoutId, parentId, modified := false }

/-- Numbers are asked for, and all nodes but a root have this width. -/
structure AsksFor (round : Round) (width : Int) : Prop where
  autoFill : round.request.autoFill = true
  bitWidth : ∀ n ∈ round.request.nodes, n.isRoot = false → n.bitWidth = width

end Round

/-- A layout of a plan is saved and then loaded, changed and updated, each time with success.
The list has the rounds in the order in which they were made. -/
inductive Rounds (planId : Int) (start : Database) : Int → List Round → Database → Prop where
  | save {r : LayoutRequest} {l : Layout} {db : Database}
    (hrun : Layout.save.run (.ofRequest planId r, start) = (.ok (), (l, db))) :
    Rounds planId start l.header.id
      [⟨0, r, ofLayout start.nodes l.header.id, ofLayout db.nodes l.header.id⟩] db
  | update {id : Int} {rounds : List Round} {r : LayoutRequest} {l l' : Layout}
    {db db' : Database} (h : Rounds planId start id rounds db)
    (hload : (Layout.load id).run db = (.ok l, db))
    (hrun : Layout.update.run (l.apply r, db) = (.ok (), (l', db'))) :
    Rounds planId start id
      (rounds ++ [⟨rounds.length, r, ofLayout db.nodes id, ofLayout db'.nodes id⟩]) db'

/-- A round and a place of its tree. -/
structure Origin where
  round : Round
  place : Nat

/-- The trees of the two rounds have equally many levels, and the places stand at one label. -/
def Origin.Alike (o o' : Origin) : Prop :=
  o.round.tree.levels = o'.round.tree.levels ∧
    ∃ label, o.round.tree.Labelled o.place label ∧ o'.round.tree.Labelled o'.place label

/-- The row was written by this round for this place and kept by all later rounds. -/
structure IsOrigin (base : Network) (maskLength : Nat) (rounds : List Round) (row : Node)
    (origin : Origin) : Prop where
  mem : origin.round ∈ rounds
  writes : origin.round.Writes base maskLength origin.place row
  keeps : ∀ later ∈ rounds, origin.round.number < later.number → later.Keeps row

/-- Every stored row has an origin, and no two have the same. -/
def Traced (base : Network) (maskLength : Nat) (rounds : List Round) (stored : List Node) : Prop :=
  ∃ origin : Node → Origin, (∀ row ∈ stored, IsOrigin base maskLength rounds row (origin row)) ∧
    ∀ row ∈ stored, ∀ row' ∈ stored, origin row = origin row' → row = row'

variable {base : Network} {maskLength : Nat} {latest : Round} {rounds : List Round}
  {stored : List Node} {row : Node} {origin : Origin} {planId id : Int} {start db db' : Database}

/-! ## One round -/

/-- What a rewrite leaves are the rows that the round keeps and those it writes. -/
theorem keeps_or_writes_of_rewrite {t t' : NodeTree} {old new : List Node} {gone : List Int}
    {places : List Nat} (hfill : latest.tree.fill base maskLength = (.ok (), t))
    (hrewrite : Rewrite id t old new t' gone places) (hbefore : latest.before = ofLayout old id)
    (hafter : latest.after = ofLayout new id) (hrow : row ∈ latest.after) :
    latest.Keeps row ∨ ∃ i, t'.node? i = some row ∧ latest.Writes base maskLength i row := by
  have hlabels := relabelled_of_fill hfill
  have hkeeps : latest.Keeps row ↔ row ∈ outside (ofLayout old id) gone := by
    rw [Round.Keeps, hrewrite.mem_staying, hbefore, hlabels.removed_iff]
  rcases hrewrite.mem_new.mp (hafter ▸ hrow) with hstays | ⟨i, hi, hnode⟩
  · exact Or.inl (hkeeps.mpr hstays)
  · refine Or.inr ⟨i, hnode, hrow, fun hkept ↦ ?_, ?_, ?_⟩
    · exact hrewrite.not_staying hi hnode (hkeeps.mp hkept)
    · rw [hbefore]
      exact hlabels.rewritten_iff.mp ((hrewrite.mem_places i).mp hi)
    · obtain ⟨n, rowId, hn, hwritten⟩ := hrewrite.written i hi
      exact ⟨t, n, rowId, id, _, hfill, hn, Option.some.inj (hnode.symm.trans hwritten)⟩

theorem IsOrigin.of_kept (h : IsOrigin base maskLength rounds row origin)
    (hkeeps : latest.Keeps row) : IsOrigin base maskLength (rounds ++ [latest]) row origin where
  mem := List.mem_append_left _ h.mem
  writes := h.writes
  keeps := by
    intro later hlater hlt
    rcases List.mem_append.mp hlater with hlater | hlater
    · exact h.keeps later hlater hlt
    · rw [List.mem_singleton.mp hlater]
      exact hkeeps

theorem isOrigin_of_writes {i : Nat} (hnumber : ∀ earlier ∈ rounds, earlier.number < latest.number)
    (hwrites : latest.Writes base maskLength i row) :
    IsOrigin base maskLength (rounds ++ [latest]) row ⟨latest, i⟩ where
  mem := List.mem_append_right _ (List.mem_singleton_self _)
  writes := hwrites
  keeps := by
    intro later hlater hlt
    rcases List.mem_append.mp hlater with hlater | hlater
    · exact absurd (hnumber later hlater) (Nat.lt_asymm hlt)
    · rw [List.mem_singleton.mp hlater] at hlt
      exact absurd hlt (Nat.lt_irrefl _)

/-- Rows that are kept have the origin that they had, and the others come from this round. -/
theorem Traced.snoc (h : Traced base maskLength rounds stored)
    (hnumber : ∀ earlier ∈ rounds, earlier.number < latest.number)
    (hbefore : latest.before = stored) (t : NodeTree)
    (hrows : ∀ row ∈ latest.after, latest.Keeps row ∨
      ∃ i, t.node? i = some row ∧ latest.Writes base maskLength i row) :
    Traced base maskLength (rounds ++ [latest]) latest.after := by
  obtain ⟨origin, horigin, hapart⟩ := h
  have hstored : ∀ {row}, latest.Keeps row → row ∈ stored := fun hkeeps ↦ hbefore ▸ hkeeps.1
  have hearlier : ∀ {row}, latest.Keeps row → (origin row).round ≠ latest := by
    intro row hkeeps heq
    have hlt := hnumber _ (horigin row (hstored hkeeps)).mem
    rw [heq] at hlt
    exact Nat.lt_irrefl _ hlt
  have hnew : ∀ row ∈ latest.after, ∃ o, IsOrigin base maskLength (rounds ++ [latest]) row o ∧
      (latest.Keeps row ∧ o = origin row ∨ o.round = latest ∧ t.node? o.place = some row) := by
    intro row hrow
    rcases hrows row hrow with hkeeps | ⟨i, hnode, hwrites⟩
    · exact ⟨_, (horigin row (hstored hkeeps)).of_kept hkeeps, Or.inl ⟨hkeeps, rfl⟩⟩
    · exact ⟨_, isOrigin_of_writes hnumber hwrites, Or.inr ⟨rfl, hnode⟩⟩
  -- Two origins are told apart by their rounds, or within this round by their places.
  have : Nonempty Origin := ⟨⟨latest, 0⟩⟩
  choose! origin' horigin' hcases using hnew
  refine ⟨origin', horigin', fun row hrow row' hrow' heq ↦ ?_⟩
  rcases hcases row hrow with ⟨hkeeps, hold⟩ | ⟨hround, hnode⟩
  · rcases hcases row' hrow' with ⟨hkeeps', hold'⟩ | ⟨hround', -⟩
    · exact hapart row (hstored hkeeps) row' (hstored hkeeps') (hold.symm.trans (heq.trans hold'))
    · rw [← heq, hold] at hround'
      exact absurd hround' (hearlier hkeeps)
  · rcases hcases row' hrow' with ⟨hkeeps', hold'⟩ | ⟨-, hnode'⟩
    · rw [heq, hold'] at hround
      exact absurd hround (hearlier hkeeps')
    · rw [heq, hnode'] at hnode
      exact (Option.some.inj hnode).symm

theorem Traced.of_rewrite {r : LayoutRequest} {number : Nat} {t t' : NodeTree}
    {old new : List Node} {gone : List Int} {places : List Nat}
    (h : Traced base maskLength rounds (ofLayout old id))
    (hnumber : ∀ earlier ∈ rounds, earlier.number < number)
    (hfill : (build r.nodes).fill base maskLength = (.ok (), t))
    (hrewrite : Rewrite id t old new t' gone places) :
    Traced base maskLength (rounds ++ [⟨number, r, ofLayout old id, ofLayout new id⟩])
      (ofLayout new id) :=
  h.snoc hnumber rfl t' fun _ hrow ↦ keeps_or_writes_of_rewrite hfill hrewrite rfl rfl hrow

theorem traced_nil (base : Network) (maskLength : Nat) : Traced base maskLength [] [] :=
  ⟨fun _ ↦ ⟨⟨0, { name := "" }, [], []⟩, 0⟩, fun _ hrow ↦ absurd hrow List.not_mem_nil,
    fun _ hrow ↦ absurd hrow List.not_mem_nil⟩

/-! ## All rounds -/

/-- What holds of the database after each round of the layout `id`. -/
structure Standing (planId : Int) (start : Database) (id : Int) (db : Database) : Prop where
  coherent : db.Coherent
  plans : db.plans = start.plans
  planId_eq : ∀ header ∈ db.headers, header.id = id → header.planId = planId

theorem Database.plan?_of_plans {plan : Plan} (hplans : db'.plans = db.plans)
    (h : db.plan? id = some plan) : ∃ plan', db'.plan? id = some plan' ∧
      plan'.network = plan.network ∧ plan'.maskLength = plan.maskLength := by
  obtain ⟨p, hp, rfl⟩ := Option.map_eq_some_iff.mp h
  refine ⟨db'.withCount p, ?_, rfl, rfl⟩
  rw [plan?, hplans, hp]
  rfl

section Steps

variable {plan : Plan} {r : LayoutRequest} {l l' : Layout}

theorem standing_of_save (h : start.Coherent)
    (hrun : Layout.save.run (.ofRequest planId r, start) = (.ok (), (l, db))) :
    l.header.id = start.lastLayout + 1 ∧ Standing planId start l.header.id db := by
  have hready : (Layout.ofRequest planId r).Ready := ready_of_kept_none rfl
  have hid : l.header.id = start.lastLayout + 1 := by
    rw [(h.ready_of_save hready hrun).2]
  obtain ⟨-, db₂, -, rfl, -, hcatalogue, -⟩ := h.exists_rewrite_of_save hready hrun
  have hplans : db.plans = start.plans := congrArg Prod.fst hcatalogue
  have hheaders : db.headers = start.headers ++ [_] := congrArg (fun c ↦ c.2.2.1) hcatalogue
  refine ⟨hid, h.save hready hrun, hplans, fun header hheader hown ↦ ?_⟩
  rw [hheaders] at hheader
  rcases List.mem_append.mp hheader with hold | hnew
  · have hle := h.headers_le header hold
    omega
  · rw [List.mem_singleton.mp hnew]
    rfl

theorem traced_of_save (h : start.Coherent) (hplan : start.plan? planId = some plan)
    (hnetwork : plan.network = .ok base) (hfamily : base.family = .v6) (hauto : r.autoFill = true)
    (hrun : Layout.save.run (.ofRequest planId r, start) = (.ok (), (l, db))) :
    Traced base plan.maskLength
      [⟨0, r, ofLayout start.nodes l.header.id, ofLayout db.nodes l.header.id⟩]
      (ofLayout db.nodes l.header.id) := by
  have hready : (Layout.ofRequest planId r).Ready := ready_of_kept_none rfl
  obtain ⟨plan₁, db₂, hplan₁, rfl, -, -, -, -, hnone, hrewrite⟩ :=
    h.exists_rewrite_of_save hready hrun
  obtain ⟨plan₂, db₁, hplan₂, hfill⟩ := fill_of_save (s := start) h.numbered hready hrun
  cases hplan.symm.trans hplan₁
  cases hplan.symm.trans (Database.plan?_run_eq_ok hplan₂).1
  have hnil : Traced base plan.maskLength [] (ofLayout start.nodes (start.lastLayout + 1)) :=
    hnone ▸ traced_nil base plan.maskLength
  rw [(standing_of_save h hrun).1]
  exact hnil.of_rewrite (fun _ hearlier ↦ absurd hearlier List.not_mem_nil)
    (hfill base hauto hnetwork hfamily) hrewrite

theorem standing_of_update (h : Standing planId start id db)
    (hload : (Layout.load id).run db = (.ok l, db))
    (hrun : Layout.update.run (l.apply r, db) = (.ok (), (l', db'))) :
    Standing planId start id db' := by
  obtain ⟨-, header, hheader, rfl, rfl⟩ := Service.run_load_eq_ok hload
  have hframe := Database.frame_update hrun
  refine ⟨h.coherent.update ⟨header, hheader, rfl⟩ hrun,
    (congrArg Prod.fst hframe).trans h.plans, fun other hother hid ↦ ?_⟩
  obtain ⟨old, hold, hsame, hplan⟩ := Database.exists_header_of_frame hframe hother
  exact hplan ▸ h.planId_eq old hold (hsame.trans hid)

theorem traced_of_update (h : Standing planId start id db)
    (htraced : Traced base plan.maskLength rounds (ofLayout db.nodes id))
    (hnumber : ∀ earlier ∈ rounds, earlier.number < rounds.length)
    (hplan : start.plan? planId = some plan) (hnetwork : plan.network = .ok base)
    (hfamily : base.family = .v6) (hauto : r.autoFill = true)
    (hload : (Layout.load id).run db = (.ok l, db))
    (hrun : Layout.update.run (l.apply r, db) = (.ok (), (l', db'))) :
    Traced base plan.maskLength
      (rounds ++ [⟨rounds.length, r, ofLayout db.nodes id, ofLayout db'.nodes id⟩])
      (ofLayout db'.nodes id) := by
  obtain ⟨-, header, hheader, rfl, rfl⟩ := Service.run_load_eq_ok hload
  obtain ⟨plan₁, db₁, hplan₁, -, -, t', gone, places, hrewrite⟩ :=
    exists_rewrite_of_update (s := db) h.coherent.numbered (h.coherent.trees header hheader) hrun
  obtain ⟨plan₂, db₂, hplan₂, hfill⟩ := fill_of_update (s := db) h.coherent.numbered hrun
  obtain ⟨plan', hplan', hsameNetwork, hsameMask⟩ := Database.plan?_of_plans h.plans hplan
  have hown : header.planId = planId := h.planId_eq header hheader rfl
  rw [← hown] at hplan'
  cases hplan'.symm.trans (Database.plan?_run_eq_ok hplan₁).1
  cases hplan'.symm.trans (Database.plan?_run_eq_ok hplan₂).1
  have hnumbered := hfill base hauto (hsameNetwork.trans hnetwork) hfamily
  rw [hsameMask] at hnumbered
  exact htraced.of_rewrite hnumber hnumbered hrewrite

end Steps

namespace Rounds

variable {plan : Plan}

theorem number_lt (h : Rounds planId start id rounds db) :
    ∀ round ∈ rounds, round.number < rounds.length := by
  induction h with
  | save hrun =>
    intro round hround
    rw [List.mem_singleton.mp hround]
    exact Nat.one_pos
  | update _ _ _ ih =>
    intro round hround
    rw [List.length_append, List.length_singleton]
    rcases List.mem_append.mp hround with hround | hround
    · exact Nat.lt_succ_of_lt (ih round hround)
    · rw [List.mem_singleton.mp hround]
      exact Nat.lt_succ_self _

theorem standing (h : Rounds planId start id rounds db) (hstart : start.Coherent) :
    Standing planId start id db := by
  induction h with
  | save hrun => exact (standing_of_save hstart hrun).2
  | update _ hload hrun ih => exact standing_of_update ih hload hrun

/-- Every round was checked before its tree was numbered. -/
theorem sumsFit (h : Rounds planId start id rounds db) :
    ∀ round ∈ rounds, round.tree.SumsFit := by
  induction h with
  | @save r l db hrun =>
    intro round hround
    rw [List.mem_singleton.mp hround]
    have hready : (Layout.ofRequest planId r).Ready := ready_of_kept_none rfl
    obtain ⟨plan, checked, prepared, s₁, id, s₂, tally, -, hcheck, -⟩ := run_save_steps hrun
    exact sumsFit_of_check hready.rooted hready.empty hcheck
  | @update id rounds r l l' db db' _ _ hrun ih =>
    intro round hround
    rcases List.mem_append.mp hround with hround | hround
    · exact ih round hround
    · rw [List.mem_singleton.mp hround]
      obtain ⟨plan, checked, prepared, s₁, s₂, s₃, stored, live, tally, l₄, s₄, p₅, shown, -,
        hcheck, -⟩ := run_update_steps hrun
      have hrooted : (l.apply r).dropTree.tree.Rooted := build_rooted r.nodes
      exact sumsFit_of_check hrooted (l.apply r).tree_dropTree_of_empty hcheck

theorem traced (h : Rounds planId start id rounds db) (hstart : start.Coherent)
    (hplan : start.plan? planId = some plan) (hnetwork : plan.network = .ok base)
    (hfamily : base.family = .v6) (hauto : ∀ round ∈ rounds, round.request.autoFill = true) :
    Traced base plan.maskLength rounds (ofLayout db.nodes id) := by
  induction h with
  | save hrun =>
    exact traced_of_save hstart hplan hnetwork hfamily (hauto _ (List.mem_singleton_self _)) hrun
  | update h hload hrun ih =>
    exact traced_of_update (h.standing hstart)
      (ih fun round hround ↦ hauto round (List.mem_append_left _ hround)) h.number_lt hplan hnetwork
      hfamily (hauto _ (List.mem_append_right _ (List.mem_singleton_self _))) hload hrun

end Rounds

/-! ## Prefixes of the stored rows -/

theorem Round.AsksFor.uniformBelow {round : Round} {width : Int} (h : round.AsksFor width) :
    round.tree.UniformBelow width.toNat := by
  intro i n hpos hn
  obtain ⟨p, -, hp⟩ := (build_rooted round.request.nodes).parent i hpos (lt_size_iff.mpr ⟨n, hn⟩)
  obtain ⟨m, hm⟩ := (build_rooted round.request.nodes).exists_parent_node hp
  have hmem : n ∈ round.request.nodes := mem_of_mem_build (mem_flatten.mpr ⟨i, hn⟩)
  rw [h.bitWidth n hmem ((build_linked _).link i p n m hp hn hm).1]

/-- Rows carry one prefix exactly if their origins are alike. -/
theorem IsOrigin.cidr_eq_iff {row' : Node} {origin' : Origin} {width : Int}
    (h : IsOrigin base maskLength rounds row origin)
    (h' : IsOrigin base maskLength rounds row' origin')
    (hsums : ∀ round ∈ rounds, round.tree.SumsFit)
    (hasks : ∀ round ∈ rounds, round.AsksFor width) :
    row.cidr = row'.cidr ↔ origin.Alike origin' := by
  obtain ⟨t, n, _, _, _, hfill, hn, hrow⟩ := h.writes.numbered
  obtain ⟨t', n', _, _, _, hfill', hn', hrow'⟩ := h'.writes.numbered
  have hcidr : row.cidr = n.cidr := by rw [hrow]
  have hcidr' : row'.cidr = n'.cidr := by rw [hrow']
  rw [hcidr, hcidr']
  exact NodeTree.cidr_eq_iff (build_rooted _) (build_rooted _) (hsums _ h.mem) (hsums _ h'.mem)
    (hasks _ h.mem).uniformBelow (hasks _ h'.mem).uniformBelow hfill hfill' hn hn'

/-- Places of one tree at one label are the same. -/
theorem Origin.Alike.eq_of_round_eq {o o' : Origin} (h : o.Alike o') (hround : o.round = o'.round) :
    o = o' := by
  obtain ⟨-, label, hlabel, hlabel'⟩ := h
  rcases o with ⟨round, i⟩
  rcases o' with ⟨round', j⟩
  cases hround
  exact congrArg (Origin.mk round) (hlabel.place_eq hlabel')

/-- In a plan of IPv6 addresses, after any rounds in which all nodes below the root are equally
wide, every stored row carries the prefix that its node got in the round that wrote it last.
Two rows carry the same prefix exactly if they were written by different rounds, whose trees
have equally many levels, for nodes at the same label. -/
theorem Rounds.stored_cidr_eq_iff {plan : Plan} {width : Int}
    (h : Rounds planId start id rounds db) (hstart : start.Coherent)
    (hplan : start.plan? planId = some plan) (hnetwork : plan.network = .ok base)
    (hfamily : base.family = .v6) (hasks : ∀ round ∈ rounds, round.AsksFor width) :
    ∃ origin : Node → Origin,
      (∀ row ∈ ofLayout db.nodes id, IsOrigin base plan.maskLength rounds row (origin row)) ∧
      ∀ row ∈ ofLayout db.nodes id, ∀ row' ∈ ofLayout db.nodes id, row ≠ row' →
        (row.cidr = row'.cidr ↔
          (origin row).round ≠ (origin row').round ∧ (origin row).Alike (origin row')) := by
  obtain ⟨origin, horigin, hapart⟩ := h.traced hstart hplan hnetwork hfamily
    fun round hround ↦ (hasks round hround).autoFill
  refine ⟨origin, horigin, fun row hrow row' hrow' hne ↦ ?_⟩
  rw [(horigin row hrow).cidr_eq_iff (horigin row' hrow') h.sumsFit hasks]
  refine ⟨fun halike ↦ ⟨fun hround ↦ ?_, halike⟩, And.right⟩
  exact hne (hapart row hrow row' hrow' (halike.eq_of_round_eq hround))

/-! A site is numbered, and then a second one is put in front of it without a flag. -/

def widePlan : Database where
  plans := [{ id := 1, cidr := "2001:db8::/48", maskLength := 64 }]
  lastPlan := 1

def firstSite : LayoutRequest where
  name := "sites"
  autoFill := true
  nodes := [{ id := 1, name := "root" },
    { id := 2, parentId := 1, name := "a", sequence := 1, bitWidth := 16 }]

def siteInFront : LayoutRequest where
  name := "sites"
  autoFill := true
  nodes := firstSite.nodes ++
    [{ id := -1, parentId := 1, name := "b", sequence := 0, bitWidth := 16 }]

def firstSiteStored : Database :=
  { widePlan with
    headers := [{ (Layout.ofRequest 1 firstSite).header with id := 1 }]
    nodes := [{ id := 1, layoutId := 1, name := "root", cidr := "2001:db8::/48" },
      { id := 2, layoutId := 1, parentId := 1, name := "a", sequence := 1, bitWidth := 16,
        value := 1, cidr := "2001:db8:0:1::/64" }]
    lastLayout := 1
    lastNode := 2 }

def firstSiteLoaded : Layout where
  header := { (Layout.ofRequest 1 firstSite).header with id := 1 }
  nodes := firstSiteStored.nodes

/-- The new site got the number 1 that the stored row of the first one shows too. -/
def siteInFrontStored : Database :=
  { firstSiteStored with
    nodes := firstSiteStored.nodes ++
      [{ id := 3, layoutId := 1, parentId := 1, name := "b", bitWidth := 16, value := 1,
         cidr := "2001:db8:0:1::/64" }]
    lastNode := 3 }

theorem Rounds.of_siteInFront : ∃ rounds, Rounds 1 widePlan 1 rounds siteInFrontStored ∧
    rounds.map Round.request = [firstSite, siteInFront] ∧ ∀ round ∈ rounds, round.AsksFor 16 := by
  obtain ⟨l, hsave, hid⟩ : ∃ l, Layout.save.run (.ofRequest 1 firstSite, widePlan) =
      (.ok (), (l, firstSiteStored)) ∧ l.header.id = 1 := by
    have hstored : (Layout.save.run (.ofRequest 1 firstSite, widePlan)).2.2 = firstSiteStored := by
      decide +kernel
    have hsave := Step.run_eq_ok_of_fst (m := Layout.save)
      (p := (.ofRequest 1 firstSite, widePlan)) (a := ()) (by decide +kernel)
    rw [hstored] at hsave
    exact ⟨_, hsave, by decide +kernel⟩
  have hfirst := Rounds.save hsave
  rw [hid] at hfirst
  have hload : (Layout.load 1).run firstSiteStored = (.ok firstSiteLoaded, firstSiteStored) := by
    decide +kernel
  have hstored : (Layout.update.run (firstSiteLoaded.apply siteInFront, firstSiteStored)).2.2 =
      siteInFrontStored := by
    decide +kernel
  have hupdate := Step.run_eq_ok_of_fst (m := Layout.update)
    (p := (firstSiteLoaded.apply siteInFront, firstSiteStored)) (a := ()) (by decide +kernel)
  rw [hstored] at hupdate
  refine ⟨_, hfirst.update hload hupdate, rfl, fun round hround ↦ ?_⟩
  rcases List.mem_cons.mp hround with rfl | hround
  · exact ⟨rfl, by decide⟩
  · rw [List.mem_singleton.mp hround]
    exact ⟨rfl, by decide⟩

theorem Rounds.stored_cidr_eq_iff_siteInFront : ∃ rounds,
    Rounds 1 widePlan 1 rounds siteInFrontStored ∧
    rounds.map Round.request = [firstSite, siteInFront] ∧ ∃ origin : Node → Origin,
      (∀ row ∈ ofLayout siteInFrontStored.nodes 1,
        IsOrigin exampleBase 64 rounds row (origin row)) ∧
      ∀ row ∈ ofLayout siteInFrontStored.nodes 1, ∀ row' ∈ ofLayout siteInFrontStored.nodes 1,
        row ≠ row' → (row.cidr = row'.cidr ↔
          (origin row).round ≠ (origin row').round ∧ (origin row).Alike (origin row')) := by
  obtain ⟨rounds, hrounds, hrequests, hasks⟩ := Rounds.of_siteInFront
  have hstart : widePlan.Coherent :=
    Database.Coherent.empty.createPlan (r := ⟨"2001:db8::/48", 64, none⟩) (by decide +kernel)
      (show Database.createPlan {} _ = .ok (⟨1, "2001:db8::/48", 64, none, some 0⟩, widePlan) by
        decide +kernel)
  have hplan : widePlan.plan? 1 = some ⟨1, "2001:db8::/48", 64, none, some 0⟩ := by decide +kernel
  exact ⟨rounds, hrounds, hrequests,
    hrounds.stored_cidr_eq_iff hstart hplan (by decide +kernel) rfl hasks⟩

/-- The two rows were written by different rounds, in which the sites stood first below the
root. -/
theorem Rounds.rows_share_cidr_siteInFront : ∃ rounds db, Rounds 1 widePlan 1 rounds db ∧
    rounds.map Round.request = [firstSite, siteInFront] ∧ (∀ round ∈ rounds, round.AsksFor 16) ∧
    (ofLayout db.nodes 1).map (fun row ↦ (row.name, row.cidr)) =
      [("root", "2001:db8::/48"), ("a", "2001:db8:0:1::/64"), ("b", "2001:db8:0:1::/64")] := by
  obtain ⟨rounds, hrounds, hrequests, hasks⟩ := Rounds.of_siteInFront
  exact ⟨rounds, siteInFrontStored, hrounds, hrequests, hasks, by decide +kernel⟩

end AddressPlan
