import AddressPlan.Proofs.Layout.OnBothStores
import AddressPlan.Proofs.Layout.ValidatedFirst
import AddressPlan.Proofs.Layout.WellFormed
import AddressPlan.Proofs.NodeTree.Restamped

/-!
# Saving again after a refusal

A save that is refused leaves a layout with a tree that may be numbered and restamped in part,
and maybe with the id of a header.  Nothing of that is looked at when the layout is saved again:
the blocks are the same, and every stamp is written anew.
-/

namespace AddressPlan

open List Step NodeTree

/-- The plans ask the same of a layout. -/
structure Plan.Agrees (plan plan' : Plan) : Prop where
  cidr : plan'.cidr = plan.cidr
  maskLength : plan'.maskLength = plan.maskLength

/-- A store that does not look at the id of a header when it creates it. -/
class NumbersHeaders (σ : Type) [Store σ] : Prop where
  createLayout_eq (header : LayoutHeader) (id : Int) :
    Store.createLayout (σ := σ) { header with id } = Store.createLayout header

instance : NumbersHeaders Recording := ⟨fun _ _ ↦ rfl⟩

instance : NumbersHeaders Database := ⟨fun _ _ ↦ rfl⟩

namespace Layout

variable {σ τ : Type} [Store σ] [Store τ] {plan plan' : Plan} {l l₁ l' : Layout}

/-- What a layout goes through before it is written. -/
def prepare (plan : Plan) : Step Layout Unit := do
  check plan
  Layout.fill plan

/-- The writes of a save. -/
def writeNew : Step (Layout × σ) Unit := do
  let (l, _) ← Step.get
  let id ← Step.second (Store.createLayout l.header)
  Step.first (Step.modify fun l ↦ { l with header := { l.header with id } })
  let _ ← onTreeAndStore (persistAll id)
  Step.first (Step.modify fun l ↦ { l with nodes := l.tree.flatten })

/-- What a save does once it has the plan. -/
def saveUnder (plan : Plan) : Step (Layout × σ) Unit := do
  Step.first (prepare plan)
  writeNew

theorem run_save_of_plan {s s₁ : σ} (hplan : (Store.plan? l.header.planId).run s =
    (.ok (some plan), s₁)) : save.run (l, s) = (saveUnder plan).run (l, s₁) := by
  have hfetch : (Step.second (fetchPlan l.header.planId)).run (l, s) = (.ok plan, (l, s₁)) :=
    run_second_eq_ok_iff.mpr ⟨run_bind_ok hplan, rfl⟩
  rw [save, run_bind_ok (run_get _)]
  dsimp only
  rw [run_bind_ok hfetch, first_bind_first]
  rfl

/-- Unless the store shows the plan, a save has not looked at the layout. -/
theorem run_save_cases (l : Layout) (s : σ) :
    (∃ plan s₁, (Store.plan? l.header.planId).run s = (.ok (some plan), s₁)) ∨
      (save.run (l, s)).2.1 = l := by
  rw [save, run_bind_ok (run_get _)]
  dsimp only
  rw [run_bind, run_second, fetchPlan, run_bind]
  rcases (Store.plan? l.header.planId).run s with ⟨_ | _ | plan, s₁⟩
  · exact Or.inr rfl
  · exact Or.inr rfl
  · exact Or.inl ⟨plan, s₁, rfl⟩

theorem keeps_sameContent_prepare (l : Layout) (plan : Plan) :
    Keeps (SameContent l) (prepare plan) :=
  (keeps_sameContent_check l plan).bind fun _ ↦ keeps_sameContent_fill l plan

theorem prepare_eq_of_agrees (h : plan.Agrees plan') : prepare plan' = prepare plan := by
  obtain ⟨id, cidr, maskLength, description, count⟩ := plan
  obtain ⟨id', cidr', maskLength', description', count'⟩ := plan'
  obtain ⟨hcidr, hmask⟩ := h
  dsimp only at hcidr hmask
  subst hcidr hmask
  rfl

theorem saveUnder_eq_of_agrees (h : plan.Agrees plan') :
    (saveUnder plan' : Step (Layout × σ) Unit) = saveUnder plan := by
  rw [saveUnder, saveUnder, prepare_eq_of_agrees h]

/-! ## Checking and numbering what is left -/

/-- The second layout is what refused saves made of the first one.  It has the id of a header
only if the plan has nothing against it. -/
structure Leftover (plan : Plan) (l l' : Layout) : Prop where
  header : l'.header = { l.header with id := l'.header.id }
  nodes : l'.nodes = l.nodes
  tree : l.tree.Related Node.Restamped l'.tree ∨
    (l.numberedTree plan).Related Node.Restamped l'.tree
  headed : l'.header = l.header ∨ ((prepare plan).run l).1 = .ok ()

theorem run_check_fst_congr (hname : l'.header.name = l.header.name) (hnodes : l'.nodes = l.nodes)
    (htree : l.tree.Related Node.Alike l'.tree) :
    ((check plan).run l').1 = ((check plan).run l).1 := by
  simp only [check, run_bind, run_ofExcept, run_get]
  cases plan.check with
  | error e => rfl
  | ok _ =>
    dsimp only
    rw [hnodes, hname]
    split
    · rfl
    · split
      · rfl
      · simp only [run_bind, run_ofExcept, run_modify, htree.size_eq, check_eq_of_alike htree]
        cases plan.allowedBits with
        | error e => rfl
        | ok allowed =>
          dsimp only
          split <;> rfl

theorem run_fill_fst_congr (hauto : l'.header.autoFill = l.header.autoFill)
    (hnodes : l'.nodes = l.nodes) (htree : l.tree.Related Node.Alike l'.tree) :
    ((Layout.fill plan).run l').1 = ((Layout.fill plan).run l).1 := by
  simp only [Layout.fill, run_bind, run_get, hauto, hnodes]
  split
  · rfl
  · simp only [run_bind, run_ofExcept]
    cases plan.network with
    | error e => rfl
    | ok network =>
      dsimp only
      split
      · rfl
      · exact fill_fst_eq_of_alike htree network plan.maskLength

theorem run_fill_snd (plan : Plan) (l : Layout) :
    ((Layout.fill plan).run l).2 = l ∨
      ((Layout.fill plan).run l).2 = { l with kept := some (l.numberedTree plan) } := by
  simp only [Layout.fill, run_bind, run_get]
  split
  · exact Or.inl rfl
  · rename_i hskip
    have hauto : l.header.autoFill = true := by
      by_contra hmanual
      exact hskip (by simp [hmanual])
    simp only [run_bind, run_ofExcept]
    cases hnetwork : plan.network with
    | error e => exact Or.inl rfl
    | ok network =>
      dsimp only
      split
      · exact Or.inl rfl
      · rename_i hfamily
        refine Or.inr ?_
        rw [numberedTree, if_pos hauto, hnetwork]
        dsimp only
        rw [hfamily]
        rfl

/-! The tree that is written does not depend on what is left in the tree. -/

/-- Trees are left as they are, or filled below a block. -/
theorem numberedTree_cases (plan : Plan) (autoFill : Bool) :
    (∀ l : Layout, l.header.autoFill = autoFill → l.numberedTree plan = l.tree) ∨
      ∃ base, ∀ l : Layout, l.header.autoFill = autoFill →
        l.numberedTree plan = (l.tree.fill base plan.maskLength).2 := by
  unfold numberedTree
  cases autoFill with
  | false => exact Or.inl fun l hauto ↦ if_neg (Bool.eq_false_iff.mp hauto)
  | true =>
    cases plan.network with
    | error e => exact Or.inl fun l hauto ↦ if_pos hauto
    | ok base =>
      cases hfamily : base.family with
      | v4 =>
        refine Or.inl fun l hauto ↦ (if_pos hauto).trans ?_
        dsimp only
        rw [hfamily]
      | v6 =>
        refine Or.inr ⟨base, fun l hauto ↦ (if_pos hauto).trans ?_⟩
        dsimp only
        rw [hfamily]

theorem alike_numberedTree (plan : Plan) (l : Layout) :
    l.tree.Related Node.Alike (l.numberedTree plan) := by
  rcases numberedTree_cases plan l.header.autoFill with hsame | ⟨base, hfill⟩
  · rw [hsame l rfl]
    exact .refl (fun _ ↦ ⟨rfl, rfl, rfl⟩) _
  · rw [hfill l rfl]
    exact alike_fill _ _ _

theorem numberedTree_restamped (hauto : l'.header.autoFill = l.header.autoFill)
    (h : l.tree.Related Node.Restamped l'.tree) :
    (l.numberedTree plan).Related Node.Restamped (l'.numberedTree plan) := by
  rcases numberedTree_cases plan l.header.autoFill with hsame | ⟨base, hfill⟩
  · rwa [hsame l rfl, hsame l' hauto]
  · rw [hfill l rfl, hfill l' hauto]
    exact fill_restamped h _ _

theorem numberedTree_numberedTree (plan : Plan) (l : Layout) :
    { l with kept := some (l.numberedTree plan) : Layout }.numberedTree plan =
      l.numberedTree plan := by
  rcases numberedTree_cases plan l.header.autoFill with hsame | ⟨base, hfill⟩
  · exact hsame { l with kept := some (l.numberedTree plan) } rfl
  · refine (hfill { l with kept := some (l.numberedTree plan) } rfl).trans ?_
    rw [hfill l rfl]
    exact congrArg Prod.snd (fill_fill l.tree base plan.maskLength)

namespace Leftover

theorem refl (plan : Plan) (l : Layout) : Leftover plan l l where
  header := rfl
  nodes := rfl
  tree := Or.inl (.refl Node.Restamped.refl _)
  headed := Or.inl rfl

theorem autoFill_eq (h : Leftover plan l l') : l'.header.autoFill = l.header.autoFill := by
  rw [h.header]

theorem alike (h : Leftover plan l l') : l.tree.Related Node.Alike l'.tree := by
  rcases h.tree with htree | htree
  · exact htree.alike_of_restamped
  · exact (alike_numberedTree plan l).trans htree.alike_of_restamped fun _ _ _ ↦ Node.Alike.trans

theorem numberedTree (h : Leftover plan l l') :
    (l.numberedTree plan).Related Node.Restamped (l'.numberedTree plan) := by
  rcases h.tree with htree | htree
  · exact numberedTree_restamped h.autoFill_eq htree
  · rw [← numberedTree_numberedTree plan l]
    exact numberedTree_restamped h.autoFill_eq htree

/-- What is left does not show in how the check and the numbering come out. -/
theorem prepare_fst_eq (h : Leftover plan l l') :
    ((prepare plan).run l').1 = ((prepare plan).run l).1 := by
  have hname : l'.header.name = l.header.name := by rw [h.header]
  have hcheck : ((check plan).run l').1 = ((check plan).run l).1 :=
    run_check_fst_congr hname h.nodes h.alike
  rw [prepare, run_bind, run_bind]
  rcases hrun : (check plan).run l with ⟨r, l₁⟩
  rcases hrun' : (check plan).run l' with ⟨r', l₁'⟩
  rw [hrun, hrun'] at hcheck
  obtain rfl : r' = r := hcheck
  cases r' with
  | error e => rfl
  | ok _ =>
    obtain ⟨hheader, hnodes, htree, -⟩ := run_check_eq_ok hrun
    obtain ⟨hheader', hnodes', htree', -⟩ := run_check_eq_ok hrun'
    refine run_fill_fst_congr ?_ ?_ ?_
    · rw [hheader, hheader', h.autoFill_eq]
    · rw [hnodes, hnodes', h.nodes]
    · rw [htree, htree']
      exact h.alike

end Leftover

/-! ## A save leaves nothing else -/

theorem keeps_leftover_check (plan : Plan) (l : Layout) :
    Keeps (Leftover plan l) (check plan) :=
  keeps_check (fun _ h ↦ ⟨h.header, h.nodes, h.tree, h.headed⟩) plan

theorem keeps_leftover_fill (plan : Plan) (l : Layout) :
    Keeps (Leftover plan l) (Layout.fill plan) := by
  intro l' h
  rcases run_fill_snd plan l' with hsame | hnumbered
  · rwa [hsame]
  · rw [hnumbered]
    exact ⟨h.header, h.nodes, Or.inr h.numberedTree, h.headed⟩

theorem keeps_leftover_prepare (plan : Plan) (l : Layout) :
    Keeps (Leftover plan l) (prepare plan) :=
  (keeps_leftover_check plan l).bind fun _ ↦ keeps_leftover_fill plan l

theorem keeps_leftover_persistAll (plan : Plan) (l : Layout) (layoutId : Int) :
    Keeps (fun p : Layout × σ ↦ Leftover plan l p.1) (onTreeAndStore (persistAll layoutId)) := by
  intro p h
  rw [run_onTreeAndStore]
  exact ⟨h.header, h.nodes, h.tree.imp (keeps_restamped_persistAll _ layoutId (p.1.tree, p.2))
    (keeps_restamped_persistAll _ layoutId (p.1.tree, p.2)), h.headed⟩

omit [Store σ] in
theorem ends_prepare (plan : Plan) (l : Layout) :
    Ends (fun p : Layout × σ ↦ Leftover plan l p.1) (prepare plan).first
      (fun _ p ↦ Leftover plan l p.1 ∧ ((prepare plan).run l).1 = .ok ())
      (fun _ p ↦ Leftover plan l p.1) := by
  intro p hp
  have hkept := keeps_leftover_prepare plan l p.1 hp
  have hsame := hp.prepare_fst_eq
  rw [run_first]
  rcases hrun : (prepare plan).run p.1 with ⟨r, l₁⟩
  rw [hrun] at hkept hsame
  cases r with
  | ok _ => exact ⟨hkept, hsame.symm⟩
  | error e => exact hkept

/-- Up to where the layout shows what was stored, a save leaves nothing else. -/
theorem ends_saveUnder (plan : Plan) (l : Layout) :
    Ends (fun p : Layout × σ ↦ Leftover plan l p.1) (saveUnder plan) (fun _ _ ↦ True)
      (fun _ p ↦ Leftover plan l p.1) := by
  refine (ends_prepare plan l).bind fun _ p ⟨hp, hprepared⟩ ↦ ?_
  have hheader : ∀ id, Keeps (Leftover plan l)
      (Step.modify fun l ↦ { l with header := { l.header with id } }) := fun id ↦
    .modify fun _ h ↦ ⟨by rw [h.header], h.nodes, h.tree, Or.inr hprepared⟩
  refine Ends.get (P := fun p : Layout × σ ↦ Leftover plan l p.1) (fun q ↦ ?_) p hp
  refine (Keeps.second_fst _).ends.bind fun id ↦ (hheader id).first_fst.ends.bind fun _ ↦ ?_
  exact (keeps_leftover_persistAll plan l id).ends.bind fun _ _ _ ↦ trivial

/-- The plans that the store shows under an id ask the same as this one. -/
def ShowsOnly (id : Int) (plan : Plan) (s : σ) : Prop :=
  ∀ plan', ((Store.plan? id).run s).1 = .ok (some plan') → plan.Agrees plan'

/-- What a refused save leaves of a leftover is a leftover. -/
theorem Leftover.of_save {s s' : σ} {e : PlanError} (h : Leftover plan l l₁)
    (hshows : ShowsOnly l.header.planId plan s)
    (hrun : save.run (l₁, s) = (.error e, (l', s'))) : Leftover plan l l' := by
  have hplanId : l₁.header.planId = l.header.planId := by rw [h.header]
  rcases run_save_cases l₁ s with ⟨found, s₁, hfound⟩ | hsame
  · have hagrees := hshows found (hplanId ▸ congrArg Prod.fst hfound)
    rw [run_save_of_plan hfound, saveUnder_eq_of_agrees hagrees] at hrun
    exact (ends_saveUnder plan l).of_error h hrun
  · rw [hrun] at hsame
    obtain rfl : l' = l₁ := hsame
    exact h

/-! ## Nothing of it shows in the next save -/

/-- The store refused to create a header, and each layout has the one that it had. -/
structure Headless (l l' : Layout) (p q : Layout × σ) : Prop where
  refused : ∃ s e, (Store.createLayout l.header).run s = (.error e, p.2)
  header : p.1.header = l.header
  header' : q.1.header = l'.header

/-- A recording store creates every header. -/
theorem not_headless_recording (p q : Layout × Recording) : ¬ Headless l l' p q := by
  intro h
  obtain ⟨s, e, hrefused⟩ := h.refused
  cases hrefused

/-- A database creates every header of a stored plan, until its ids are used up. -/
theorem Headless.used_up {p q : Layout × Database} (h : Headless l l' p q)
    (hplan : ∃ plan ∈ p.2.plans, plan.id = l.header.planId) :
    Database.largestId ≤ p.2.lastLayout := by
  obtain ⟨db, e, hrefused⟩ := h.refused
  by_contra hroom
  have hback : p.2 = db := by
    change Database.change (·.createLayout l.header) db = _ at hrefused
    unfold Database.change at hrefused
    split at hrefused
    · cases hrefused
    · exact (congrArg Prod.snd hrefused).symm
  have hcreate := Database.createLayout_of_room (hback ▸ hplan) (hback ▸ Int.not_le.mp hroom)
  have hrun : (Store.createLayout l.header).run db = (.ok _, _) :=
    Database.run_change_eq_ok_iff.mpr hcreate
  cases hrun.symm.trans hrefused

/-- Two refusals leave one store and the same nodes.  They leave the same header, too, if one
was created. -/
structure BothRefused (l l' : Layout) (p q : Layout × σ) : Prop where
  store : q.2 = p.2
  nodes : q.1.nodes = p.1.nodes
  header : q.1.header = p.1.header ∨ Headless l l' p q

/-- The layouts were prepared, so that they differ in stamps only. -/
structure PreparedAlike (l l' l₁ l₁' : Layout) : Prop where
  header : l₁.header = l.header
  header' : l₁'.header = l'.header
  nodes : l₁'.nodes = l₁.nodes
  trees : l₁.tree.Related Node.Restamped l₁'.tree
  rooted : l₁.tree.Rooted

omit [Store σ] in
theorem Leftover.together_prepare_leftover (h : Leftover plan l l') (hready : l.Ready) :
    Together (prepare plan) (prepare plan) (fun _ l₁ _ l₁' ↦ PreparedAlike l l' l₁ l₁')
      (fun l₁ l₁' ↦ l₁'.header = l₁.header ∧ l₁'.nodes = l₁.nodes) l l' := by
  have hfst := h.prepare_fst_eq
  have hsame := keeps_sameContent_prepare l plan l ⟨rfl, rfl⟩
  have hsame' := keeps_sameContent_prepare l' plan l' ⟨rfl, rfl⟩
  rcases hrun : (prepare plan).run l with ⟨r, l₁⟩
  rcases hrun' : (prepare plan).run l' with ⟨r', l₁'⟩
  rw [hrun] at hsame hfst
  rw [hrun'] at hsame' hfst
  obtain rfl : r' = r := hfst
  have hnodes : l₁'.nodes = l₁.nodes := (hsame'.nodes.trans h.nodes).trans hsame.nodes.symm
  cases r' with
  | error e =>
    have hheader : l'.header = l.header := by
      refine h.headed.resolve_right fun hok ↦ ?_
      rw [hrun] at hok
      cases hok
    exact .refused hrun hrun' ⟨(hsame'.header.trans hheader).trans hsame.header.symm, hnodes⟩
  | ok _ =>
    obtain ⟨_, c, hcheck, hfill⟩ := run_bind_eq_ok_iff.mp hrun
    obtain ⟨_, c', hcheck', hfill'⟩ := run_bind_eq_ok_iff.mp hrun'
    have hempty' : l'.nodes = [] → l'.tree = {} := fun hnil ↦
      h.alike.eq_empty (hready.empty (h.nodes ▸ hnil))
    have htree := (run_check_fill_eq_ok hready.empty hcheck hfill).2.1
    have htree' := (run_check_fill_eq_ok hempty' hcheck' hfill').2.1
    refine .carried hrun hrun' ⟨hsame.header, hsame'.header, hnodes, ?_, ?_⟩
    · rw [htree, htree']
      exact h.numberedTree
    · rw [htree]
      exact (relabelled_numberedTree plan l).sameShape.rooted hready.rooted

theorem together_writeNew [NumbersHeaders σ] (h : Leftover plan l l') {l₁ l₁' : Layout}
    (h₁ : PreparedAlike l l' l₁ l₁') (s : σ) :
    Together writeNew writeNew (fun _ p _ q ↦ q = p) (BothRefused l l') (l₁, s) (l₁', s) := by
  have hcreate : Store.createLayout (σ := σ) l₁'.header = Store.createLayout l₁.header := by
    rw [h₁.header', h₁.header, h.header, NumbersHeaders.createLayout_eq]
  refine Together.get ?_
  dsimp only
  rw [hcreate]
  refine Together.second ((Together.same (Store.createLayout l₁.header) s).imp_refused ?_) ?_
  · rintro s₁ _ ⟨rfl, e, hrefused⟩
    exact ⟨rfl, h₁.nodes, Or.inr ⟨⟨s, e, h₁.header ▸ hrefused⟩, h₁.header, h₁.header'⟩⟩
  rintro _ _ id s₁ ⟨rfl, rfl⟩
  have hheaders : { l₁'.header with id } = { l₁.header with id } := by
    rw [h₁.header', h₁.header, h.header]
  refine Together.first (Together.modify _ _) ?_
  rintro _ _ _ _ ⟨rfl, rfl⟩
  refine together_onTreeAndStore
    ((together_persistAll_restamped h₁.trees h₁.rooted).imp_refused fun p q hstores ↦ ?_) ?_
  · exact ⟨hstores, h₁.nodes, Or.inl hheaders⟩
  rintro _ t s₂ _ _ _ ⟨rfl, rfl⟩
  refine .carried rfl rfl ?_
  dsimp only
  rw [hheaders]
  rfl

theorem together_saveUnder [NumbersHeaders σ] (h : Leftover plan l l') (hready : l.Ready) (s : σ) :
    Together (saveUnder plan) (saveUnder plan) (fun _ p _ q ↦ q = p) (BothRefused l l')
      (l, s) (l', s) := by
  refine Together.first ((h.together_prepare_leftover hready).imp_refused
    fun _ _ hrefused ↦ ⟨rfl, hrefused.2, Or.inl hrefused.1⟩) ?_
  exact fun _ l₁ _ l₁' h₁ ↦ together_writeNew h h₁ s

/-- Both runs come to the same: one result, one store, the same nodes, and the same header unless
none was created.  If they are carried out then nothing differs. -/
structure SameEnd (l l' : Layout) (r r' : Except PlanError Unit × Layout × σ) : Prop where
  result : r'.1 = r.1
  store : r'.2.2 = r.2.2
  nodes : r'.2.1.nodes = r.2.1.nodes
  header : r'.2.1.header = r.2.1.header ∨ Headless l l' r.2 r'.2
  eq_of_ok : r.1 = .ok () → r' = r

theorem SameEnd.refl (l : Layout) (r : Except PlanError Unit × Layout × σ) : SameEnd l l r r :=
  ⟨rfl, rfl, rfl, Or.inl rfl, fun _ ↦ rfl⟩

theorem sameEnd_of_together {m : Step (Layout × σ) Unit} {p q : Layout × σ}
    (h : Together m m (fun _ p _ q ↦ q = p) (BothRefused l l') p q) :
    SameEnd l l' (m.run p) (m.run q) := by
  cases h with
  | carried h h' hsame =>
    rw [h, h', hsame]
    exact ⟨rfl, rfl, rfl, Or.inl rfl, fun _ ↦ rfl⟩
  | refused h h' hrefused =>
    rw [h, h']
    exact ⟨rfl, hrefused.store, hrefused.nodes, hrefused.header, nofun⟩

/-- The store shows a plan under an id that asks the same as this one. -/
def Shows (id : Int) (plan : Plan) (s : σ) : Prop :=
  ∃ plan', ((Store.plan? id).run s).1 = .ok (some plan') ∧ plan.Agrees plan'

/-- A leftover is saved like the layout itself. -/
theorem Leftover.sameEnd [NumbersHeaders σ] (h : Leftover plan l l') (hready : l.Ready) {s : σ}
    (hshows : Shows l.header.planId plan s) :
    SameEnd l l' (save.run (l, s)) (save.run (l', s)) := by
  have hplanId : l'.header.planId = l.header.planId := by rw [h.header]
  obtain ⟨plan', hplan, hagrees⟩ := hshows
  obtain ⟨s₁, hrun⟩ : ∃ s₁, (Store.plan? l.header.planId).run s = (.ok (some plan'), s₁) :=
    ⟨_, Prod.ext hplan rfl⟩
  rw [run_save_of_plan hrun, run_save_of_plan (hplanId ▸ hrun), saveUnder_eq_of_agrees hagrees]
  exact sameEnd_of_together (together_saveUnder h hready s₁)

/-- The second layout is the first one after any number of refused saves, on whatever stores that
have no other plan for it. -/
inductive RefusedSaves (plan : Plan) (l : Layout) : Layout → Prop where
  | start : RefusedSaves plan l l
  | again {σ : Type} [Store σ] {s s' : σ} {e : PlanError} {l₁ l' : Layout}
    (before : RefusedSaves plan l l₁) (shows : ShowsOnly l.header.planId plan s)
    (run : save.run (l₁, s) = (.error e, (l', s'))) : RefusedSaves plan l l'

theorem RefusedSaves.leftover (h : RefusedSaves plan l l') : Leftover plan l l' := by
  induction h with
  | start => exact .refl plan l
  | again _ hshows hrun ih => exact ih.of_save hshows hrun

/-- However often it was refused, a layout is saved like a copy that was taken before. -/
theorem RefusedSaves.sameEnd [NumbersHeaders σ] (h : RefusedSaves plan l l')
    (hkept : l.kept = none ∨ l.kept = some (build l.nodes)) {s : σ}
    (hshows : Shows l.header.planId plan s) :
    SameEnd l l' (save.run (l, s)) (save.run (l', s)) :=
  h.leftover.sameEnd (ready_of_tree_eq (tree_eq_build hkept)) hshows

/-- A layout without a stale tree may be saved again after a refusal, on any store that holds its
plan: it comes to the same as a save of a copy that was taken before the first attempt. -/
theorem save_retried [NumbersHeaders τ] {s s' : σ} {e : PlanError} {u : τ}
    (hkept : l.kept = none ∨ l.kept = some (build l.nodes))
    (hrun : save.run (l, s) = (.error e, (l', s')))
    (hplan : ∀ plan, ((Store.plan? l.header.planId).run s).1 = .ok (some plan) →
      Shows l.header.planId plan u) :
    SameEnd l l' (save.run (l, u)) (save.run (l', u)) := by
  rcases run_save_cases l s with ⟨plan, s₁, hfound⟩ | hsame
  · have hshown := congrArg Prod.fst hfound
    have hshows : ShowsOnly l.header.planId plan s := fun plan' hplan' ↦ by
      cases hshown.symm.trans hplan'
      exact ⟨rfl, rfl⟩
    exact (RefusedSaves.start.again hshows hrun).sameEnd hkept (hplan plan hshown)
  · rw [hrun] at hsame
    obtain rfl : l' = l := hsame
    exact .refl l' _

/-- The device fails behind the header and the root.  The id of the header and that of the root
stay with the layout, the site has lost its own, and all of them have their blocks.  Another store
gives them the ids that it gives to a fresh copy. -/
theorem save_retried_halls :
    let l := hallsLayout ["a"]
    let db : Database := { plans := onePlan.plans, lastPlan := 1, lastLayout := 6, lastNode := 40 }
    ∃ e l' s', save.run (l, { onePlan with failAfter := some 1 }) = (.error e, (l', s')) ∧
      l'.header.id = 1 ∧ l'.tree.flatten.map Node.id = [2, 0, 3] ∧
      SameEnd l l' (save.run (l, db)) (save.run (l', db)) ∧ (save.run (l, db)).1 = .ok () ∧
      (save.run (l', db)).2.1.header.id = 7 ∧
      (save.run (l', db)).2.1.nodes.map Node.id = [41, 42, 43] := by
  intro l db
  have hrefused : (save.run (l, { onePlan with failAfter := some 1 })).1 =
      .error (.storeFailure .device) := by decide +kernel
  have hrun := run_eq_of_fst hrefused
  have hsame := save_retried (τ := Database) (u := db) (Or.inl rfl) hrun fun plan hplan ↦ by
    cases hplan
    exact ⟨_, rfl, rfl, rfl⟩
  have hok : (save.run (l, db)).1 = .ok () := by decide +kernel
  refine ⟨_, _, _, hrun, by decide +kernel, by decide +kernel, hsame, hok, ?_⟩
  rw [hsame.eq_of_ok hok]
  decide +kernel

end Layout

end AddressPlan
