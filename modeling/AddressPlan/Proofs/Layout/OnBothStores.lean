import AddressPlan.Proofs.Layout.RoundTrip
import AddressPlan.Proofs.NodeTree.ReconciledTwice

/-!
# Layouts on both stores

Two layouts match if they agree in everything but their ids.  On parallel stores they are
checked, numbered, saved and updated alike: what is refused is refused before anything is
written, and what is carried out leaves matching layouts on parallel stores again.
-/

namespace AddressPlan

open List Relator Rows Step NodeTree

variable {P Q L : Int → Int → Prop} {s : Recording} {db : Database} {l l' : Layout}
  {plan plan' : Plan} {bound : Int}

namespace Layout

/-- The layouts agree but for ids.  Those of the nodes correspond by `Q`. -/
structure Matches (Q : Int → Int → Prop) (l l' : Layout) : Prop where
  header : l'.header = { l.header with id := l'.header.id }
  nodes : Forall₂ (Node.Matches Q) l.nodes l'.nodes
  kept : Option.Rel (NodeTree.Matches Q) l.kept l'.kept

theorem Matches.mono {P' : Int → Int → Prop} (h : l.Matches P l') (hle : P ≤ P') :
    l.Matches P' l' where
  header := h.header
  nodes := h.nodes.imp fun _ _ hn ↦ hn.mono hle
  kept := optionRel_imp (fun _ _ htree ↦ htree.mono hle) h.kept

/-- Nothing happened to `l` and `l'` but that their trees were kept, and maybe numbered. -/
structure PreparedFrom (Q : Int → Int → Prop) (l l' l₁ l₁' : Layout) : Prop where
  layouts : l₁.Matches Q l₁'
  header : l₁.header = l.header
  header' : l₁'.header = l'.header
  relabelled : Relabelled l.tree l₁.tree

theorem PreparedFrom.trans {l₁ l₁' l₂ l₂' : Layout} (h : PreparedFrom Q l l' l₁ l₁')
    (h' : PreparedFrom Q l₁ l₁' l₂ l₂') : PreparedFrom Q l l' l₂ l₂' where
  layouts := h'.layouts
  header := h'.header.trans h.header
  header' := h'.header'.trans h.header'
  relabelled := h.relabelled.trans h'.relabelled

theorem together_fetchPlan {refused : Recording → Database → Prop} (h : Parallel P L s db)
    (id : Int) (hrefused : refused (s.record (.fetchPlan id)) db) :
    Together (fetchPlan id) (fetchPlan id)
      (fun plan s' plan' db' ↦ SamePlan plan plan' ∧ (∃ plan ∈ db.plans, plan.id = id) ∧
        s.record (.fetchPlan id) = s' ∧ db = db') refused s db := by
  refine (h.together_plan? id).and_run.bind ?_
  rintro found _ found' _ ⟨⟨hplans, rfl, rfl⟩, -, hrun⟩
  cases hplans with
  | none => exact .refuse hrefused
  | some hplan =>
    refine .pure ⟨hplan, ?_, rfl, rfl⟩
    have hfound : db.plan? id = some _ := Except.ok.inj (Prod.mk.inj hrun).1
    obtain ⟨plan, hmem, -⟩ := Option.map_eq_some_iff.mp hfound
    have hid := List.find?_some hmem
    exact ⟨plan, List.mem_of_find?_eq_some hmem, beq_iff_eq.mp hid⟩

theorem together_onTreeAndStore {σ τ α β γ δ : Type} {s : σ} {u : τ} {m : Step (NodeTree × σ) α}
    {m' : Step (NodeTree × τ) β} {f : α → Step (Layout × σ) γ} {g : β → Step (Layout × τ) δ}
    {post : γ → Layout × σ → δ → Layout × τ → Prop} {refused : Layout × σ → Layout × τ → Prop}
    {written : α → NodeTree × σ → β → NodeTree × τ → Prop}
    (h : Together m m' written
      (fun p q ↦ refused ({ l with kept := some p.1 }, p.2) ({ l' with kept := some q.1 }, q.2))
      (l.tree, s) (l'.tree, u))
    (hfg : ∀ a t s₁ b t' u₁, written a (t, s₁) b (t', u₁) → Together (f a) (g b) post refused
      ({ l with kept := some t }, s₁) ({ l' with kept := some t' }, u₁)) :
    Together (onTreeAndStore m >>= f) (onTreeAndStore m' >>= g) post refused (l, s) (l', u) := by
  have hrun := run_onTreeAndStore m (l, s)
  have hrun' := run_onTreeAndStore m' (l', u)
  cases h with
  | carried h h' hwritten =>
    rw [h] at hrun
    rw [h'] at hrun'
    exact (hfg _ _ _ _ _ _ hwritten).after hrun hrun'
  | refused h h' hrefused =>
    rw [h] at hrun
    rw [h'] at hrun'
    exact .refused (run_bind_error hrun) (run_bind_error hrun') hrefused

section Preparing

variable (hQ : BiUnique Q) (hzero : Q 0 0)

include hQ hzero

theorem Matches.tree (h : l.Matches Q l') : l.tree.Matches Q l'.tree := by
  have hkept := h.kept
  unfold Layout.tree
  generalize l.kept = kept at hkept ⊢
  generalize l'.kept = kept' at hkept ⊢
  cases hkept with
  | none => exact build_matches hQ hzero h.nodes
  | some htree => exact htree

theorem Matches.keepTree (h : l.Matches Q l') : l.keepTree.Matches Q l'.keepTree :=
  { h with kept := .some (h.tree hQ hzero) }

theorem together_check (hplan : SamePlan plan plan') (h : l.Matches Q l') :
    Together (check plan) (check plan') (fun _ l₁ _ l₁' ↦ PreparedFrom Q l l' l₁ l₁')
      (PreparedFrom Q l l') l l' := by
  have hstart : PreparedFrom Q l l' l l' := ⟨h, rfl, rfl, .refl _⟩
  have hkept : PreparedFrom Q l l' l.keepTree l'.keepTree :=
    ⟨h.keepTree hQ hzero, rfl, rfl, .refl _⟩
  have hcheck : plan'.check = plan.check := by
    rw [hplan]
    rfl
  have hallowed : plan'.allowedBits = plan.allowedBits := by
    rw [hplan]
    rfl
  have hlength : l'.nodes.length = l.nodes.length := h.nodes.length_eq.symm
  have hempty := isEmpty_eq_of_forall₂ h.nodes
  have hroots : (l'.nodes.filter Node.isRoot).length = (l.nodes.filter Node.isRoot).length :=
    (forall₂_filter (fun _ _ hn ↦ hn.isRoot_eq hQ hzero) h.nodes).length_eq.symm
  have hname : l'.header.name = l.header.name := by rw [h.header]
  have htree := h.tree hQ hzero
  unfold check
  rw [hcheck, hallowed]
  refine Together.ofExcept hstart fun _ _ ↦ Together.get ?_
  rw [hempty, hroots, hname, hlength]
  split
  · exact .pure hstart
  · dsimp only
    split
    · exact .refuse hstart
    · refine Together.ofExcept hstart fun allowed _ ↦ (Together.modify keepTree keepTree).bind ?_
      rintro _ _ _ _ ⟨rfl, rfl⟩
      rw [htree.size_eq, check_eq_of_matches htree]
      split
      · exact .refuse hkept
      · exact .of_fst_eq rfl (fun _ ↦ hkept) hkept

theorem together_fill (hplan : SamePlan plan plan') (h : l.Matches Q l') :
    Together (Layout.fill plan) (Layout.fill plan') (fun _ l₁ _ l₁' ↦ PreparedFrom Q l l' l₁ l₁')
      (PreparedFrom Q l l') l l' := by
  have hstart : PreparedFrom Q l l' l l' := ⟨h, rfl, rfl, .refl _⟩
  have hnetwork : plan'.network = plan.network := by
    rw [hplan]
    rfl
  have hmask : plan'.maskLength = plan.maskLength := by rw [hplan]
  have hauto : l'.header.autoFill = l.header.autoFill := by rw [h.header]
  have hempty := isEmpty_eq_of_forall₂ h.nodes
  unfold Layout.fill
  rw [hnetwork]
  refine Together.get ?_
  rw [hauto, hempty, hmask]
  split
  · exact .pure hstart
  · refine Together.ofExcept hstart fun network _ ↦ ?_
    split
    · exact .pure hstart
    · obtain ⟨hresult, htrees⟩ := fill_matches (h.tree hQ hzero) network plan.maskLength
      have hfilled : PreparedFrom Q l l'
          { l with kept := some (l.tree.fill network plan.maskLength).2 }
          { l' with kept := some (l'.tree.fill network plan.maskLength).2 } :=
        ⟨{ h with kept := .some htrees }, rfl, rfl, relabelled_fill _ _ _⟩
      exact .of_fst_eq hresult (fun _ ↦ hfilled) hfilled

theorem together_prepare {α β : Type} {m : Step (Layout × Recording) α}
    {m' : Step (Layout × Database) β} {post : α → Layout × Recording → β → Layout × Database → Prop}
    {refused : Layout × Recording → Layout × Database → Prop} (hplan : SamePlan plan plan')
    (h : l.Matches Q l')
    (hrefused : ∀ l₁ l₁', PreparedFrom Q l l' l₁ l₁' → refused (l₁, s) (l₁', db))
    (hnext : ∀ l₁ l₁', PreparedFrom Q l l' l₁ l₁' → Together m m' post refused (l₁, s) (l₁', db)) :
    Together (do Step.first (check plan); Step.first (Layout.fill plan); m)
      (do Step.first (check plan'); Step.first (Layout.fill plan'); m') post refused
      (l, s) (l', db) := by
  refine Together.first ((together_check hQ hzero hplan h).imp_refused fun _ _ ↦ hrefused _ _) ?_
  rintro _ l₁ _ l₁' h₁
  refine Together.first ((together_fill hQ hzero hplan h₁.layouts).imp_refused
    fun _ _ h₂ ↦ hrefused _ _ (h₁.trans h₂)) ?_
  exact fun _ l₂ _ l₂' h₂ ↦ hnext l₂ l₂' (h₁.trans h₂)

end Preparing

/-! ## Saving -/

/-- The nodes of a tree that was written for the first time match with their parents. -/
theorem matches_of_persistAll {P' : Int → Int → Prop} {layoutId layoutId' : Int} {t t' : NodeTree}
    {p : NodeTree × Recording} {q : NodeTree × Database} {tally tally' : Tally}
    (h : Parallel P L s db) (ht : t.Rooted) (ht' : t'.Rooted)
    (hpending : Pending P' L layoutId layoutId' bound t [] p q)
    (hrun : (persistAll layoutId).run (t, s) = (.ok tally, p))
    (hrun' : (persistAll layoutId').run (t', db) = (.ok tally', q)) : p.1.Matches P' q.1 := by
  obtain ⟨hrows, -⟩ := ascending_of_persistAll (σ := Recording) h.sound ht hrun
  obtain ⟨hrows', -⟩ := ascending_of_persistAll (σ := Database) h.sound_database ht' hrun'
  have hnodes := hpending.stores.nodes
  rw [show p.2.nodes = s.nodes ++ p.1.flatten from hrows,
    show q.2.nodes = db.nodes ++ q.1.flatten from hrows'] at hnodes
  have hflatten := forall₂_drop s.nodes.length hnodes
  rw [List.drop_left, h.nodes.length_eq, List.drop_left] at hflatten
  exact matches_of_flatten hpending.trees.parents_eq (hflatten.imp fun _ _ hn ↦ hn.toMatches)

/-- The layouts match under the ids of their rows, and no more than `bound` ids were given. -/
structure Stored (P L : Int → Int → Prop) (bound : Int) (p : Layout × Recording)
    (q : Layout × Database) : Prop where
  stores : Parallel P L p.2 q.2
  given_le : q.2.given ≤ bound
  layouts : p.1.Matches P q.1
  ids : L p.1.header.id q.1.header.id
  rooted : p.1.tree.Rooted

/-- The relational store is as it was, and the layouts differ only in what they keep. -/
structure Untouched (P Q L : Int → Int → Prop) (l l' : Layout) (db : Database)
    (p : Layout × Recording) (q : Layout × Database) : Prop where
  stores : Parallel P L p.2 db
  database : q.2 = db
  layouts : PreparedFrom Q l l' p.1 q.1

theorem together_writeAll {refused : Layout × Recording → Layout × Database → Prop}
    (hQ : BiUnique Q) (hzero : Q 0 0) (h : Parallel P L s db) (hl : l.Matches Q l')
    (ht : l.tree.Rooted) (hids : L l.header.id l'.header.id)
    (hstored : ∃ header ∈ s.headers, header.id = l.header.id)
    (hroom : db.given + l.tree.size ≤ bound) (hbound : bound ≤ Database.largestId) :
    Together
      (do let _ ← onTreeAndStore (persistAll l.header.id)
          Step.first (Step.modify fun l ↦ { l with nodes := l.tree.flatten }))
      (do let _ ← onTreeAndStore (persistAll l'.header.id)
          Step.first (Step.modify fun l ↦ { l with nodes := l.tree.flatten }))
      (fun _ p _ q ↦ ∃ P' ≥ P, Stored P' L bound p q) refused (l, s) (l', db) := by
  have htrees := hl.tree hQ hzero
  have ht' : l'.tree.Rooted := rooted_congr htrees.parents_eq ht
  refine together_onTreeAndStore
    (together_persistAll h hids hstored htrees ht hroom hbound).and_run ?_
  rintro _ t s₁ _ t' db₁ ⟨⟨P', hle, hpending⟩, hrun, hrun'⟩
  have hmatch : t.Matches P' t' := matches_of_persistAll h ht ht' hpending hrun hrun'
  have hgiven : db₁.given ≤ bound := by simpa using hpending.room
  exact .carried rfl rfl ⟨P', hle, hpending.stores, hgiven,
    ⟨hl.header, hmatch.flatten, .some hmatch⟩, hids, rooted_congr hpending.shape ht⟩

theorem together_save (hQ : BiUnique Q) (hzero : Q 0 0) (h : Parallel P L s db)
    (hl : l.Matches Q l') (ht : l.tree.Rooted) (hroom : db.given + 1 + l.tree.size ≤ bound)
    (hbound : bound ≤ Database.largestId) :
    Together save save (fun _ p _ q ↦ ∃ P' ≥ P, ∃ L' ≥ L, Stored P' L' bound p q)
      (Untouched P Q L l l' db) (l, s) (l', db) := by
  have hplanId : l'.header.planId = l.header.planId := by rw [hl.header]
  have hunchanged : ∀ l₁ l₁', PreparedFrom Q l l' l₁ l₁' →
      Untouched P Q L l l' db (l₁, s.record (.fetchPlan l.header.planId)) (l₁', db) :=
    fun _ _ h₁ ↦ ⟨h.record _, rfl, h₁⟩
  refine Together.get ?_
  dsimp only
  rw [hplanId]
  refine Together.second (together_fetchPlan h _ (hunchanged l l' ⟨hl, rfl, rfl, .refl _⟩)) ?_
  rintro plan _ plan' _ ⟨hplan, hfound, rfl, rfl⟩
  refine together_prepare hQ hzero hplan hl hunchanged fun l₁ l₁' h₁ ↦ ?_
  refine Together.get (Together.second ((h.record _).together_createLayout h₁.layouts.header
    (h₁.header ▸ hfound) (by omega)) ?_)
  rintro id s₂ id' db₂ ⟨hgiven, hstored, L', hleL, hids, h₂⟩
  refine Together.first (Together.modify _ _) ?_
  rintro _ _ _ _ ⟨rfl, rfl⟩
  have hmatch : Layout.Matches Q { l₁ with header := { l₁.header with id } }
      { l₁' with header := { l₁'.header with id := id' } } :=
    { h₁.layouts with header := by rw [h₁.layouts.header] }
  have hroom₂ : db₂.given + l₁.tree.size ≤ bound := by
    rw [hgiven, h₁.relabelled.sameShape.size_eq]
    exact hroom
  exact (together_writeAll hQ hzero h₂ hmatch (h₁.relabelled.sameShape.rooted ht) hids hstored
    hroom₂ hbound).imp fun _ _ _ _ ⟨P', hle, hdone⟩ ↦ ⟨P', hle, L', hleL, hdone⟩

/-! ## Updating -/

theorem together_deleteStaleRoots {root root' : Option Int} {rows rows' : List Node}
    {refused : Layout × Recording → Layout × Database → Prop} (h : Parallel P L s db)
    (hQ : BiUnique Q) (hroot : Option.Rel Q root root')
    (hrows : Forall₂ (fun n n' : Node ↦ n.RowMatches P L n' ∧ Q n.id n'.id) rows rows')
    (hpos : ∀ n ∈ rows, 0 < n.id) :
    Together (deleteStaleRoots root rows) (deleteStaleRoots root' rows')
      (fun live p live' q ↦ Thinned P Q L s db live live' p.2 q.2 ∧ p.1 = l ∧ q.1 = l') refused
      (l, s) (l', db) := by
  have hids : Forall₂ (fun a a' ↦ P a a' ∧ Q a a') (rows.map Node.id) (rows'.map Node.id) :=
    rel_map (fun _ _ hn ↦ ⟨hn.1.id, hn.2⟩) hrows
  have hstale : ∀ n n' : Node, n.RowMatches P L n' ∧ Q n.id n'.id →
      (n'.isRoot && some n'.id != root') = (n.isRoot && some n.id != root) := by
    rintro n n' ⟨hn, hid⟩
    have hne : (some n'.id != root') = (some n.id != root) := by
      cases hroot with
      | none => rfl
      | some ha => exact congrArg not (beq_eq_of_pairs hQ hid ha)
    rw [hn.isRoot_eq h.ids.biUnique h.ids.zero, hne]
  refine Together.foldlM
    (fun _ live (p : Layout × Recording) live' (q : Layout × Database) ↦
      Thinned P Q L s db live live' p.2 q.2 ∧ p.1 = l ∧ q.1 = l')
    ?_ (forall₂_filter hstale hrows) ⟨⟨h, hids, ?_, rfl, rfl⟩, rfl, rfl⟩
  · rintro n _ n' live p live' q hn ⟨hthin, rfl, rfl⟩
    exact hthin.together_delete hn.1.id
  · intro id hid
    obtain ⟨n, hn, rfl⟩ := List.mem_map.mp hid
    exact hpos n hn

/-- The rows of a layout are made to follow its tree, and then shown. -/
theorem together_rewrite {refused : Layout × Recording → Layout × Database → Prop}
    {live live' : List Int} (hQ : BiUnique Q) (hzero : Q 0 0)
    (h : Parallel P L s db) (hl : l.Matches Q l') (ht : l.tree.Rooted) (hlinked : l.tree.Linked)
    (hids : L l.header.id l'.header.id)
    (hstored : ∃ header ∈ s.headers, header.id = l.header.id)
    (hlive : Forall₂ (fun a a' ↦ P a a' ∧ Q a a') live live') (hpos : ∀ id ∈ live, 0 < id)
    (hroom : db.given + l.tree.size ≤ bound) (hbound : bound ≤ Database.largestId) :
    Together
      (do let _ ← onTreeAndStore (reconcile l.header.id live)
          let nodes ← Step.second (Store.nodes l.header.id)
          Step.first (Step.modify fun l ↦ { l with nodes, kept := none }))
      (do let _ ← onTreeAndStore (reconcile l'.header.id live')
          let nodes ← Step.second (Store.nodes l'.header.id)
          Step.first (Step.modify fun l ↦ { l with nodes, kept := none }))
      (fun _ p _ q ↦ ∃ P' ≥ P, Stored P' L bound p q) refused (l, s) (l', db) := by
  refine together_onTreeAndStore
    (together_reconcile hQ h hids hstored hlive hpos (hl.tree hQ hzero) ht hlinked hroom
      hbound) ?_
  rintro _ t s₁ _ t' db₁ ⟨P', hle, hpending⟩
  have hstores : Parallel P' L s₁ db₁ := hpending.stores
  have hgiven : db₁.given ≤ bound := by simpa using hpending.room
  refine Together.second (hstores.together_nodes hids hstores.nodes) ?_
  rintro nodes _ nodes' _ ⟨hnodes, rfl, rfl⟩
  exact .carried rfl rfl ⟨P', hle, hstores.record _, hgiven,
    ⟨hl.header, hnodes.imp fun _ _ hn ↦ hn.toMatches, .none⟩, hids, build_rooted _⟩

/-- An update that is refused for want of a plan has not looked at the layout. -/
theorem together_update (hQ : BiUnique Q) (hzero : Q 0 0) (h : Parallel P L s db)
    (hl : l.dropTree.Matches Q l'.dropTree) (hids : L l.header.id l'.header.id)
    (hstored : ∃ header ∈ s.headers, header.id = l.header.id)
    (hrows : Forall₂ (fun n n' : Node ↦ Q n.id n'.id) s.nodes db.nodes)
    (hroom : db.given + (build l.nodes).size ≤ bound) (hbound : bound ≤ Database.largestId) :
    Together update update (fun _ p _ q ↦ ∃ P' ≥ P, Stored P' L bound p q)
      (fun p q ↦ Parallel P L p.2 db ∧ p.1 = l ∧ q = (l', db) ∨
        Untouched P Q L l.dropTree l'.dropTree db p q) (l, s) (l', db) := by
  have hplanId : l'.header.planId = l.header.planId := by
    have hheader := congrArg LayoutHeader.planId hl.header
    exact hheader
  refine Together.get ?_
  dsimp only
  rw [hplanId]
  refine Together.second (together_fetchPlan h _ (Or.inl ⟨h.record _, rfl, rfl⟩)) ?_
  rintro plan _ plan' _ ⟨hplan, -, rfl, rfl⟩
  refine Together.first (Together.modify _ _) ?_
  rintro _ _ _ _ ⟨rfl, rfl⟩
  refine together_prepare hQ hzero hplan hl (fun _ _ h₁ ↦ Or.inr ⟨h.record _, rfl, h₁⟩)
    fun l₁ l₁' h₁ ↦ ?_
  have hsame : l₁.header = l.header := h₁.header
  have hmatch : l₁.header.Matches L l₁'.header :=
    ⟨h₁.header ▸ h₁.header' ▸ hids, h₁.layouts.header⟩
  refine Together.get (Together.second ((h.record _).together_updateHeader hmatch
    (hsame ▸ hstored)) ?_)
  rintro _ s₂ _ db₂ ⟨hnodes, hnodes', hgiven, hstored₂, h₂⟩
  have hboth : Forall₂ (fun n n' : Node ↦ 0 < n.id ∧ n.RowMatches P L n' ∧ Q n.id n'.id)
      s₂.nodes db₂.nodes :=
    (forall₂_and_left _ _).mpr ⟨h₂.sound.keyed.pos,
      forall₂_both h₂.nodes (hnodes ▸ hnodes' ▸ hrows)⟩
  refine Together.second (h₂.together_nodes hmatch.id hboth) ?_
  rintro rows _ rows' _ ⟨hfetched, rfl, rfl⟩
  obtain ⟨hpos, hfetched⟩ := (forall₂_and_left _ _).mp hfetched
  refine Together.first (Together.modify _ _) ?_
  rintro _ _ _ _ ⟨rfl, rfl⟩
  have htrees := h₁.layouts.tree hQ hzero
  have hroot : Option.Rel Q (l₁.tree.root?.map Node.id) (l₁'.tree.root?.map Node.id) :=
    optionRel_map (fun _ _ hn ↦ hn.id) htrees.root?
  refine Together.bind (together_deleteStaleRoots (h₂.record _) hQ hroot hfetched hpos) ?_
  rintro live ⟨_, s₃⟩ live' ⟨_, db₃⟩ ⟨hthin, rfl, rfl⟩
  have hroom₃ : db₃.given + l₁.tree.size ≤ bound := by
    have hthinned : db₃.given = db₂.given := hthin.given
    rw [hthinned, hgiven, h₁.relabelled.sameShape.size_eq]
    exact hroom
  have hlive : ∃ header ∈ s₃.headers, header.id = l₁.header.id := by
    have hheaders : s₃.headers = s₂.headers := hthin.headers
    rwa [hheaders]
  exact together_rewrite hQ hzero hthin.stores (h₁.layouts.keepTree hQ hzero)
    (h₁.relabelled.sameShape.rooted (build_rooted _)) (h₁.relabelled.linked (build_linked _))
    hmatch.id hlive hthin.ids hthin.pos hroom₃ hbound

/-! ## Loading -/

theorem together_load {id id' : Int} {refused : Recording → Database → Prop}
    (h : Parallel P L s db) (hids : L id id') (hstored : ∃ header ∈ s.headers, header.id = id) :
    Together (load id) (load id')
      (fun l s₁ l' db₁ ↦ Stored P L db.given (l, s₁) (l', db₁)) refused s db := by
  refine (h.together_header? hids).and_run.bind ?_
  rintro found _ found' _ ⟨⟨hheaders, rfl, rfl⟩, hrun, -⟩
  cases hheaders with
  | none =>
    obtain ⟨header, hmem, hid⟩ := hstored
    have hnone : s.headers.find? (·.id == id) = none := Except.ok.inj (Prod.mk.inj hrun).1
    exact absurd (beq_iff_eq.mpr hid) (List.find?_eq_none.mp hnone header hmem)
  | some hheader =>
    refine ((h.record _).together_nodes hids h.nodes).bind ?_
    rintro nodes _ nodes' _ ⟨hnodes, rfl, rfl⟩
    exact .pure ⟨(h.record _).record _, Int.le_refl _,
      ⟨hheader.rest, hnodes.imp fun _ _ hn ↦ hn.toMatches, .none⟩, hheader.id, build_rooted _⟩

end Layout

end AddressPlan
