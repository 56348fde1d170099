import AddressPlan.Proofs.NodeTree.Build
import AddressPlan.Proofs.NodeTree.Reconcile
import AddressPlan.Proofs.NodeTree.WrittenTwice
import Mathlib.Data.List.Perm.Subperm

/-!
# Reconciling a tree with both stores

The ids of the tree correspond in one way and those of the rows in another.  Both agree on
the ids that are stored, so the first pass deletes the same rows from both stores.  It leaves
no row under an id that the second pass keeps.
-/

namespace AddressPlan

open List Relator Rows Step

variable {P Q L : Int → Int → Prop} {s : Recording} {db : Database}

/-! ## Deletions -/

/-- Rows were deleted from `s` and `db`.  The ids that are left correspond in both ways. -/
structure Thinned (P Q L : Int → Int → Prop) (s : Recording) (db : Database)
    (live live' : List Int) (s₁ : Recording) (db₁ : Database) : Prop where
  stores : Parallel P L s₁ db₁
  ids : Forall₂ (fun a a' ↦ P a a' ∧ Q a a') live live'
  pos : ∀ id ∈ live, 0 < id
  headers : s₁.headers = s.headers
  given : db₁.given = db.given

section Thinned

variable {τ τ' : Type} {p : τ × Recording} {q : τ' × Database} {live live' : List Int}
  {refused : τ × Recording → τ' × Database → Prop}

theorem Thinned.together_delete (h : Thinned P Q L s db live live' p.2 q.2) {d d' : Int}
    (hd : P d d') :
    Together
      (do let removed ← Step.second (Store.deleteSubtree d)
          return live.filter (!removed.contains ·))
      (do let removed ← Step.second (Store.deleteSubtree d')
          return live'.filter (!removed.contains ·))
      (fun left p' left' q' ↦ Thinned P Q L s db left left' p'.2 q'.2 ∧ p'.1 = p.1 ∧ q'.1 = q.1)
      refused p q := by
  refine Together.second (h.stores.together_deleteSubtree hd) ?_
  rintro removed s₁ removed' db₁ ⟨hremoved, hheaders, hlast, hstores⟩
  have hleft : Forall₂ (fun a a' ↦ P a a' ∧ Q a a') (live.filter (!removed.contains ·))
      (live'.filter (!removed'.contains ·)) :=
    forall₂_filter (fun a a' ha ↦ congrArg not (hremoved a a' ha.1)) h.ids
  exact .pure ⟨⟨hstores, hleft, fun id hid ↦ h.pos id (List.mem_of_mem_filter hid),
    hheaders.trans h.headers, hlast.trans h.given⟩, rfl, rfl⟩

end Thinned

namespace NodeTree

/-- An id that is stored and stands for another one in the tree does so among the rows. -/
theorem pairs_of_mem (hQ : BiUnique Q) {stored stored' : List Int}
    (h : Forall₂ (fun a a' ↦ P a a' ∧ Q a a') stored stored') {id id' : Int} (hid : Q id id')
    (hmem : id ∈ stored) : P id id' := by
  obtain ⟨a', -, hP, hQ'⟩ := exists_right_of_forall₂ h hmem
  exact hQ.2 hQ' hid ▸ hP

variable {stored stored' : List Int} {tops tops' : List Placed} {p : NodeTree × Recording}
  {q : NodeTree × Database} {refused : NodeTree × Recording → NodeTree × Database → Prop}

theorem together_deleteStored (h : Parallel P L p.2 q.2) (hQ : BiUnique Q)
    (hstored : Forall₂ (fun a a' ↦ P a a' ∧ Q a a') stored stored') (hpos : ∀ id ∈ stored, 0 < id)
    (htops : Forall₂ (Placed.Matches Q) tops tops') :
    Together (deleteStored stored tops) (deleteStored stored' tops')
      (fun live p' live' q' ↦ Thinned P Q L p.2 q.2 live live' p'.2 q'.2 ∧ p'.1 = p.1 ∧
        q'.1 = q.1) refused p q := by
  refine Together.foldlM
    (fun _ live (p' : NodeTree × Recording) live' (q' : NodeTree × Database) ↦
      Thinned P Q L p.2 q.2 live live' p'.2 q'.2 ∧ p'.1 = p.1 ∧ q'.1 = q.1)
    ?_ htops ⟨⟨h, hstored, hpos, rfl, rfl⟩, rfl, rfl⟩
  rintro a _ b live p₁ live' q₁ hab ⟨hthin, hp, hq⟩
  rw [contains_eq_of_pairs hQ (hstored.imp fun _ _ ↦ And.right) hab.node.id]
  split
  · rename_i hmem
    have hd := pairs_of_mem hQ hstored hab.node.id (contains_iff_mem.mp hmem)
    exact (hthin.together_delete hd).imp fun _ _ _ _ ⟨hleft, hp', hq'⟩ ↦
      ⟨hleft, hp'.trans hp, hq'.trans hq⟩
  · exact .pure ⟨hthin, hp, hq⟩

/-! ## The second pass -/

variable {t : NodeTree} {live : List Int}

/-- A place that is not written under a new id has an id that is stored. -/
theorem Rooted.mem_stored_of_not_new (ht : t.Rooted) (hsub : live ⊆ stored) {i : Nat} {n : Node}
    (hi : (i, false) ∉ t.markedBelow stored (t.dirtyTops live)) (hn : t.node? i = some n) :
    n.id ∈ stored := by
  by_contra hmem
  have hdirty : t.Dirty live i := ⟨n, hn, Or.inr fun hlive ↦ hmem (hsub hlive)⟩
  obtain ⟨j, hunder, htop⟩ := ht.exists_topmostDirty hdirty
  obtain ⟨m, hm⟩ := lt_size_iff.mp htop.dirty.lt_size
  have htops : ⟨j, m⟩ ∈ t.dirtyTops live := ht.mem_dirtyTops.mpr ⟨hm, htop⟩
  refine hi (List.mem_flatMap.mpr ⟨_, htops, (mem_marked ht).mpr ⟨hdirty.lt_size, hunder, ?_⟩⟩)
  rw [eq_comm, Bool.and_eq_false_iff, List.contains_eq_mem, decide_eq_false_iff_not,
    beq_eq_false_iff_ne]
  by_cases hij : i = j
  · subst hij
    cases hn.symm.trans hm
    exact Or.inl hmem
  · exact Or.inr hij

theorem Rooted.length_markedBelow_le (ht : t.Rooted) (hapart : t.Apart (tops.map Placed.place)) :
    (t.markedBelow stored tops).length ≤ t.size := by
  have hnodup : ((t.markedBelow stored tops).map Prod.fst).Nodup :=
    List.pairwise_map.mpr ((ht.follows_markedBelow hapart).imp And.left)
  have hsub : (t.markedBelow stored tops).map Prod.fst ⊆ List.range t.size := by
    intro i hi
    obtain ⟨x, hx, rfl⟩ := List.mem_map.mp hi
    exact List.mem_range.mpr (ht.lt_size_of_marked hx)
  have hle := (hnodup.subperm hsub).length_le
  rwa [List.length_map, List.length_range] at hle

/-- What the second pass starts from. -/
theorem pending_of_deleted {t' : NodeTree} {s₁ : Recording} {db₁ : Database} {gone : List Int}
    {layoutId layoutId' bound : Int} (hQ : BiUnique Q) (h : Parallel P L s₁ db₁)
    (hlayouts : L layoutId layoutId')
    (hheader : ∃ header ∈ s₁.headers, header.id = layoutId)
    (hstored : Forall₂ (fun a a' ↦ P a a' ∧ Q a a') stored stored') (hpos : ∀ id ∈ stored, 0 < id)
    (htrees : t.Matches Q t') (ht : t.Rooted) (hlinked : t.Linked)
    (hroom : db₁.given + t.size ≤ bound) (hbound : bound ≤ Database.largestId) {rows : List Node}
    (hrows : s₁.nodes = outside rows gone) (hgone : AreBelow rows (t.doomedTops stored) gone) :
    Pending P L layoutId layoutId' bound t
      (t.markedBelow stored (t.dirtyTops (stored.filter (!gone.contains ·))))
      (t, s₁) (t', db₁) where
  stores := h
  layouts := hlayouts
  stored := hheader
  trees := htrees.mono fun _ _ _ ↦ trivial
  shape := rfl
  ids := fun i n n' hi hn hn' ↦ by
    have hmem := ht.mem_stored_of_not_new List.filter_sublist.subset hi hn
    have hnodes := htrees.node? i
    rw [show t.node? i = some n from hn, show t'.node? i = some n' from hn'] at hnodes
    cases hnodes with
    | some hmatch => exact pairs_of_mem hQ hstored hmatch.id hmem
  follows := ht.follows_markedBelow (ht.apart_dirtyTops _)
  room := by
    have hle : (t.markedBelow stored (t.dirtyTops (stored.filter (!gone.contains ·)))).length ≤
        t.size := ht.length_markedBelow_le (ht.apart_dirtyTops _)
    dsimp only
    omega
  bound_le := hbound
  free := fun x hx hkept n hn ↦ by
    obtain ⟨p, hp, hplace, hmem⟩ := ht.exists_top_of_marked hx hkept
    obtain rfl : p.node = n := by
      have hholds : t.node? p.place = some p.node := (ht.mem_dirtyTops.mp hp).1
      exact Option.some.inj (hholds.symm.trans (hplace ▸ hn))
    exact ⟨hpos _ hmem, hrows ▸ ht.free_of_top hgone hp hmem⟩
  distinct := fun _ _ _ _ _ _ _ _ hn hm hid ↦ hlinked.place_eq hn hm hid

theorem together_reconcile {t' : NodeTree} {layoutId layoutId' bound : Int} (hQ : BiUnique Q)
    (h : Parallel P L s db) (hlayouts : L layoutId layoutId')
    (hheader : ∃ header ∈ s.headers, header.id = layoutId)
    (hstored : Forall₂ (fun a a' ↦ P a a' ∧ Q a a') stored stored') (hpos : ∀ id ∈ stored, 0 < id)
    (htrees : t.Matches Q t') (ht : t.Rooted) (hlinked : t.Linked)
    (hroom : db.given + t.size ≤ bound) (hbound : bound ≤ Database.largestId) :
    Together (reconcile layoutId stored) (reconcile layoutId' stored')
      (fun _ p _ q ↦ ∃ P' ≥ P, Pending P' L layoutId layoutId' bound t [] p q) refused
      (t, s) (t', db) := by
  have hstoredQ : Forall₂ Q stored stored' := hstored.imp fun _ _ ↦ And.right
  refine Together.get (Together.bind (together_deleteStored h hQ hstored hpos
    (dirtyTops_matches hQ hstoredQ htrees)).and_run ?_)
  rintro live ⟨t₁, s₁⟩ live' ⟨t₁', db₁⟩ ⟨⟨hthin, htree, htree'⟩, hrun, -⟩
  obtain rfl : t = t₁ := htree.symm
  obtain rfl : t' = t₁' := htree'.symm
  obtain ⟨-, -, gone, hrows, rfl, hgone⟩ := run_deleteStored (p := (t, s)) h.sound hrun
  have hlast : db₁.given = db.given := hthin.given
  have hheaders : s₁.headers = s.headers := hthin.headers
  have hlive : Forall₂ Q (stored.filter (!gone.contains ·)) live' :=
    hthin.ids.imp fun _ _ ↦ And.right
  have hstart := pending_of_deleted hQ hthin.stores hlayouts (hheaders ▸ hheader) hstored hpos
    htrees ht hlinked (hlast ▸ hroom) hbound hrows hgone
  refine Together.foldlM
    (fun tops _ (p' : NodeTree × Recording) _ (q' : NodeTree × Database) ↦ ∃ P' ≥ P,
      Pending P' L layoutId layoutId' bound t (t.markedBelow stored tops) p' q')
    ?_ (dirtyTops_matches hQ hlive htrees) ⟨P, le_refl P, hstart⟩
  rintro p tops p' _ p₁ _ q₁ hp ⟨P', hle, hpending⟩
  rw [hp.place, contains_eq_of_pairs hQ hstoredQ hp.node.id]
  refine (together_replaceAt hpending ht).bind fun _ _ _ _ ⟨P'', hle', hpending'⟩ ↦ ?_
  exact .pure ⟨P'', le_trans hle hle', hpending'⟩

end NodeTree

end AddressPlan
