import AddressPlan.Proofs.NodeTree.Reconcile
import AddressPlan.Proofs.Store.Parallel
import Mathlib.Order.Basic

/-!
# Writing a tree to both stores

A tree is written to parallel stores place by place.  A parent is written in front of its
children, so that its ids correspond by the time they are needed, and an id that a place keeps
was freed before.  So no insertion is refused, and the stores stay parallel.
-/

namespace AddressPlan.NodeTree

open List Relator Rows Step

variable {P Q L : Int → Int → Prop} {layoutId layoutId' bound : Int} {t₀ : NodeTree}
  {todo : List (Nat × Bool)} {p p' : NodeTree × Recording} {q q' : NodeTree × Database}
  {refused : NodeTree × Recording → NodeTree × Database → Prop}

/-- The places in `todo` are still to be written.  Those that are marked keep their ids, which
are free. -/
structure Pending (P L : Int → Int → Prop) (layoutId layoutId' bound : Int) (t₀ : NodeTree)
    (todo : List (Nat × Bool)) (p : NodeTree × Recording) (q : NodeTree × Database) : Prop where
  stores : Parallel P L p.2 q.2
  layouts : L layoutId layoutId'
  stored : ∃ header ∈ p.2.headers, header.id = layoutId
  trees : p.1.Matches (fun _ _ ↦ True) q.1
  shape : p.1.slots.map Slot.parent = t₀.slots.map Slot.parent
  ids : ∀ i n n', (i, false) ∉ todo → p.1.node? i = some n → q.1.node? i = some n' → P n.id n'.id
  follows : todo.Pairwise fun x y ↦ t₀.MayFollow x.1 y.1
  room : q.2.given + todo.length ≤ bound
  bound_le : bound ≤ Database.largestId
  free : ∀ x ∈ todo, x.2 = true → ∀ n, p.1.node? x.1 = some n →
    0 < n.id ∧ ∀ r ∈ p.2.nodes, r.id ≠ n.id
  distinct : ∀ x ∈ todo, ∀ y ∈ todo, x.2 = true → y.2 = true → ∀ n m,
    p.1.node? x.1 = some n → p.1.node? y.1 = some m → n.id = m.id → x.1 = y.1

namespace Pending

/-- What a place that is written next names as its parent corresponds. -/
theorem parentIdAt {x : Nat × Bool} (h : Pending P L layoutId layoutId' bound t₀ (x :: todo) p q)
    (ht : t₀.Rooted) : P (p.1.parentIdAt x.1) (q.1.parentIdAt x.1) := by
  have hp := parent?_congr h.shape x.1
  have hq := parent?_congr (h.trees.parents_eq) x.1
  cases hparent : t₀.parent? x.1 with
  | none =>
    rw [parentIdAt_of_none (hp.trans hparent), parentIdAt_of_none (hq.trans (hp.trans hparent))]
    exact h.stores.ids.zero
  | some j =>
    rw [parentIdAt_of_some (hp.trans hparent), parentIdAt_of_some (hq.trans (hp.trans hparent))]
    have hlater : (j, false) ∉ x :: todo := fun hj ↦
      ht.not_mem_of_parent? (List.pairwise_map.mpr h.follows) hparent (List.mem_map_of_mem hj)
    have hids := h.ids j
    have hnodes := h.trees.node? j
    generalize p.1.node? j = n at hids hnodes ⊢
    generalize q.1.node? j = n' at hids hnodes ⊢
    cases hnodes with
    | none => exact h.stores.ids.zero
    | some hn => exact hids _ _ hlater rfl rfl

variable {i : Nat} {keepId : Bool} {t t' : NodeTree} {s s₁ : Recording} {db db₁ : Database}
  {n n' row row' : Node} {id id' : Int}

theorem ne_of_mem (h : Pending P L layoutId layoutId' bound t₀ ((i, keepId) :: todo) p q)
    {x : Nat × Bool} (hx : x ∈ todo) : i ≠ x.1 :=
  ((List.pairwise_cons.mp h.follows).1 x hx).1

theorem room_tail {x : Nat × Bool}
    (h : Pending P L layoutId layoutId' bound t₀ (x :: todo) (t, s) (t', db)) :
    db.given + 1 + todo.length ≤ bound := by
  have hroom : db.given + (x :: todo).length ≤ bound := h.room
  rw [List.length_cons] at hroom
  omega

/-- The id of a place that is still to be written and keeps it corresponds already. -/
theorem ids_of_kept (h : Pending P L layoutId layoutId' bound t₀ todo (t, s) (t', db))
    (hi : (i, true) ∈ todo) (hn : t.node? i = some n) (hn' : t'.node? i = some n') :
    P n.id n'.id := by
  refine h.ids i n n' (fun hother ↦ ?_) hn hn'
  have hnodup : (todo.map Prod.fst).Nodup := List.pairwise_map.mpr (h.follows.imp And.left)
  cases List.inj_on_of_nodup_map hnodup hi hother rfl

theorem le_last_of_kept (h : Pending P L layoutId layoutId' bound t₀ todo (t, s) (t', db))
    (hi : (i, true) ∈ todo) (hn : t.node? i = some n) : n.id ≤ s.lastId := by
  have hnodes := h.trees.node? i
  rw [hn] at hnodes
  generalize hn' : t'.node? i = found at hnodes
  cases hnodes with
  | some _ => exact (h.stores.ids.le_last (h.ids_of_kept hi hn hn')).1

theorem free_row (h : Pending P L layoutId layoutId' bound t₀ ((i, keepId) :: todo) (t, s) (t', db))
    (hn : t.node? i = some n) (hid : row.id = if keepId then n.id else 0) :
    row.id = 0 ∨ 0 < row.id ∧ ∀ r ∈ s.nodes, r.id ≠ row.id := by
  cases keepId with
  | false => exact Or.inl hid
  | true =>
    rw [hid]
    exact Or.inr (h.free _ List.mem_cons_self rfl n hn)

/-- The id of the row that is written is none of those that are kept later. -/
theorem newId_ne (h : Pending P L layoutId layoutId' bound t₀ ((i, keepId) :: todo) (t, s) (t', db))
    (hn : t.node? i = some n) (hrowId : row.id = if keepId then n.id else 0)
    (hid : id = row.id ∨ s.lastId < id) {x : Nat × Bool} (hx : x ∈ todo) (hkept : x.2 = true)
    {m : Node} (hm : t.node? x.1 = some m) : id ≠ m.id := by
  have hx' := List.mem_cons_of_mem (i, keepId) hx
  obtain ⟨hpos, -⟩ := h.free x hx' hkept m hm
  rcases hid with hid | hnew
  · cases keepId with
    | false =>
      rw [hid, hrowId]
      exact Int.ne_of_lt hpos
    | true =>
      intro heq
      rw [hid, hrowId] at heq
      exact h.ne_of_mem hx (h.distinct _ List.mem_cons_self x hx' rfl hkept n m hn hm heq)
  · have hmem : (x.1, true) ∈ (i, keepId) :: todo := hkept ▸ hx'
    have hle := h.le_last_of_kept hmem hm
    omega

/-- There is nothing to be written at a place that a tree does not have. -/
theorem skip (h : Pending P L layoutId layoutId' bound t₀ ((i, keepId) :: todo) (t, s) (t', db))
    (hnone : t.node? i = none) : Pending P L layoutId layoutId' bound t₀ todo (t, s) (t', db) :=
  { h with
    ids := fun j n n' hj hn hn' ↦ by
      refine h.ids j n n' (fun hmem ↦ ?_) hn hn'
      rcases List.mem_cons.mp hmem with heq | hmem
      · cases heq
        cases hn.symm.trans hnone
      · exact hj hmem
    follows := (List.pairwise_cons.mp h.follows).2
    room := Int.le_trans (Int.add_le_add_right (Int.le_of_lt (Int.lt_succ _)) _) h.room_tail
    free := fun x hx ↦ h.free x (List.mem_cons_of_mem _ hx)
    distinct := fun x hx y hy ↦
      h.distinct x (List.mem_cons_of_mem _ hx) y (List.mem_cons_of_mem _ hy) }

/-- The rows that are written next match. -/
theorem rowMatches (h : Pending P L layoutId layoutId' bound t₀ ((i, keepId) :: todo)
    (t, s) (t', db)) (ht : t₀.Rooted) (hn : t.node? i = some n) (hn' : t'.node? i = some n')
    (hmatch : n.Matches (fun _ _ ↦ True) n') :
    Node.RowMatches P L
      { n with layoutId, parentId := t.parentIdAt i, modified := false
               id := if keepId then n.id else 0 }
      { n' with layoutId := layoutId', parentId := t'.parentIdAt i, modified := false
                id := if keepId then n'.id else 0 } where
  id := by
    cases keepId with
    | false => exact h.stores.ids.zero
    | true =>
      have hkept : P n.id n'.id := h.ids_of_kept List.mem_cons_self hn hn'
      exact hkept
  parentId := h.parentIdAt ht
  rest := by rw [hmatch.rest]
  layoutId := h.layouts

theorem write (h : Pending P L layoutId layoutId' bound t₀ ((i, keepId) :: todo) (t, s) (t', db))
    (hn : t.node? i = some n) (hrow : row.RowMatches P L row')
    (hrowId : row.id = if keepId then n.id else 0) (hid : id = row.id ∨ s.lastId < id)
    (hrows : s₁.nodes = s.nodes ++ [{ row with id }]) (hheaders : s₁.headers = s.headers)
    (hlast : db₁.given ≤ db.given + 1) {P' : Int → Int → Prop} (hle : P ≤ P')
    (hids : P' id id') (hstores : Parallel P' L s₁ db₁) :
    Pending P' L layoutId layoutId' bound t₀ todo
      ((t.update i fun _ ↦ row).update i fun n ↦ { n with id }, s₁)
      ((t'.update i fun _ ↦ row').update i fun n ↦ { n with id := id' }, db₁) where
  stores := hstores
  layouts := h.layouts
  stored := hheaders ▸ h.stored
  trees := by
    refine (h.trees.update i fun _ _ _ ↦ ⟨trivial, trivial, hrow.rest⟩).update i fun n n' hn ↦
      ⟨trivial, trivial, ?_⟩
    rw [hn.rest]
  shape := by
    rw [parents_update, parents_update]
    exact h.shape
  ids := by
    intro j m m' hj hm hm'
    rw [node?_written] at hm hm'
    by_cases hij : i = j
    · rw [if_pos hij, Option.map_eq_some_iff] at hm hm'
      obtain ⟨-, -, rfl⟩ := hm
      obtain ⟨-, -, rfl⟩ := hm'
      exact hids
    · rw [if_neg hij] at hm hm'
      refine hle _ _ (h.ids j m m' (fun hmem ↦ ?_) hm hm')
      rcases List.mem_cons.mp hmem with heq | hmem
      · exact hij (congrArg Prod.fst heq).symm
      · exact hj hmem
  follows := (List.pairwise_cons.mp h.follows).2
  room := Int.le_trans (Int.add_le_add_right hlast _) h.room_tail
  bound_le := h.bound_le
  free := by
    intro x hx hkept m hm
    rw [node?_written, if_neg (h.ne_of_mem hx)] at hm
    obtain ⟨hpos, hfree⟩ := h.free x (List.mem_cons_of_mem _ hx) hkept m hm
    refine ⟨hpos, fun r hr ↦ ?_⟩
    rw [hrows] at hr
    rcases List.mem_append.mp hr with hr | hr
    · exact hfree r hr
    · obtain rfl := List.mem_singleton.mp hr
      exact h.newId_ne hn hrowId hid hx hkept hm
  distinct := by
    intro x hx y hy hxk hyk m m' hm hm'
    rw [node?_written, if_neg (h.ne_of_mem hx)] at hm
    rw [node?_written, if_neg (h.ne_of_mem hy)] at hm'
    exact h.distinct x (List.mem_cons_of_mem _ hx) y (List.mem_cons_of_mem _ hy) hxk hyk m m' hm hm'

end Pending

/-- The next place is written on both sides. -/
theorem together_insertAt {i : Nat} {keepId : Bool}
    (h : Pending P L layoutId layoutId' bound t₀ ((i, keepId) :: todo) p q) (ht : t₀.Rooted) :
    Together (insertAt layoutId keepId i) (insertAt layoutId' keepId i)
      (fun _ p' _ q' ↦ ∃ P' ≥ P, Pending P' L layoutId layoutId' bound t₀ todo p' q')
      refused p q := by
  obtain ⟨t, s⟩ := p
  obtain ⟨t', db⟩ := q
  have hslots := forall₂_getElem? h.trees i
  refine Together.get ?_
  dsimp only
  generalize hs : t.slots[i]? = slot at hslots ⊢
  generalize hs' : t'.slots[i]? = slot' at hslots ⊢
  cases hslots with
  | none =>
    have hnone : t.node? i = none := by
      rw [node?, hs]
      rfl
    exact .pure ⟨P, le_refl P, h.skip hnone⟩
  | some hmatch =>
    rename_i slot slot'
    have hn : t.node? i = some slot.node := node?_eq_some_iff.mpr ⟨slot, hs, rfl⟩
    have hn' : t'.node? i = some slot'.node := node?_eq_some_iff.mpr ⟨slot', hs', rfl⟩
    have hrow := h.rowMatches ht hn hn' hmatch.node
    have hroom := h.room_tail
    have hbound := h.bound_le
    refine Together.first (Together.modify _ _) ?_
    rintro _ _ _ _ ⟨rfl, rfl⟩
    refine Together.second
      (h.stores.together_insertNode hrow (h.free_row hn rfl) h.stored (by dsimp only; omega)) ?_
    rintro id s₁ id' db₁ ⟨hid, hrows, hheaders, hlast, P', hle, hids, hstores⟩
    exact .carried rfl rfl
      ⟨P', hle, h.write hn hrow rfl hid hrows hheaders hlast hle hids hstores⟩

/-! ## Everything below a place -/

theorem together_replaceAt {keepId : Bool} {top : Nat}
    (h : Pending P L layoutId layoutId' bound t₀ (t₀.marked keepId top ++ todo) p q)
    (ht : t₀.Rooted) :
    Together (replaceAt layoutId keepId top) (replaceAt layoutId' keepId top)
      (fun _ p' _ q' ↦ ∃ P' ≥ P, Pending P' L layoutId layoutId' bound t₀ todo p' q')
      refused p q := by
  have hplaces : p.1.placesBelow top = t₀.placesBelow top := placesBelow_congr h.shape top
  have hplaces' : q.1.placesBelow top = t₀.placesBelow top :=
    placesBelow_congr (h.trees.parents_eq.trans h.shape) top
  refine Together.get ?_
  dsimp only
  rw [hplaces, hplaces']
  refine Together.bind (Together.forM (fun places p' q' ↦ ∃ P' ≥ P, Pending P' L layoutId layoutId'
    bound t₀ (places.map (fun i ↦ (i, keepId && i == top)) ++ todo) p' q')
    (fun i places p' q' ⟨P', hle, hpending⟩ ↦ ?_) (t₀.placesBelow top) ⟨P, le_refl P, h⟩)
    fun _ _ _ _ hdone ↦ .pure hdone
  refine (together_insertAt hpending ht).imp fun _ _ _ _ ⟨P'', hle', hpending'⟩ ↦ ?_
  exact ⟨P'', le_trans hle hle', hpending'⟩

theorem together_persistAll {s : Recording} {db : Database} {t t' : NodeTree}
    (h : Parallel P L s db) (hlayouts : L layoutId layoutId')
    (hstored : ∃ header ∈ s.headers, header.id = layoutId) (htrees : t.Matches Q t')
    (ht : t.Rooted) (hroom : db.given + t.size ≤ bound) (hbound : bound ≤ Database.largestId) :
    Together (persistAll layoutId) (persistAll layoutId')
      (fun _ p _ q ↦ ∃ P' ≥ P, Pending P' L layoutId layoutId' bound t [] p q) refused
      (t, s) (t', db) := by
  have hsize : (t.placesBelow 0).length = t.size := by
    rw [ht.placesBelow_zero, List.length_range]
  have hstart : Pending P L layoutId layoutId' bound t (t.marked false 0) (t, s) (t', db) := {
    stores := h
    layouts := hlayouts
    stored := hstored
    trees := htrees.mono fun _ _ _ ↦ trivial
    shape := rfl
    ids := fun i n n' hi hn _ ↦ by
      have hplace := ht.mem_placesBelow_zero.mpr (lt_size_iff.mpr ⟨n, hn⟩)
      exact absurd (List.mem_map.mpr ⟨i, hplace, rfl⟩) hi
    follows := List.pairwise_map.mpr (ht.mayFollow_placesBelow 0)
    room := by rwa [marked, List.length_map, hsize]
    bound_le := hbound
    free := fun x hx hkept ↦ by
      obtain ⟨i, -, rfl⟩ := List.mem_map.mp hx
      cases hkept
    distinct := fun x hx _ _ hkept ↦ by
      obtain ⟨i, -, rfl⟩ := List.mem_map.mp hx
      cases hkept }
  refine Together.get ?_
  dsimp only
  have hempty : t'.isEmpty = t.isEmpty := htrees.isEmpty_eq
  rw [hempty]
  split
  · rename_i hnil
    have hzero : t.marked false 0 = [] := by
      rw [marked, ht.placesBelow_zero, size, List.isEmpty_iff.mp hnil]
      rfl
    exact .pure ⟨P, le_refl P, hzero ▸ hstart⟩
  · rw [← List.append_nil (t.marked false 0)] at hstart
    exact together_replaceAt hstart ht

end AddressPlan.NodeTree
