import AddressPlan.Proofs.Layout.OnBothStores
import Mathlib.Data.Set.Function

/-!
# Clients of the two stores

A client holds layouts and asks for one change after the other.  A client of the recording store
and one of the relational store that ask for the same, under ids that correspond, are told the
same, and their stores hold the same rows but for the ids.
-/

namespace AddressPlan

open List Relator Rows Step NodeTree

structure Held where
  layout : Layout
  /-- The nodes came with a request and were not stored since. -/
  asked : Bool
  deriving DecidableEq, Repr

structure Client (σ : Type) where
  store : σ
  held : List Held := []

/-- Layouts that are held are named by their places. -/
inductive Move where
  | new (planId : Int) (r : LayoutRequest)
  | load (id : Int)
  | apply (k : Nat) (r : LayoutRequest)
  | save (k : Nat)
  | update (k : Nat)
  | delete (k : Nat)

/-- How a client changes a store: in transactions if the store has them. -/
class Attempts (σ : Type) extends Store σ where
  attempt {τ α : Type} (m : Step (τ × σ) α) : Step (τ × σ) α

instance : Attempts Recording where
  attempt m := m

instance : Attempts Database where
  attempt := Step.transaction

namespace Client

section Moves

variable {σ : Type} [Attempts σ]

def hold (h : Held) : Step (Client σ) Unit :=
  Step.modify fun c ↦ { c with held := c.held ++ [h] }

def onStore {α : Type} (m : Step σ α) : Step (Client σ) α := fun c ↦
  let (r, _, store) := Attempts.attempt (Step.second m) ((), c.store)
  (r, { c with store })

/-- Stores a layout.  If that is carried out its nodes are what is stored. -/
def write (k : Nat) (m : Step (Layout × σ) Unit) : Step (Client σ) Unit := fun c ↦
  match c.held[k]? with
  | none => (.ok (), c)
  | some h =>
    let (r, layout, store) := Attempts.attempt m (h.layout, c.store)
    (r, { store, held := c.held.set k ⟨layout, h.asked && !r.isOk⟩ })

def act : Move → Step (Client σ) Unit
  | .new planId r => hold ⟨.ofRequest planId r, true⟩
  | .load id => do
    let layout ← onStore (Layout.load id)
    hold ⟨layout, false⟩
  | .apply k r => Step.modify fun c ↦
    { c with held := c.held.modify k fun h ↦ ⟨h.layout.apply r, true⟩ }
  | .save k => write k Layout.save
  | .update k => write k Layout.update
  | .delete k => do
    let c ← Step.get
    match c.held[k]? with
    | none => return
    | some h => onStore (Layout.delete h.layout)

end Moves

/-! ## Moves that correspond -/

/-- The nodes are the same but for their ids, which are renamed.  Their layouts may be any. -/
def Renamed (ρ : Int → Int) : List Node → List Node → Prop :=
  Forall₂ (Node.Matches fun a a' ↦ a' = ρ a)

instance (ρ : Int → Int) (ns ns' : List Node) : Decidable (Renamed ρ ns ns') :=
  inferInstanceAs (Decidable (Forall₂ _ ns ns'))

/-- The requests are the same but for the ids of the nodes, which correspond one to one. -/
def SameRequest (r r' : LayoutRequest) : Prop :=
  r' = { r with nodes := r'.nodes } ∧
    ∃ ρ : Int → Int, Function.Injective ρ ∧ ρ 0 = 0 ∧ Renamed ρ r.nodes r'.nodes

theorem SameRequest.refl (r : LayoutRequest) : SameRequest r r :=
  ⟨rfl, id, Function.injective_id, rfl, forall₂_same.mpr fun _ _ ↦ ⟨rfl, rfl, rfl⟩⟩

variable (c : Client Recording) (d : Client Database)

/-- The layout at this place is stored. -/
def StoredAt (k : Nat) : Prop :=
  ∀ h ∈ c.held[k]?, ∃ header ∈ c.store.headers, header.id = h.layout.header.id

/-- Nodes that were asked for are named by the ids of the same rows in both stores.  Other ids
correspond to ids that are not stored. -/
def AskedAlike (k : Nat) : Prop :=
  ∃ ρ : Int → Int, Function.Injective ρ ∧ ρ 0 = 0 ∧
    ∀ h ∈ c.held[k]?, ∀ h' ∈ d.held[k]?, h.asked = true →
      Renamed ρ h.layout.nodes h'.layout.nodes ∧
        d.store.nodes.map Node.id = (c.store.nodes.map Node.id).map ρ

/-- The clients ask for the same, and only stored layouts are loaded, updated and deleted. -/
inductive Corresponds : Move → Move → Prop where
  | new (planId : Int) {r r' : LayoutRequest} (h : SameRequest r r') :
    Corresponds (.new planId r) (.new planId r')
  | load {f : Int → Int} {id : Int}
    (hf : d.store.headers.map LayoutHeader.id = (c.store.headers.map LayoutHeader.id).map f)
    (hid : id ∈ c.store.headers.map LayoutHeader.id) : Corresponds (.load id) (.load (f id))
  | apply (k : Nat) {r r' : LayoutRequest} (h : SameRequest r r') :
    Corresponds (.apply k r) (.apply k r')
  | save (k : Nat) : Corresponds (.save k) (.save k)
  | update {k : Nat} (hstored : c.StoredAt k) (hids : c.AskedAlike d k) :
    Corresponds (.update k) (.update k)
  | delete {k : Nat} (hstored : c.StoredAt k) : Corresponds (.delete k) (.delete k)

/-- How many ids the move may take. -/
def demand : Move → Nat
  | .save k => c.held[k]?.elim 0 fun h ↦ 1 + h.layout.tree.size
  | .update k => c.held[k]?.elim 0 fun h ↦ (build h.layout.nodes).size
  | _ => 0

instance (k : Nat) : Decidable (c.StoredAt k) :=
  inferInstanceAs (Decidable (∀ h ∈ c.held[k]?, ∃ header ∈ c.store.headers, _))

/-- Both clients began with the same plans and no layouts, and made moves that correspond and
may have taken so many ids in all. -/
inductive SideBySide (plans : List Plan) (lastPlan : Int) :
    Nat → Client Recording → Client Database → Prop where
  | start : SideBySide plans lastPlan 0 ⟨{ plans }, []⟩ ⟨{ plans, lastPlan }, []⟩
  | step {taken : Nat} {c : Client Recording} {d : Client Database} {a a' : Move}
    (h : SideBySide plans lastPlan taken c d) (hmoves : Corresponds c d a a') :
    SideBySide plans lastPlan (taken + c.demand a) ((act a).run c).2 ((act a').run d).2

/-- The stores hold the same headers and rows but for the ids.  Those of nodes were given in the
same order. -/
def SameRows (s : Recording) (db : Database) : Prop :=
  ∃ f g : Int → Int,
    Set.BijOn f {id | ∃ header ∈ s.headers, header.id = id}
      {id | ∃ header ∈ db.headers, header.id = id} ∧
    Set.BijOn g {id | ∃ n ∈ s.nodes, n.id = id} {id | ∃ n ∈ db.nodes, n.id = id} ∧
    (∀ n ∈ s.nodes, ∀ m ∈ s.nodes, n.id < m.id → g n.id < g m.id) ∧ g 0 = 0 ∧
    db.headers = s.headers.map (fun header ↦ { header with id := f header.id }) ∧
    db.nodes = s.nodes.map fun n ↦
      { n with id := g n.id, parentId := g n.parentId, layoutId := f n.layoutId }

/-! ## What both clients hold -/

/-- The layouts match.  The ids of nodes that were asked for correspond somehow, and those of
nodes that were stored as they do in the stores. -/
structure HeldAlike (P L : Int → Int → Prop) (h h' : Held) : Prop where
  asked : h'.asked = h.asked
  ids : L h.layout.header.id h'.layout.header.id
  rooted : h.layout.tree.Rooted
  matching : ∃ Q, BiUnique Q ∧ Q 0 0 ∧ h.layout.Matches Q h'.layout ∧ (h.asked = false → Q ≤ P)

/-- What is stored and held is alike, and no more than `bound` ids were given. -/
structure Alike (P L : Int → Int → Prop) (bound : Int) (c : Client Recording)
    (d : Client Database) : Prop where
  stores : Parallel P L c.store d.store
  given_le : d.store.given ≤ bound
  held : Forall₂ (HeldAlike P L) c.held d.held

variable {P Q L : Int → Int → Prop} {bound : Int} {c : Client Recording} {d : Client Database}
  {h h' : Held}

theorem HeldAlike.mono {P' L' : Int → Int → Prop} (hh : HeldAlike P L h h') (hP : P ≤ P')
    (hL : L ≤ L') : HeldAlike P' L' h h' where
  asked := hh.asked
  ids := hL _ _ hh.ids
  rooted := hh.rooted
  matching := by
    obtain ⟨Q, hQ, hzero, hl, hle⟩ := hh.matching
    exact ⟨Q, hQ, hzero, hl, fun hasked ↦ le_trans (hle hasked) hP⟩

theorem biUnique_of_injective {ρ : Int → Int} (hρ : Function.Injective ρ) :
    BiUnique fun a a' ↦ a' = ρ a :=
  ⟨fun _ _ _ ha hb ↦ hρ (ha.symm.trans hb), fun _ _ _ hb hc ↦ hb.trans hc.symm⟩

theorem heldAlike_of_request {r r' : LayoutRequest} (hr : SameRequest r r')
    {header header' : LayoutHeader} (hids : L header.id header'.id)
    (hheader : header' = { header with id := header'.id }) :
    HeldAlike P L ⟨{ header, nodes := r.nodes }, true⟩
      ⟨{ header := header', nodes := r'.nodes }, true⟩ := by
  obtain ⟨-, ρ, hρ, hzero, hnodes⟩ := hr
  exact ⟨rfl, hids, build_rooted _, _, biUnique_of_injective hρ, hzero.symm,
    ⟨hheader, hnodes, .none⟩, fun hasked ↦ by cases hasked⟩

theorem heldAlike_of_stored {asked : Bool} {p : Layout × Recording} {q : Layout × Database}
    (hp : Layout.Stored P L bound p q) : HeldAlike P L ⟨p.1, asked⟩ ⟨q.1, asked⟩ :=
  ⟨rfl, hp.ids, hp.rooted, P, hp.stores.ids.biUnique, hp.stores.ids.zero, hp.layouts,
    fun _ ↦ le_refl P⟩

/-- What a refused move leaves is held as before. -/
theorem HeldAlike.of_untouched (hh : HeldAlike P L h h') {l l' : Layout} {db : Database}
    {p : Layout × Recording} {q : Layout × Database} (hp : Layout.Untouched P Q L l l' db p q)
    (hl : l.header = h.layout.header) (hl' : l'.header = h'.layout.header) (ht : l.tree.Rooted)
    (hQ : BiUnique Q) (hzero : Q 0 0) (hle : h.asked = false → Q ≤ P) :
    HeldAlike P L ⟨p.1, h.asked⟩ ⟨q.1, h'.asked⟩ where
  asked := hh.asked
  ids := by
    rw [hp.layouts.header, hp.layouts.header', hl, hl']
    exact hh.ids
  rooted := hp.layouts.relabelled.sameShape.rooted ht
  matching := ⟨Q, hQ, hzero, hp.layouts.layouts, hle⟩

/-! ## Moves side by side -/

/-- Both are told the same, and what they hold and what is stored is alike again. -/
def GoAlike (bound : Int) (m : Step (Client Recording) Unit)
    (m' : Step (Client Database) Unit) (c : Client Recording) (d : Client Database) : Prop :=
  Together m m' (fun _ c' _ d' ↦ ∃ P L, Alike P L bound c' d')
    (fun c' d' ↦ ∃ P L, Alike P L bound c' d') c d

theorem together_onStore {α β γ δ : Type} {m : Step Recording α} {m' : Step Database β}
    {f : α → Step (Client Recording) γ} {g : β → Step (Client Database) δ}
    {done : α → Recording → β → Database → Prop}
    {post : γ → Client Recording → δ → Client Database → Prop}
    {refused : Client Recording → Client Database → Prop}
    (h : Together m m' done (fun s db ↦ refused ⟨s, c.held⟩ ⟨db, d.held⟩ ∧ db = d.store)
      c.store d.store)
    (hfg : ∀ a s b db, done a s b db → Together (f a) (g b) post refused
      ⟨s, c.held⟩ ⟨db, d.held⟩) :
    Together (onStore m >>= f) (onStore m' >>= g) post refused c d := by
  have hrun : (onStore m).run c = ((m.run c.store).1, ⟨(m.run c.store).2, c.held⟩) := rfl
  have hrun' : ∀ {r db}, (Step.second m').transaction.run ((), d.store) = (r, ((), db)) →
      (onStore m').run d = (r, ⟨db, d.held⟩) := by
    intro r db heq
    change (let (r, _, store) := (Step.second m').transaction.run ((), d.store)
      (r, { d with store })) = _
    rw [heq]
  cases h with
  | @carried a b s db h h' hdone =>
    rw [h] at hrun
    have hsecond : (Step.second m').run ((), d.store) = (.ok b, ((), db)) :=
      run_second_eq_ok_iff.mpr ⟨h', rfl⟩
    exact (hfg a s b db hdone).after hrun (hrun' (run_transaction_ok hsecond))
  | @refused e s db h h' hrefused =>
    obtain ⟨hrefused, rfl⟩ := hrefused
    rw [h] at hrun
    have hsecond : (Step.second m').run ((), d.store) = (.error e, ((), d.store)) := by
      rw [run_second, h']
    exact .refused (run_bind_error hrun)
      (run_bind_error (hrun' (run_transaction_error hsecond))) hrefused

theorem goAlike_hold (hc : Alike P L bound c d) (hh : HeldAlike P L h h') :
    GoAlike bound (hold h) (hold h') c d :=
  .carried rfl rfl ⟨P, L, hc.stores, hc.given_le, rel_append hc.held (.cons hh .nil)⟩

theorem run_write {σ : Type} [Attempts σ] {c : Client σ} {k : Nat} {m : Step (Layout × σ) Unit}
    {r : Except PlanError Unit} {l : Layout} {s : σ} (hk : c.held[k]? = some h)
    (hrun : (Attempts.attempt m).run (h.layout, c.store) = (r, (l, s))) :
    (write k m).run c = (r, ⟨s, c.held.set k ⟨l, h.asked && !r.isOk⟩⟩) := by
  change write k m c = _
  have hattempt : Attempts.attempt m (h.layout, c.store) = (r, (l, s)) := hrun
  simp only [write, hk, hattempt]

theorem run_write_none {σ : Type} [Attempts σ] {c : Client σ} {k : Nat}
    {m : Step (Layout × σ) Unit} (hk : c.held[k]? = none) :
    (write k m).run c = (.ok (), c) := by
  change write k m c = _
  simp only [write, hk]

/-- What is refused has left the relational store alone, so that nothing has to be undone. -/
theorem goAlike_write {k : Nat} {m : Step (Layout × Recording) Unit}
    {m' : Step (Layout × Database) Unit} {later : Int} (hc : Alike P L bound c d)
    (hlater : bound ≤ later)
    (hm : ∀ h h', c.held[k]? = some h → d.held[k]? = some h' → HeldAlike P L h h' →
      Together m m' (fun _ p _ q ↦ ∃ P' ≥ P, ∃ L' ≥ L, Layout.Stored P' L' later p q)
        (fun p q ↦ Parallel P L p.2 q.2 ∧ q.2 = d.store ∧
          HeldAlike P L ⟨p.1, h.asked⟩ ⟨q.1, h'.asked⟩)
        (h.layout, c.store) (h'.layout, d.store)) :
    GoAlike later (write k m) (write k m') c d := by
  have hgiven : d.store.given ≤ later := Int.le_trans hc.given_le hlater
  have hheld := forall₂_getElem? hc.held k
  generalize hk : c.held[k]? = found at hheld
  generalize hk' : d.held[k]? = found' at hheld
  cases hheld with
  | none =>
    exact .carried (run_write_none hk) (run_write_none hk') ⟨P, L, { hc with given_le := hgiven }⟩
  | some hh =>
    cases (hm _ _ hk hk' hh).transaction fun _ _ hrefused ↦ hrefused.2.1 with
    | carried h h' hdone =>
      obtain ⟨P', hP, L', hL, hdone⟩ := hdone
      refine .carried (run_write hk h) (run_write hk' h')
        ⟨P', L', hdone.stores, hdone.given_le, ?_⟩
      have hheld := hc.held.imp fun _ _ hh ↦ hh.mono hP hL
      exact forall₂_set hheld (hh.asked ▸ heldAlike_of_stored hdone) k
    | refused h h' hrefused =>
      obtain ⟨hstores, hback, hheld⟩ := hrefused
      refine .refused (run_write hk h) (run_write hk' h') ⟨P, L, hstores, hback ▸ hgiven, ?_⟩
      exact forall₂_set hc.held (by simpa [Except.isOk, Except.toBool] using hheld) k

theorem goAlike_load {f : Int → Int} {id : Int} (hc : Alike P L bound c d)
    (hf : d.store.headers.map LayoutHeader.id = (c.store.headers.map LayoutHeader.id).map f)
    (hid : id ∈ c.store.headers.map LayoutHeader.id) :
    GoAlike bound (act (.load id)) (act (.load (f id))) c d := by
  have hpairs : Forall₂ L (c.store.headers.map LayoutHeader.id)
      ((c.store.headers.map LayoutHeader.id).map f) :=
    hf ▸ rel_map (fun _ _ hh ↦ hh.id) hc.stores.headers
  have hids : L id (f id) := forall₂_same.mp (forall₂_map_right_iff.mp hpairs) id hid
  refine together_onStore (Layout.together_load hc.stores hids (List.mem_map.mp hid)) ?_
  intro l s l' db hdone
  have hheld : HeldAlike P L ⟨l, false⟩ ⟨l', false⟩ := heldAlike_of_stored hdone
  exact goAlike_hold ⟨hdone.stores, Int.le_trans hdone.given_le hc.given_le, hc.held⟩ hheld

theorem goAlike_apply (k : Nat) {r r' : LayoutRequest} (hc : Alike P L bound c d)
    (hr : SameRequest r r') : GoAlike bound (act (.apply k r)) (act (.apply k r')) c d := by
  refine .carried rfl rfl ⟨P, L, hc.stores, hc.given_le,
    forall₂_modify (fun h h' hh ↦ ?_) hc.held k⟩
  obtain ⟨Q, hQ, hzero, hl, -⟩ := hh.matching
  refine heldAlike_of_request hr hh.ids ?_
  rw [hr.1, hl.header]

theorem goAlike_save {k : Nat} (hc : Alike P L bound c d)
    (hroom : bound + c.demand (.save k) ≤ Database.largestId) :
    GoAlike (bound + c.demand (.save k)) (write k Layout.save) (write k Layout.save) c d := by
  refine goAlike_write hc (by omega) fun h h' hk _ hh ↦ ?_
  obtain ⟨Q, hQ, hzero, hl, hle⟩ := hh.matching
  have hgiven := hc.given_le
  have hdemand : c.demand (.save k) = 1 + h.layout.tree.size := by rw [demand, hk, Option.elim]
  refine (Layout.together_save hQ hzero hc.stores hl hh.rooted (by omega) hroom).imp_refused
    fun p q hp ↦ ?_
  exact ⟨hp.database ▸ hp.stores, hp.database, hh.of_untouched hp rfl rfl hh.rooted hQ hzero hle⟩

/-- The ids that an update goes by. -/
theorem HeldAlike.exists_ids {k : Nat} (hc : Alike P L bound c d) (hh : HeldAlike P L h h')
    (hk : c.held[k]? = some h) (hk' : d.held[k]? = some h') (hids : c.AskedAlike d k) :
    ∃ Q, BiUnique Q ∧ Q 0 0 ∧ h.layout.dropTree.Matches Q h'.layout.dropTree ∧
      Forall₂ (fun n n' : Node ↦ Q n.id n'.id) c.store.nodes d.store.nodes ∧
      (h.asked = false → Q ≤ P) := by
  obtain ⟨Q, -, -, hl, hle⟩ := hh.matching
  cases hasked : h.asked with
  | false =>
    have hstored := hl.mono (hle hasked)
    exact ⟨P, hc.stores.ids.biUnique, hc.stores.ids.zero, { hstored with kept := .none },
      hc.stores.nodes.imp fun _ _ hn ↦ hn.id, fun _ ↦ le_refl P⟩
  | true =>
    obtain ⟨ρ, hρ, hzero, hrenamed⟩ := hids
    obtain ⟨hnodes, hrows⟩ := hrenamed h hk h' hk' hasked
    have hsame : Forall₂ (fun n n' : Node ↦ n'.id = ρ n.id) c.store.nodes d.store.nodes :=
      forall₂_map_right_iff.mp (forall₂_map_left_iff.mp (forall₂_iff_eq_map.mpr hrows))
    exact ⟨_, biUnique_of_injective hρ, hzero.symm, ⟨hl.header, hnodes, .none⟩, hsame,
      fun hfalse ↦ by cases hfalse⟩

theorem goAlike_update {k : Nat} (hc : Alike P L bound c d) (hstored : c.StoredAt k)
    (hids : c.AskedAlike d k) (hroom : bound + c.demand (.update k) ≤ Database.largestId) :
    GoAlike (bound + c.demand (.update k)) (write k Layout.update) (write k Layout.update) c d := by
  refine goAlike_write hc (by omega) fun h h' hk hk' hh ↦ ?_
  obtain ⟨Q, hQ, hzero, hl, hrows, hle⟩ := hh.exists_ids hc hk hk' hids
  have hgiven := hc.given_le
  have hdemand : c.demand (.update k) = (build h.layout.nodes).size := by
    rw [demand, hk, Option.elim]
  refine ((Layout.together_update hQ hzero hc.stores hl hh.ids (hstored h hk) hrows
    (by omega) hroom).imp ?_).imp_refused ?_
  · exact fun _ _ _ _ ⟨P', hle, hdone⟩ ↦ ⟨P', hle, L, le_refl L, hdone⟩
  · rintro p q (⟨hstores, hp, rfl⟩ | hp)
    · exact ⟨hstores, rfl, hp ▸ hh⟩
    · exact ⟨hp.database ▸ hp.stores, hp.database,
        hh.of_untouched hp rfl rfl (build_rooted _) hQ hzero hle⟩

theorem goAlike_delete {k : Nat} (hc : Alike P L bound c d) (hstored : c.StoredAt k) :
    GoAlike bound (act (.delete k)) (act (.delete k)) c d := by
  have hheld := forall₂_getElem? hc.held k
  refine Together.get ?_
  generalize hk : c.held[k]? = found at hheld ⊢
  generalize d.held[k]? = found' at hheld ⊢
  cases hheld with
  | none => exact .pure ⟨P, L, hc⟩
  | @some h h' hh =>
    dsimp only
    rw [← bind_pure (onStore h.layout.delete), ← bind_pure (onStore h'.layout.delete)]
    refine together_onStore (hc.stores.together_deleteLayout hh.ids (hstored _ hk)) ?_
    exact fun _ _ _ _ ⟨hgiven, hstores⟩ ↦ .pure ⟨P, L, hstores, hgiven ▸ hc.given_le, hc.held⟩

theorem goAlike_act {a a' : Move} (hc : Alike P L bound c d) (hmoves : Corresponds c d a a')
    (hroom : bound + c.demand a ≤ Database.largestId) :
    GoAlike (bound + c.demand a) (act a) (act a') c d := by
  have hnone : bound + (0 : Nat) = bound := Int.add_zero _
  cases hmoves with
  | new planId hr =>
    refine hnone.symm ▸ goAlike_hold hc (heldAlike_of_request hr hc.stores.layoutIds.zero ?_)
    rw [hr.1]
  | load hf hid => exact hnone.symm ▸ goAlike_load hc hf hid
  | apply k hr => exact hnone.symm ▸ goAlike_apply k hc hr
  | save k => exact goAlike_save hc hroom
  | update hstored hids => exact goAlike_update hc hstored hids hroom
  | delete hstored => exact hnone.symm ▸ goAlike_delete hc hstored

theorem GoAlike.outcome {m : Step (Client Recording) Unit} {m' : Step (Client Database) Unit}
    (hm : GoAlike bound m m' c d) :
    (m.run c).1 = (m'.run d).1 ∧ ∃ P L, Alike P L bound (m.run c).2 (m'.run d).2 := by
  cases hm with
  | carried h h' hdone =>
    rw [h, h']
    exact ⟨rfl, hdone⟩
  | refused h h' hrefused =>
    rw [h, h']
    exact ⟨rfl, hrefused⟩

theorem pairedTo_zero : PairedTo (fun a a' ↦ a = 0 ∧ a' = 0) 0 0 where
  zero := ⟨rfl, rfl⟩
  lt_iff := by omega
  nonneg := by omega
  le_last := by omega

theorem SideBySide.alike {plans : List Plan} {lastPlan : Int} {taken : Nat}
    (h : SideBySide plans lastPlan taken c d) (hroom : taken ≤ Database.largestId) :
    ∃ P L, Alike P L taken c d := by
  induction h with
  | start =>
    have hstores : Parallel (fun a a' ↦ a = 0 ∧ a' = 0) (fun a a' ↦ a = 0 ∧ a' = 0)
        { plans } { plans, lastPlan } :=
      ⟨pairedTo_zero, pairedTo_zero, rfl, .nil, .nil, numberedTo_zero_nil, rfl⟩
    exact ⟨_, _, hstores, Int.le_refl 0, .nil⟩
  | step _ hmoves ih =>
    rw [Nat.cast_add] at hroom ⊢
    obtain ⟨P, L, hc⟩ := ih (by omega)
    exact (goAlike_act hc hmoves hroom).outcome.2

/-! ## The same rows under other ids -/

theorem exists_map_of_biUnique (hP : BiUnique P) : ∃ g : Int → Int, ∀ a a', P a a' → g a = a' := by
  classical
  refine ⟨fun a ↦ if ha : ∃ a', P a a' then ha.choose else 0, fun a a' ha ↦ ?_⟩
  have hex : ∃ a', P a a' := ⟨a', ha⟩
  dsimp only
  rw [dif_pos hex]
  exact hP.2 hex.choose_spec ha

theorem bijOn_of_pairs {α β : Type} {key : α → Int} {key' : β → Int} {as : List α} {bs : List β}
    {g : Int → Int} (hP : BiUnique P) (hg : ∀ a a', P a a' → g a = a')
    (h : Forall₂ (fun x y ↦ P (key x) (key' y)) as bs) :
    Set.BijOn g {id | ∃ x ∈ as, key x = id} {id | ∃ y ∈ bs, key' y = id} := by
  refine ⟨?_, ?_, ?_⟩
  · rintro _ ⟨x, hx, rfl⟩
    obtain ⟨y, hy, hxy⟩ := exists_right_of_forall₂ h hx
    exact ⟨y, hy, (hg _ _ hxy).symm⟩
  · rintro _ ⟨x, hx, rfl⟩ _ ⟨z, hz, rfl⟩ heq
    obtain ⟨y, -, hxy⟩ := exists_right_of_forall₂ h hx
    obtain ⟨w, -, hzw⟩ := exists_right_of_forall₂ h hz
    rw [hg _ _ hxy, hg _ _ hzw] at heq
    exact hP.1 (heq ▸ hxy) hzw
  · rintro _ ⟨y, hy, rfl⟩
    obtain ⟨x, hx, hxy⟩ := exists_right_of_forall₂ h.flip hy
    exact ⟨key x, ⟨x, hx, rfl⟩, hg _ _ hxy⟩

theorem sameRows_of_parallel {s : Recording} {db : Database} (h : Parallel P L s db) :
    SameRows s db := by
  obtain ⟨f, hf⟩ := exists_map_of_biUnique h.layoutIds.biUnique
  obtain ⟨g, hg⟩ := exists_map_of_biUnique h.ids.biUnique
  refine ⟨f, g, bijOn_of_pairs h.layoutIds.biUnique hf (h.headers.imp fun _ _ hh ↦ hh.id),
    bijOn_of_pairs h.ids.biUnique hg (h.nodes.imp fun _ _ hn ↦ hn.id), ?_, hg 0 0 h.ids.zero,
    forall₂_iff_eq_map.mp (h.headers.imp fun _ _ hh ↦ ?_),
    forall₂_iff_eq_map.mp (h.nodes.imp fun _ _ hn ↦ ?_)⟩
  · intro n hn m hm hlt
    obtain ⟨n', -, hnn⟩ := exists_right_of_forall₂ h.nodes hn
    obtain ⟨m', -, hmm⟩ := exists_right_of_forall₂ h.nodes hm
    rw [hg _ _ hnn.id, hg _ _ hmm.id]
    exact (h.ids.lt_iff hnn.id hmm.id).mp hlt
  · rw [hf _ _ hh.id]
    exact hh.rest
  · rw [hg _ _ hn.id, hg _ _ hn.parentId, hf _ _ hn.layoutId]
    exact hn.rest

/-- As long as fewer than 2^63 ids are asked for, both clients succeed or are refused alike, and
the stores hold the same rows but for the ids. -/
theorem stores_agree {plans : List Plan} {lastPlan : Int} {taken : Nat} {a a' : Move}
    (h : SideBySide plans lastPlan taken c d) (hmoves : Corresponds c d a a')
    (hroom : (taken : Int) + c.demand a ≤ Database.largestId) :
    ((act a).run c).1 = ((act a').run d).1 ∧
      SameRows ((act a).run c).2.store ((act a').run d).2.store := by
  obtain ⟨P, L, hc⟩ := h.alike (by omega)
  obtain ⟨htold, P', L', hlater⟩ := (goAlike_act hc hmoves hroom).outcome
  exact ⟨htold, sameRows_of_parallel hlater.stores⟩

/-! A layout is saved under other ids in each store, loaded, and updated by a request that names
its nodes. -/

/-- The ids that the recording store has given to a layout and its nodes, and those of the nodes
in the relational store. -/
def renumber (a : Int) : Int :=
  if a = 1 then 5 else if 1 < a ∧ a ≤ 5 then a - 1 else a

theorem renumber_injective : Function.Injective renumber := by
  intro a b h
  unfold renumber at h
  split_ifs at h <;> omega

/-- One site is renamed, and it has got a new row under an id that is not stored. -/
def renamedSite (root site : Int) : LayoutRequest where
  name := "regions"
  autoFill := true
  nodes := [{ id := root, name := "root" },
    { id := site, parentId := root, name := "south", sequence := 1, bitWidth := 4,
      modified := true },
    { id := 12, parentId := site, name := "row", bitWidth := 2 }]

theorem stores_agree_renamedSite : ∃ taken c d, SideBySide [Layout.regionPlan] 1 taken c d ∧
    (((act (.update 1)).run c).1 = ((act (.update 1)).run d).1 ∧
      SameRows ((act (.update 1)).run c).2.store ((act (.update 1)).run d).2.store) ∧
    ((act (.update 1)).run c).1 = .ok () ∧
    ((act (.update 1)).run c).2.store.nodes.map Node.id = [2, 4, 3, 6] ∧
    ((act (.update 1)).run d).2.store.nodes.map Node.id = [1, 3, 2, 5] := by
  have hnew : SideBySide [Layout.regionPlan] 1 _ _ _ :=
    .step .start (.new 1 (.refl Layout.shuffled))
  have hsaved := hnew.step (.save 0)
  have hloaded := hsaved.step (show Corresponds _ _ (.load 1) (.load 1) from
    .load (f := id) (by decide +kernel) (by decide +kernel))
  have happlied := hloaded.step
    (show Corresponds _ _ (.apply 1 (renamedSite 2 3)) (.apply 1 (renamedSite 1 2)) from
      .apply 1 ⟨rfl, renumber, renumber_injective, rfl, by decide⟩)
  have hagree := stores_agree happlied
    (.update (k := 1) (by decide +kernel) ⟨renumber, renumber_injective, rfl, by decide +kernel⟩)
    (by decide +kernel)
  exact ⟨_, _, _, happlied, hagree, by decide +kernel, by decide +kernel, by decide +kernel⟩

end Client

end AddressPlan
