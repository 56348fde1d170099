import AddressPlan.Proofs.Network.Canonical
import AddressPlan.Proofs.NodeTree.Search

/-!
# The first literal out of order

The check of the literals goes along them once and looks every block up among those claimed
so far.  It comes to the same as going through the list of all entries and comparing each
text with all the texts before it: the first entry that is not the text of a plain block or
repeats an earlier text decides on the refusal, and without such an entry the claims are the
list itself with the block of each entry.
-/

namespace AddressPlan

theorem foldlM_eq_error_iff {α β ε : Type} {f : β → α → Except ε β} {e : ε} (as : List α)
    {b : β} :
    as.foldlM f b = .error e ↔ ∃ front a behind b', as = front ++ a :: behind ∧
      front.foldlM f b = .ok b' ∧ f b' a = .error e := by
  constructor
  · intro h
    induction as generalizing b with
    | nil => cases h
    | cons a as ih =>
      rw [List.foldlM_cons] at h
      cases ha : f b a with
      | error e' =>
        rw [ha] at h
        cases h
        exact ⟨[], a, as, b, rfl, rfl, ha⟩
      | ok b₁ =>
        rw [ha] at h
        obtain ⟨front, a', behind, b', rfl, hfront, ha'⟩ := ih h
        refine ⟨a :: front, a', behind, b', rfl, ?_, ha'⟩
        rw [List.foldlM_cons, ha]
        exact hfront
  · rintro ⟨front, a, behind, b', rfl, hfront, ha⟩
    have hrest : (a :: behind).foldlM f b' = .error e := by
      rw [List.foldlM_cons, ha]
      rfl
    rw [List.foldlM_append, hfront]
    exact hrest

theorem Separated.split_eq_splitOn (separator : Char) (cs : List Char) :
    split separator cs = cs.splitOn separator := by
  induction cs with
  | nil => rfl
  | cons c cs ih =>
    simp only [split_cons, ih, List.splitOn, List.splitOnP_cons_eq_if_modifyHead, beq_iff_eq]

namespace NodeTree

variable {t : NodeTree} {claims : List Claim} {written earlier : List (Placed × String)}

/-! ## The list of all entries -/

/-- The entries of a node, none for an empty field. -/
def entries (n : Node) : List String :=
  if n.literals = "" then [] else (n.literals.toList.splitOn ',').map String.ofList

/-- The entries of the nodes at some places. -/
def listing (t : NodeTree) (order : List Nat) : List (Placed × String) :=
  order.flatMap fun i ↦ (t.node? i).toList.flatMap fun n ↦ (entries n).map (⟨i, n⟩, ·)

theorem blockTexts_eq (n : Node) : n.blockTexts = entries n := by
  simp only [Node.blockTexts, entries, Separated.split_eq_splitOn, String.isEmpty_iff]

theorem listing_range (t : NodeTree) : t.listing (List.range t.size) = t.writtenBlocks := by
  have hall : ∀ (ss : List Slot) (g : Nat → Node → List (Placed × String)),
      (List.range ss.length).flatMap (fun i ↦ (ss[i]?.map Slot.node).toList.flatMap (g i)) =
        ss.zipIdx.flatMap fun x ↦ g x.2 x.1.node := by
    intro ss g
    induction ss using List.reverseRecOn with
    | nil => rfl
    | append_singleton ss s ih =>
      have hfront : (List.range ss.length).flatMap (fun i ↦
          ((ss ++ [s])[i]?.map Slot.node).toList.flatMap (g i)) =
          ss.zipIdx.flatMap fun x ↦ g x.2 x.1.node := by
        refine (List.flatMap_congr fun i hi ↦ ?_).trans ih
        rw [List.getElem?_append_left (List.mem_range.mp hi)]
      rw [List.length_append, List.length_singleton, List.range_succ, List.flatMap_append,
        hfront, List.zipIdx_append, List.flatMap_append]
      simp
  rw [writtenBlocks, placed, List.flatMap_map]
  simp only [blockTexts_eq]
  exact hall t.slots fun i n ↦ (entries n).map (⟨i, n⟩, ·)

/-- A breadth-first search from the root meets the entries in the order of the check. -/
theorem listing_of_search (ht : t.Rooted) (hb : t.BreadthFirst) {order : List Nat}
    (h : Search t.visit [] [0] order) : t.listing order = t.writtenBlocks := by
  rcases Nat.eq_zero_or_pos t.size with hempty | hsize
  · have hslots : t.slots = [] := List.length_eq_zero_iff.mp hempty
    have hchildren : t.children 0 = [] := by simp [children, hslots]
    have hend : Search t.visit [] [0] [0] := by
      apply Search.next
      rw [visit, hchildren]
      exact .done [0]
    rw [h.unique hend, ← listing_range, hempty]
    simp [listing, node?, hslots]
  · rw [h.unique (hb.search_visit ht hsize), listing_range]

/-! ## The naive check -/

/-- Some IPv4 block has this canonical text. -/
def IsBlock (text : String) : Prop :=
  ∃ n : Network, n.family = .v4 ∧ n.Canonical text

/-- Each entry is the canonical text of a block, and no two entries have the same text. -/
structure InOrder (written : List (Placed × String)) : Prop where
  canonical : ∀ w ∈ written, IsBlock w.2
  nodup : (written.map Prod.snd).Nodup

/-- Why an entry behind others is refused, and how. -/
inductive Fault (earlier : List (Placed × String)) (owner : Placed) (text : String) :
    PlanError → Prop
  | spelling {cause : Malformation} (hnot : ¬ IsBlock text)
    (hcause : Network.parseBlock text = .error (.malformed cause)) :
    Fault earlier owner text (.malformed (.inNode owner.node.name cause))
  | repeated {first : Placed} (hcanonical : IsBlock text)
    (hfirst : (first, text) ∈ earlier) :
    Fault earlier owner text (.duplicate text first.node.name owner.node.name)

theorem isBlock_iff_exists_ok {text : String} :
    IsBlock text ↔ ∃ n, Network.parseBlock text = .ok n := by
  simp only [IsBlock, Network.parseBlock_eq_ok_iff_canonical]

theorem exists_claims_iff_inOrder : (∃ claims, Claimed written claims) ↔ InOrder written := by
  simp only [exists_claimed_iff, ← Network.parseBlock_eq_ok_iff, ← isBlock_iff_exists_ok]
  constructor
  · rintro ⟨hcanonical, hnodup⟩
    exact ⟨fun w hw ↦ hcanonical w.2 (List.mem_map_of_mem hw), hnodup⟩
  · rintro ⟨hcanonical, hnodup⟩
    refine ⟨fun text htext ↦ ?_, hnodup⟩
    obtain ⟨w, hw, rfl⟩ := List.mem_map.mp htext
    exact hcanonical w hw

theorem Claimed.forall₂ (h : Claimed written claims) :
    written.Forall₂ (fun w c ↦ c.owner = w.1 ∧ Network.parseBlock w.2 = .ok c.block) claims := by
  rw [← h.written_eq, List.forall₂_map_left_iff, List.forall₂_same]
  intro c hc
  exact ⟨rfl, Network.parseBlock_eq_ok_iff.mpr ⟨h.plain c hc, rfl⟩⟩

/-- The claim with a block is the one that was written with its text. -/
theorem Claimed.find?_eq_some_iff (h : Claimed written claims) {block : Network}
    (hblock : block.Plain) {owner : Placed} :
    (∃ first, claims.find? (·.block == block) = some first ∧ first.owner = owner) ↔
      (owner, block.text) ∈ written := by
  rw [← h.written_eq, List.mem_map]
  constructor
  · rintro ⟨first, hfind, rfl⟩
    have hfound : first.block = block := by simpa using List.find?_some hfind
    exact ⟨first, List.mem_of_find?_eq_some hfind, hfound ▸ rfl⟩
  · rintro ⟨c, hc, heq⟩
    obtain ⟨rfl, htext⟩ := Prod.mk.inj heq
    have hsame := (h.plain c hc).eq_of_text hblock htext
    cases hfind : claims.find? (·.block == block) with
    | none => exact absurd (beq_iff_eq.mpr hsame) (List.find?_eq_none.mp hfind c hc)
    | some first =>
      have hfirst := List.mem_of_find?_eq_some hfind
      have hfound : first.block = block := by simpa using List.find?_some hfind
      have heq : first = c := List.inj_on_of_nodup_map h.nodup hfirst hc (hfound.trans hsame.symm)
      exact ⟨first, rfl, heq ▸ rfl⟩

theorem parseBlock_eq_error {text : String} {e : PlanError}
    (h : Network.parseBlock text = .error e) : ∃ cause, e = .malformed cause := by
  unfold Network.parseBlock at h
  split at h
  · cases h
    exact ⟨_, rfl⟩
  · split at h
    · cases h
    · cases h
      exact ⟨_, rfl⟩

theorem claim_eq_error_iff (h : Claimed earlier claims) {owner : Placed} {text : String}
    {e : PlanError} : claim claims owner text = .error e ↔ Fault earlier owner text e := by
  unfold claim
  cases hparse : Network.parseBlock text with
  | error e' =>
    obtain ⟨cause, rfl⟩ := parseBlock_eq_error hparse
    have hnot : ¬ IsBlock text := by
      rw [isBlock_iff_exists_ok]
      rintro ⟨block, hblock⟩
      cases hparse.symm.trans hblock
    constructor
    · rintro ⟨⟩
      exact .spelling hnot hparse
    · rintro (⟨-, hcause⟩ | ⟨hcanonical, -⟩)
      · cases hparse.symm.trans hcause
        rfl
      · exact absurd hcanonical hnot
  | ok block =>
    have hcanonical := isBlock_iff_exists_ok.mpr ⟨block, hparse⟩
    obtain ⟨hplain, rfl⟩ := Network.parseBlock_eq_ok_iff.mp hparse
    have hfound : ∀ owner, (∃ first, claims.find? (·.block == block) = some first ∧
        first.owner = owner) ↔ (owner, block.text) ∈ earlier := fun owner ↦
      h.find?_eq_some_iff hplain
    dsimp only
    cases hfind : claims.find? (·.block == block) with
    | none =>
      refine iff_of_false (fun h ↦ nomatch h) ?_
      rintro (⟨hnot, -⟩ | ⟨-, hfirst⟩)
      · exact hnot hcanonical
      · obtain ⟨first, hsome, -⟩ := (hfound _).mpr hfirst
        cases hfind.symm.trans hsome
    | some first =>
      constructor
      · rintro ⟨⟩
        exact .repeated hcanonical ((hfound _).mp ⟨first, hfind, rfl⟩)
      · rintro (⟨hnot, -⟩ | ⟨-, hfirst⟩)
        · exact absurd hcanonical hnot
        · obtain ⟨first', hsome, rfl⟩ := (hfound _).mpr hfirst
          cases hfind.symm.trans hsome
          rfl

theorem claims_eq_error_iff {e : PlanError} :
    t.claims = .error e ↔ ∃ earlier owner text later,
      t.writtenBlocks = earlier ++ (owner, text) :: later ∧ InOrder earlier ∧
        Fault earlier owner text e := by
  unfold claims
  rw [foldlM_eq_error_iff]
  constructor
  · rintro ⟨earlier, ⟨owner, text⟩, later, claims, hwritten, hfront, herror⟩
    have hclaimed := foldlM_claim_eq_ok_iff.mp hfront
    exact ⟨earlier, owner, text, later, hwritten, exists_claims_iff_inOrder.mp ⟨claims, hclaimed⟩,
      (claim_eq_error_iff hclaimed).mp herror⟩
  · rintro ⟨earlier, owner, text, later, hwritten, horder, hfault⟩
    obtain ⟨claims, hclaimed⟩ := exists_claims_iff_inOrder.mpr horder
    exact ⟨earlier, (owner, text), later, claims, hwritten, foldlM_claim_eq_ok_iff.mpr hclaimed,
      (claim_eq_error_iff hclaimed).mpr hfault⟩

/-- The check in one pass accepts, returns and refuses what the naive check does. -/
theorem claims_naive (ht : t.Rooted) (hb : t.BreadthFirst) {order : List Nat}
    (hsearch : Search t.visit [] [0] order) :
    ((∃ claims, t.claims = .ok claims) ↔ InOrder (t.listing order)) ∧
      (∀ claims, t.claims = .ok claims → (t.listing order).Forall₂ (fun w c ↦ c.owner = w.1 ∧
        Network.parseBlock w.2 = .ok c.block) claims) ∧
      ∀ e, t.claims = .error e ↔ ∃ earlier owner text later,
        t.listing order = earlier ++ (owner, text) :: later ∧ InOrder earlier ∧
          Fault earlier owner text e := by
  rw [listing_of_search ht hb hsearch]
  refine ⟨?_, fun claims h ↦ (claims_eq_ok_iff.mp h).forall₂, fun e ↦ claims_eq_error_iff⟩
  rw [← exists_claims_iff_inOrder]
  simp only [claims_eq_ok_iff]

/-- Two entries are out of order, a repeated one in front of one with host bits. -/
def disputed : List Node :=
  [{ id := 1, name := "root" },
    { id := 2, parentId := 1, name := "west", literals := "10.2.0.0/16,10.1.0.0/16" },
    { id := 3, parentId := 1, name := "east", sequence := 1 },
    { id := 4, parentId := 2, name := "south", literals := "10.3.0.0/16,10.1.0.0/16,10.1.1.0/16" },
    { id := 5, parentId := 3, name := "north", literals := "10.4.0.1/16" }]

theorem claims_naive_disputed :
    (build disputed).Rooted ∧ (build disputed).BreadthFirst ∧
      Search (build disputed).visit [] [0] [0, 1, 2, 3, 4] ∧
      ((∃ earlier owner text later,
        (build disputed).listing [0, 1, 2, 3, 4] = earlier ++ (owner, text) :: later ∧
          InOrder earlier ∧ Fault earlier owner text (.duplicate "10.1.0.0/16" "west" "south")) ∧
        ¬ InOrder ((build disputed).listing [0, 1, 2, 3, 4])) := by
  have ht := build_rooted disputed
  have hb := build_breadthFirst disputed
  have hsearch : Search (build disputed).visit [] [0] [0, 1, 2, 3, 4] :=
    hb.search_visit ht (by decide)
  have herror : (build disputed).claims = .error (.duplicate "10.1.0.0/16" "west" "south") := by
    decide +kernel
  have hnaive := claims_naive ht hb hsearch
  refine ⟨ht, hb, hsearch, (hnaive.2.2 _).mp herror, fun horder ↦ ?_⟩
  obtain ⟨claims, hclaims⟩ := hnaive.1.mpr horder
  cases herror.symm.trans hclaims

end NodeTree

end AddressPlan
