import AddressPlan.Proofs.Loop
import AddressPlan.Proofs.Store.Deletions
import Mathlib.Data.Nat.Init

/-!
# Exactly what is below an id

Rows may name any parents: themselves, rows of other layouts, one another in a circle, or
ids that no row has.  As long as their ids are distinct, deleting a subtree comes to an end,
takes away the rows from which parent links lead to the id, and tells each of their ids once.
The two stores get there by different loops and remove the same rows.
-/

namespace AddressPlan

open Rows

namespace Rows

variable {rows : List Node} {ids : List Int} {d : Int}

theorem nodup_grow (hnodup : (rows.map Node.id).Nodup) (p : Node → Bool) (h : ids.Nodup) :
    (grow rows p ids).Nodup := by
  apply h.append (hnodup.sublist (List.filter_sublist.map Node.id))
  intro i hi hnew
  obtain ⟨n, hn, rfl⟩ := List.mem_map.mp hnew
  simp [hi] at hn

/-! ## The loop over the work list -/

section WorkList

open Recording

/-- The next state of a work list and the place of the entry whose children are to be added. -/
def serve (rows : List Node) (work : List Int × Nat) : Option (List Int × Nat) :=
  if work.2 < work.1.length then some (growDoomed rows work.1 work.2, work.2 + 1) else none

theorem nodup_workList (hnodup : (rows.map Node.id).Nodup) (d : Int) (k : Nat) :
    (workList rows d k).Nodup := by
  induction k with
  | zero => exact List.nodup_singleton d
  | succ k ih =>
    rw [workList_succ]
    cases hk : (workList rows d k)[k]? with
    | none => rwa [growDoomed_of_none hk]
    | some last =>
      rw [growDoomed_of_some hk]
      exact nodup_grow hnodup _ ih

theorem loop_serve_workList (rows : List Node) (d : Int) {k : Nat} (hk : k ≤ rows.length + 1) :
    ∃ i, Loop (serve rows) (workList rows d k, k) (doomed rows d, i) := by
  induction hk using Nat.decreasingInduction with
  | self =>
    have hle := length_workList_add_outside_le rows d (rows.length + 1)
    exact ⟨_, .done (if_neg (by dsimp only; omega))⟩
  | of_succ k hk ih =>
    obtain ⟨i, hrest⟩ := ih
    rw [workList_succ] at hrest
    by_cases hlt : k < (workList rows d k).length
    · exact ⟨i, .step (if_pos hlt) hrest⟩
    · -- Nothing is left to serve, and the later rounds do not change that.
      rw [growDoomed_of_none (List.getElem?_eq_none (by omega))] at hrest
      have hend := hrest.eq_of_done (if_neg (by dsimp only; omega))
      rw [(Prod.mk.inj hend).1]
      exact ⟨k, .done (if_neg hlt)⟩

theorem loop_serve_doomed (rows : List Node) (d : Int) :
    ∃ i, Loop (serve rows) ([d], 0) (doomed rows d, i) :=
  loop_serve_workList rows d (Nat.zero_le _)

end WorkList

/-! ## The rounds of the recursive query -/

section Rounds

open Database

/-- The next round of a query that adds what is not in the result, until there is nothing. -/
def query (rows : List Node) (ids : List Int) : Option (List Int) :=
  if withChildren rows ids = ids then none else some (withChildren rows ids)

theorem loop_query_rounds (rows : List Node) (d : Int) {k : Nat} (hk : k ≤ rows.length) :
    Loop (query rows) (k.repeat (withChildren rows) [d]) (subtreeIds rows d) := by
  induction hk using Nat.decreasingInduction with
  | self => exact .done (if_pos (withChildren_eq_self (closed_subtreeIds rows d)))
  | of_succ k hk ih =>
    rw [Nat.repeat] at ih
    by_cases hend : withChildren rows (k.repeat (withChildren rows) [d]) =
        k.repeat (withChildren rows) [d]
    · rwa [hend] at ih
    · exact .step (if_neg hend) ih

theorem loop_query_subtreeIds (rows : List Node) (d : Int) :
    Loop (query rows) [d] (subtreeIds rows d) :=
  loop_query_rounds rows d (Nat.zero_le _)

end Rounds

/-! ## What is removed -/

/-- The ids of the rows below an id, each of them once. -/
structure Uprooted (rows : List Node) (d : Int) (removed : List Int) : Prop where
  nodup : removed.Nodup
  mem_iff : ∀ i, i ∈ removed ↔ (∃ n ∈ rows, n.id = i) ∧ Below rows i d

variable {removed removed' : List Int}

theorem Uprooted.perm (h : Uprooted rows d removed) (h' : Uprooted rows d removed') :
    removed.Perm removed' :=
  (List.perm_ext_iff_of_nodup h.nodup h'.nodup).mpr fun i ↦
    (h.mem_iff i).trans (h'.mem_iff i).symm

theorem outside_congr (h : removed.Perm removed') :
    outside rows removed = outside rows removed' := by
  apply List.filter_congr
  intro n _
  simp only [List.contains_eq_mem, h.mem_iff]

end Rows

theorem Recording.run_deleteSubtree {s : Recording} (hnodup : (s.nodes.map Node.id).Nodup)
    (d : Int) :
    ∃ removed, Uprooted s.nodes d removed ∧ (Store.deleteSubtree d).run s =
      (.ok removed, { s.record (.deleteSubtree d) with nodes := outside s.nodes removed }) :=
  ⟨_, ⟨(nodup_workList hnodup d _).filter _, fun _ ↦ mem_removed⟩, rfl⟩

theorem Database.run_deleteSubtree {db : Database} (hnodup : (db.nodes.map Node.id).Nodup)
    (d : Int) :
    ∃ removed, Uprooted db.nodes d removed ∧ (Store.deleteSubtree d).run db =
      (.ok removed, { db with nodes := outside db.nodes removed }) := by
  refine ⟨(db.deleteSubtree d).1, ⟨?_, fun _ ↦ mem_deleteSubtree⟩, ?_⟩
  · have hbyId : (db.rowsById.map Node.id).Nodup :=
      ((Order.sortBy_perm _ db.nodes).map Node.id).nodup_iff.mpr hnodup
    exact hbyId.sublist (List.filter_sublist.map Node.id)
  · rw [← deleteSubtree_snd]
    rfl

/-- On rows with distinct ids both loops end, and both stores remove exactly the rows below the
id. -/
theorem deleteSubtree_uprooted {rows : List Node} (hnodup : (rows.map Node.id).Nodup) (d : Int)
    {s : Recording} (hs : s.nodes = rows) {db : Database} (hdb : db.nodes = rows) :
    (∃ i, Loop (serve rows) ([d], 0) (Recording.doomed rows d, i)) ∧
      Loop (query rows) [d] (Database.subtreeIds rows d) ∧
      ∃ removed removed' left,
        (Store.deleteSubtree d).run s =
          (.ok removed, { s.record (.deleteSubtree d) with nodes := left }) ∧
        (Store.deleteSubtree d).run db = (.ok removed', { db with nodes := left }) ∧
        Uprooted rows d removed ∧ Uprooted rows d removed' ∧ removed.Perm removed' ∧
        left = outside rows removed ∧ ∀ n ∈ rows, n ∈ left ↔ ¬ Below rows n.id d := by
  subst hs
  obtain ⟨removed, huprooted, hrun⟩ := Recording.run_deleteSubtree hnodup d
  obtain ⟨removed', huprooted', hrun'⟩ := Database.run_deleteSubtree (hdb ▸ hnodup) d
  rw [hdb] at huprooted' hrun'
  have hperm := huprooted.perm huprooted'
  rw [← outside_congr hperm] at hrun'
  refine ⟨loop_serve_doomed s.nodes d, loop_query_subtreeIds s.nodes d, removed, removed', _, hrun,
    hrun', huprooted, huprooted', hperm, rfl, fun n hn ↦ ?_⟩
  rw [mem_outside, and_iff_right hn, huprooted.mem_iff, and_iff_right ⟨n, hn, rfl⟩]

/-- A circle, a row that is its own parent with a row of another layout below it, and a row
below an id that is not there. -/
def knotted : List Node :=
  [{ id := 4, layoutId := 1, parentId := 2, name := "in the circle" },
    { id := 1, layoutId := 1, name := "root" },
    { id := 2, layoutId := 1, parentId := 4, name := "in the circle" },
    { id := 7, layoutId := 2, parentId := 3, name := "in another layout" },
    { id := 3, layoutId := 1, parentId := 3, name := "own parent" },
    { id := 5, layoutId := 1, parentId := 2, name := "hangs on the circle" },
    { id := 6, layoutId := 1, parentId := 9, name := "orphan" }]

theorem deleteSubtree_uprooted_knotted :
    (knotted.map Node.id).Nodup ∧
      (∃ removed removed' left,
        (Store.deleteSubtree 4).run ({ nodes := knotted } : Recording) =
          (.ok removed, { nodes := left, calls := [.deleteSubtree 4] }) ∧
        (Store.deleteSubtree 4).run ({ nodes := knotted } : Database) =
          (.ok removed', { nodes := left }) ∧
        Uprooted knotted 4 removed ∧ Uprooted knotted 4 removed' ∧ removed.Perm removed' ∧
        left = outside knotted removed ∧ ∀ n ∈ knotted, n ∈ left ↔ ¬ Below knotted n.id 4) ∧
      ((Store.deleteSubtree 4).run ({ nodes := knotted } : Recording)).1 = .ok [4, 2, 5] ∧
      ((Store.deleteSubtree 4).run ({ nodes := knotted } : Database)).1 = .ok [2, 4, 5] := by
  have hnodup : (knotted.map Node.id).Nodup := by decide
  exact ⟨hnodup, (deleteSubtree_uprooted hnodup 4 rfl rfl).2.2, by rfl, by rfl⟩

end AddressPlan
