import AddressPlan.Proofs.Store.Lawful

/-!
# One deletion after the other

Deleting subtrees one after the other takes away exactly the rows below one of their tops.
An earlier deletion cannot cut a row off from a later top: it would have taken the row
along.
-/

namespace AddressPlan

open Rows

namespace Rows

variable {rows : List Node} {gone : List Int}

@[simp] theorem mem_outside {n : Node} : n ∈ outside rows gone ↔ n ∈ rows ∧ n.id ∉ gone := by
  simp [outside]

theorem outside_nil (rows : List Node) : outside rows [] = rows := by
  simp [outside]

theorem outside_outside (rows : List Node) (gone more : List Int) :
    outside (outside rows gone) more = outside rows (gone ++ more) := by
  simp only [outside, List.filter_filter]
  apply List.filter_congr
  intro n _
  simp [Bool.and_comm]

theorem ofLayout_outside (rows : List Node) (gone : List Int) (layoutId : Int) :
    ofLayout (outside rows gone) layoutId = outside (ofLayout rows layoutId) gone := by
  simp only [ofLayout, outside, List.filter_filter]
  refine List.filter_congr fun n _ ↦ Bool.and_comm _ _

/-- The rows under `gone` are those that stand below one of the ids in `tops`. -/
def AreBelow (rows : List Node) (tops gone : List Int) : Prop :=
  ∀ i, i ∈ gone ↔ (∃ n ∈ rows, n.id = i) ∧ ∃ d ∈ tops, Below rows i d

variable {tops tops' more : List Int}

theorem AreBelow.nil (rows : List Node) : AreBelow rows [] [] := by
  intro i
  simp

theorem AreBelow.eq_nil (h : AreBelow rows [] gone) : gone = [] := by
  apply List.eq_nil_iff_forall_not_mem.mpr
  intro i hi
  obtain ⟨-, d, hd, -⟩ := (h i).mp hi
  cases hd

theorem AreBelow.below_outside (h : AreBelow rows tops gone) {i a : Int}
    (hbelow : Below rows i a) (hnot : ¬ ∃ d ∈ tops, Below rows i d) :
    Below (outside rows gone) i a := by
  induction hbelow using Relation.ReflTransGen.head_induction_on with
  | refl => exact Below.refl a
  | head hlink hrest ih =>
    obtain ⟨n, hn, rfl, rfl⟩ := hlink
    have hparent : ¬ ∃ d ∈ tops, Below rows n.parentId d := by
      rintro ⟨d, hd, hbelow⟩
      exact hnot ⟨d, hd, hbelow.of_mem hn⟩
    have hkept : n ∈ outside rows gone :=
      mem_outside.mpr ⟨hn, fun hid ↦ hnot ((h n.id).mp hid).2⟩
    exact (ih hparent).of_mem hkept

/-- Deleting below some tops and then below others is deleting below all of them. -/
theorem AreBelow.append (h : AreBelow rows tops gone)
    (h' : AreBelow (outside rows gone) tops' more) :
    AreBelow rows (tops ++ tops') (gone ++ more) := by
  intro i
  rw [List.mem_append, h i, h' i]
  constructor
  · rintro (⟨hi, d, hd, hbelow⟩ | ⟨⟨n, hn, rfl⟩, d, hd, hbelow⟩)
    · exact ⟨hi, d, List.mem_append_left _ hd, hbelow⟩
    · exact ⟨⟨n, (mem_outside.mp hn).1, rfl⟩, d, List.mem_append_right _ hd,
        hbelow.mono List.filter_sublist.subset⟩
  · rintro ⟨⟨n, hn, rfl⟩, d, hd, hbelow⟩
    by_cases habove : ∃ d ∈ tops, Below rows n.id d
    · exact Or.inl ⟨⟨n, hn, rfl⟩, habove⟩
    · right
      have hkept : n ∈ outside rows gone :=
        mem_outside.mpr ⟨hn, fun hid ↦ habove ((h n.id).mp hid).2⟩
      refine ⟨⟨n, hkept, rfl⟩, d, ?_, h.below_outside hbelow habove⟩
      exact (List.mem_append.mp hd).resolve_left fun hd ↦ habove ⟨d, hd, hbelow⟩

end Rows

variable {σ τ α : Type} [Store σ] [LawfulStore σ]

open LawfulStore

/-- Rounds that each delete at most one subtree, and go on with the ids that are left. -/
theorem run_deletions {body : List Int → α → Step (τ × σ) (List Int)} (top : α → Option Int)
    (hnone : ∀ {live a p live' p'}, top a = none → (body live a).run p = (.ok live', p') →
      live' = live ∧ p' = p)
    (hsome : ∀ {live a p live' p' d}, top a = some d → (body live a).run p = (.ok live', p') →
      p'.1 = p.1 ∧ ∃ removed, (Store.deleteSubtree d).run p.2 = (.ok removed, p'.2) ∧
        live' = live.filter (!removed.contains ·))
    (as : List α) {live live' : List Int} {p p' : τ × σ} (hs : Sound p.2)
    (hrun : (as.foldlM body live).run p = (.ok live', p')) :
    p'.1 = p.1 ∧ Sound p'.2 ∧ ∃ gone, rows p'.2 = outside (rows p.2) gone ∧
      live' = live.filter (!gone.contains ·) ∧ AreBelow (rows p.2) (as.filterMap top) gone := by
  induction as generalizing live p with
  | nil =>
    cases hrun
    exact ⟨rfl, hs, [], (outside_nil _).symm, by simp, .nil _⟩
  | cons a as ih =>
    rw [List.foldlM_cons, Step.run_bind_eq_ok_iff] at hrun
    obtain ⟨live₁, p₁, hrun₁, hrun⟩ := hrun
    cases ha : top a with
    | none =>
      obtain ⟨rfl, rfl⟩ := hnone ha hrun₁
      rw [List.filterMap_cons_none ha]
      exact ih hs hrun
    | some d =>
      obtain ⟨htree₁, removed, hdelete, rfl⟩ := hsome ha hrun₁
      obtain ⟨hs₁, hrows₁, hremoved⟩ := deleteSubtree_run hs hdelete
      obtain ⟨htree, hs', gone, hrows, hlive, hgone⟩ := ih hs₁ hrun
      refine ⟨htree.trans htree₁, hs', removed ++ gone, ?_, ?_, ?_⟩
      · rw [hrows, hrows₁, outside_outside]
      · rw [hlive, List.filter_filter]
        apply List.filter_congr
        intro i _
        simp [Bool.and_comm]
      · rw [List.filterMap_cons_some ha]
        rw [hrows₁] at hgone
        have hfirst : AreBelow (rows p.2) [d] removed := by
          intro i
          rw [hremoved i]
          simp
        exact hfirst.append hgone

end AddressPlan
