import AddressPlan.Layout.Basic
import AddressPlan.Proofs.Network.Digits
import AddressPlan.Proofs.NodeTree.Build
import AddressPlan.Proofs.Report.Outline
import AddressPlan.Report.ByFamily
import Mathlib.Data.List.Infix

/-!
# Levels of a report

The level of a row tells where its block stands: a position among siblings for every block
from the top down.  The levels of a report are those of an outline, so they grow in
lexicographic order, no sibling and no enclosing block is left out, and the tags of a row name
the rows above it.
-/

namespace AddressPlan

/-! ## Numbers between dots -/

theorem Digits.decimal?_toDigits (n : Nat) : decimal? (Nat.toDigits 10 n) = some n := by
  obtain ⟨ds, htext, hlt, hnumber⟩ := exists_digits (b := 10) (by decide) n
  have hspan : span 10 (Nat.toDigits 10 n) = (ds, []) := by
    rw [htext, ← List.append_nil (ds.map Nat.digitChar)]
    exact span_append (by decide) hlt fun c hc ↦ nomatch hc
  cases ds with
  | nil => exact absurd htext Nat.toDigits_ne_nil
  | cons d ds =>
    rw [decimal?, hspan]
    exact congrArg some hnumber

theorem Digits.dot_not_mem_toDigits (n : Nat) : '.' ∉ Nat.toDigits 10 n := by
  obtain ⟨ds, htext, hlt, -⟩ := exists_digits (b := 10) (by decide) n
  rw [htext, List.mem_map]
  rintro ⟨d, hd, hdot⟩
  have hvalue := value?_digitChar (by decide) (hlt d hd)
  rw [hdot] at hvalue
  cases hvalue

namespace Report.Row

/-- The positions that the level of a row tells.  What is no number counts as zero. -/
def positions (r : Row) : List Nat :=
  (r.level.toList.splitOn '.').map fun piece ↦ (Digits.decimal? piece).getD 0

theorem positions_eq_label {r : Row} (h : r.label ≠ []) : r.positions = r.label := by
  have htext : r.level.toList = ['.'].intercalate (r.label.map (Nat.toDigits 10)) := by
    rw [level, String.toList_intercalate, List.map_map]
    congr 1
    exact List.map_congr_left fun n _ ↦ String.toList_ofList
  rw [positions, htext, List.splitOn_intercalate, List.map_map]
  · refine (List.map_congr_left fun n _ ↦ ?_).trans (List.map_id r.label)
    rw [Function.comp_apply, Digits.decimal?_toDigits]
    rfl
  · intro piece hpiece
    obtain ⟨n, -, rfl⟩ := List.mem_map.mp hpiece
    exact Digits.dot_not_mem_toDigits n
  · simpa using h

end Report.Row

/-! ## Labels of an outline -/

namespace Rose

variable {α : Type} {ts : List (Rose α)} {label p : List Nat} {enclosing : List α}
  {position k : Nat} {e : Entry α}

/-- A label leads from the one above to a position that is not in front of the first one. -/
theorem exists_label_of_mem (he : e ∈ outlineFrom label enclosing position ts) :
    ∃ k q, e.label = label ++ k :: q ∧ position ≤ k ∧ ∀ j ∈ q, 0 < j := by
  induction ts using forest_induction generalizing label enclosing position with
  | nil => cases he
  | cons a ts rest ihts ihrest =>
    rw [outlineFrom_cons, List.mem_cons, List.mem_append] at he
    rcases he with rfl | he | he
    · exact ⟨position, [], rfl, Nat.le_refl _, fun j hj ↦ nomatch hj⟩
    · obtain ⟨k, q, hlabel, hk, hq⟩ := ihts he
      refine ⟨position, k :: q, ?_, Nat.le_refl _, List.forall_mem_cons.mpr ⟨hk, hq⟩⟩
      rw [hlabel, List.append_assoc, List.singleton_append]
    · obtain ⟨k, q, hlabel, hk, hq⟩ := ihrest he
      exact ⟨k, q, hlabel, Nat.le_of_succ_le hk, hq⟩

theorem labels_pairwise (ts : List (Rose α)) (label : List Nat) (enclosing : List α)
    (position : Nat) :
    ((outlineFrom label enclosing position ts).map Entry.label).Pairwise (· < ·) := by
  induction ts using forest_induction generalizing label enclosing position with
  | nil => exact .nil
  | cons a ts rest ihts ihrest =>
    have hbelow : ∀ e ∈ outlineFrom (label ++ [position]) (enclosing ++ [a]) 1 ts,
        ∃ k q, e.label = label ++ position :: k :: q := by
      intro e he
      obtain ⟨k, q, hlabel, -⟩ := exists_label_of_mem he
      exact ⟨k, q, by rw [hlabel, List.append_assoc, List.singleton_append]⟩
    have hbehind : ∀ q, ∀ e ∈ outlineFrom label enclosing (position + 1) rest,
        label ++ position :: q < e.label := by
      intro q e he
      obtain ⟨k, q', hlabel, hk, -⟩ := exists_label_of_mem he
      exact hlabel ▸ List.append_left_lt (List.cons_lt_cons_iff.mpr (Or.inl hk))
    rw [outlineFrom_cons, List.map_cons, List.map_append, List.pairwise_cons,
      List.pairwise_append]
    simp only [List.forall_mem_append, List.forall_mem_map]
    refine ⟨⟨fun e he ↦ ?_, hbehind []⟩, ihts _ _ _, ihrest _ _ _, fun e he f hf ↦ ?_⟩
    · obtain ⟨k, q, hlabel⟩ := hbelow e he
      exact hlabel ▸ List.append_left_lt
        (List.cons_lt_cons_iff.mpr (Or.inr ⟨rfl, List.nil_lt_cons k q⟩))
    · obtain ⟨k, q, hlabel⟩ := hbelow e he
      exact hlabel ▸ hbehind (k :: q) f hf

/-- In front of every entry but the first of its siblings stands the one before. -/
theorem exists_sibling (he : e ∈ outlineFrom label enclosing position ts)
    (hlabel : e.label = p ++ [k]) :
    k = 1 ∨ p = label ∧ k = position ∨
      ∃ f ∈ outlineFrom label enclosing position ts, f.label = p ++ [k - 1] := by
  induction ts using forest_induction generalizing label enclosing position with
  | nil => cases he
  | cons a ts rest ihts ihrest =>
    rw [outlineFrom_cons, List.mem_cons, List.mem_append] at he
    simp only [outlineFrom_cons, List.mem_cons, List.mem_append]
    rcases he with rfl | he | he
    · obtain ⟨rfl, hk⟩ := List.append_inj' hlabel rfl
      exact Or.inr (Or.inl ⟨rfl, (List.singleton_inj.mp hk).symm⟩)
    · rcases ihts he with hk | ⟨-, hk⟩ | ⟨f, hf, hfl⟩
      · exact Or.inl hk
      · exact Or.inl hk
      · exact Or.inr (Or.inr ⟨f, Or.inr (Or.inl hf), hfl⟩)
    · rcases ihrest he with hk | ⟨rfl, rfl⟩ | ⟨f, hf, hfl⟩
      · exact Or.inl hk
      · exact Or.inr (Or.inr ⟨_, Or.inl rfl, rfl⟩)
      · exact Or.inr (Or.inr ⟨f, Or.inr (Or.inr hf), hfl⟩)

/-- What encloses an entry are the entries at the beginnings of its label. -/
theorem exists_above (he : e ∈ outlineFrom label enclosing position ts) :
    ∃ above : List (Entry α), (∀ f ∈ above, f ∈ outlineFrom label enclosing position ts) ∧
      e.label.inits = label.inits ++ (above.map Entry.label ++ [e.label]) ∧
      e.enclosing = enclosing ++ above.map Entry.value := by
  induction ts using forest_induction generalizing label enclosing position with
  | nil => cases he
  | cons a ts rest ihts ihrest =>
    rw [outlineFrom_cons, List.mem_cons, List.mem_append] at he
    simp only [outlineFrom_cons, List.mem_cons, List.mem_append]
    rcases he with rfl | he | he
    · refine ⟨[], fun f hf ↦ absurd hf List.not_mem_nil, ?_, (List.append_nil _).symm⟩
      rw [List.inits_append]
      rfl
    · obtain ⟨above, habove, hinits, henclosing⟩ := ihts he
      refine ⟨⟨label ++ [position], enclosing, a, ts.map value⟩ :: above, ?_, ?_, ?_⟩
      · exact List.forall_mem_cons.mpr ⟨Or.inl rfl, fun f hf ↦ Or.inr (Or.inl (habove f hf))⟩
      · rw [hinits, List.inits_append]
        simp
      · rw [henclosing]
        simp
    · obtain ⟨above, habove, hinits, henclosing⟩ := ihrest he
      exact ⟨above, fun f hf ↦ Or.inr (Or.inr (habove f hf)), hinits, henclosing⟩

end Rose

namespace Report

open Rose

/-- The structure of a report, in terms of the positions that the levels of its rows tell. -/
structure Outlined (rows : List Row) : Prop where
  level : ∀ r ∈ rows, r.positions ≠ [] ∧ (∀ k ∈ r.positions, 0 < k) ∧
    r.level = String.intercalate "." (r.positions.map toString)
  distinct : (rows.map Row.positions).Nodup
  increasing : (rows.map Row.positions).Pairwise (· < ·)
  depth : ∀ r ∈ rows, r.positions.length = r.depth + 1
  sibling : ∀ r ∈ rows, ∀ p k, r.positions = p ++ [k] →
    k = 1 ∨ ∃ q ∈ rows, q.positions = p ++ [k - 1]
  parent : ∀ front r behind, rows = front ++ r :: behind →
    ∀ p k, r.positions = p ++ [k] → p ≠ [] → ∃ q ∈ front, q.positions = p
  /-- Without the empty beginning and the whole, the beginnings of a level are those of the rows
  above, outermost first. -/
  tags : ∀ r ∈ rows, ∃ above : List Row, (∀ q ∈ above, q ∈ rows) ∧
    above.map Row.positions = r.positions.inits.tail.dropLast ∧
    r.tags = String.intercalate "," (above.map Row.name)

/-- In a report in order, what comes first by its positions stands in front. -/
theorem mem_front_of_lt {rows front behind : List Row} {r q : Row}
    (hsorted : (rows.map Row.positions).Pairwise (· < ·)) (hrows : rows = front ++ r :: behind)
    (hq : q ∈ rows) (hlt : q.positions < r.positions) : q ∈ front := by
  rw [hrows, List.map_append, List.map_cons, List.pairwise_append, List.pairwise_cons] at hsorted
  obtain ⟨-, ⟨hbehind, -⟩, -⟩ := hsorted
  rw [hrows, List.mem_append, List.mem_cons] at hq
  rcases hq with hq | rfl | hq
  · exact hq
  · exact absurd hlt (List.lt_irrefl _)
  · have hgt := hbehind q.positions (List.mem_map_of_mem hq)
    exact absurd (List.lt_trans hlt hgt) (List.lt_irrefl _)

section Outline

variable {α : Type} {ts : List (Rose α)} {e : Entry α}

theorem exists_label_of_mem_outline (he : e ∈ outline ts) :
    e.label ≠ [] ∧ ∀ k ∈ e.label, 0 < k := by
  obtain ⟨k, q, hlabel, hk, hq⟩ := exists_label_of_mem he
  rw [hlabel, List.nil_append]
  exact ⟨List.cons_ne_nil k q, List.forall_mem_cons.mpr ⟨hk, hq⟩⟩

/-- The rows above an entry, outermost first. -/
theorem exists_above_outline (he : e ∈ outline ts) :
    ∃ above : List (Entry α), (∀ f ∈ above, f ∈ outline ts) ∧
      above.map Entry.label = e.label.inits.tail.dropLast ∧
      e.enclosing = above.map Entry.value ∧ e.label.length = e.enclosing.length + 1 := by
  obtain ⟨above, habove, hinits, henclosing⟩ := exists_above he
  rw [List.inits, List.singleton_append] at hinits
  refine ⟨above, habove, ?_, henclosing, ?_⟩
  · rw [hinits, List.tail_cons, List.dropLast_concat]
  · have hlength := congrArg List.length hinits
    rw [List.length_inits, List.length_cons, List.length_append, List.length_map,
      List.length_singleton] at hlength
    rw [henclosing, List.nil_append, List.length_map]
    omega

/-- An entry stands in front of those whose labels begin with its own. -/
theorem exists_parent (he : e ∈ outline ts) {p : List Nat} {k : Nat} (hlabel : e.label = p ++ [k])
    (hp : p ≠ []) : ∃ f ∈ outline ts, f.label = p ∧ f.label < e.label := by
  obtain ⟨above, habove, hinits, -⟩ := exists_above he
  have hmem : p ∈ e.label.inits := (List.mem_inits p e.label).mpr ⟨[k], hlabel.symm⟩
  rw [hinits, hlabel] at hmem
  simp only [List.inits, List.mem_append, List.mem_singleton, List.mem_map] at hmem
  rcases hmem with hnil | ⟨f, hf, hfp⟩ | hself
  · exact absurd hnil hp
  · have hlt : p ++ [] < p ++ [k] := List.append_left_lt (List.nil_lt_cons k [])
    rw [List.append_nil] at hlt
    exact ⟨f, habove f hf, hfp, hfp ▸ hlabel ▸ hlt⟩
  · exact absurd hself (by simp)

variable {rowOf : Entry α → Row} {nameOf : α → String}

theorem outlined_map_outline (ts : List (Rose α)) (hlabel : ∀ e, (rowOf e).label = e.label)
    (hname : ∀ e, (rowOf e).name = nameOf e.value)
    (henclosing : ∀ e, (rowOf e).enclosing = e.enclosing.map nameOf) :
    Outlined ((outline ts).map rowOf) := by
  have hpositions : ∀ e ∈ outline ts, (rowOf e).positions = e.label := by
    intro e he
    rw [Row.positions_eq_label, hlabel]
    exact hlabel e ▸ (exists_label_of_mem_outline he).1
  have hsorted : (((outline ts).map rowOf).map Row.positions).Pairwise (· < ·) := by
    have hlabels := List.map_congr_left hpositions
    rw [List.map_map, Function.comp_def, hlabels]
    exact labels_pairwise ts [] [] 1
  constructor
  case level =>
    simp only [List.forall_mem_map]
    intro e he
    obtain ⟨hne, hpos⟩ := exists_label_of_mem_outline he
    rw [hpositions e he, Row.level, hlabel]
    exact ⟨hne, hpos, rfl⟩
  case distinct =>
    exact hsorted.imp fun {p q} hlt (heq : p = q) ↦ List.lt_irrefl q (heq ▸ hlt)
  case increasing => exact hsorted
  case depth =>
    simp only [List.forall_mem_map]
    intro e he
    obtain ⟨-, -, -, -, hlength⟩ := exists_above_outline he
    rw [hpositions e he, Row.depth, henclosing, List.length_map, hlength]
  case sibling =>
    simp only [List.forall_mem_map]
    intro e he p k hk
    rw [hpositions e he] at hk
    rcases exists_sibling he hk with hone | ⟨-, hone⟩ | ⟨f, hf, hfl⟩
    · exact Or.inl hone
    · exact Or.inl hone
    · exact Or.inr ⟨rowOf f, List.mem_map_of_mem hf, (hpositions f hf).trans hfl⟩
  case parent =>
    intro front r behind hrows p k hk hp
    obtain ⟨e, he, rfl⟩ := List.mem_map.mp (hrows ▸ List.mem_append_cons_self)
    rw [hpositions e he] at hk
    obtain ⟨f, hf, hfp, hlt⟩ := exists_parent he hk hp
    rw [← hpositions f hf, ← hpositions e he] at hlt
    exact ⟨rowOf f, mem_front_of_lt hsorted hrows (List.mem_map_of_mem hf) hlt,
      (hpositions f hf).trans hfp⟩
  case tags =>
    simp only [List.forall_mem_map]
    intro e he
    obtain ⟨above, habove, hinits, henc, -⟩ := exists_above_outline he
    refine ⟨above.map rowOf, ?_, ?_, ?_⟩
    · simp only [List.forall_mem_map]
      exact fun f hf ↦ List.mem_map_of_mem (habove f hf)
    · rw [hpositions e he, ← hinits, List.map_map]
      exact List.map_congr_left fun f hf ↦ hpositions f (habove f hf)
    · rw [Row.tags, henclosing, henc, List.map_map, List.map_map]
      exact congrArg (String.intercalate ",") (List.map_congr_left fun f _ ↦ (hname f).symm)

end Outline

/-- Every report has the structure of an outline, and the report along the tree shows every node
but the root once. -/
theorem rows_outlined (plan : Plan) (l : Layout) (family : Family) {rows : List Row}
    (h : Report.rows plan l.tree family = .ok rows) (hkept : ∀ t, l.kept = some t → t.Rooted) :
    Outlined rows ∧
      (family = .v6 →
        rows.map (fun r ↦ (r.name, r.cidr)) =
          (preorderAll l.tree.branches).map (fun p ↦ (p.node.name, p.node.cidr)) ∧
        ((preorderAll l.tree.branches).map Placed.place).Nodup ∧
        ∀ p, p ∈ preorderAll l.tree.branches ↔ l.tree.Holds p ∧ p.place ≠ 0) := by
  have hrooted : l.tree.Rooted := by
    unfold Layout.tree
    cases hl : l.kept with
    | none => exact NodeTree.build_rooted l.nodes
    | some t => exact hkept t hl
  cases family with
  | v6 =>
    cases h
    have hvalues := map_value_outlineFrom l.tree.branches [] [] 1
    refine ⟨outlined_map_outline _ (fun _ ↦ rfl) (fun _ ↦ rfl) fun _ ↦ rfl, fun _ ↦
      ⟨?_, hrooted.preorderAll_branches_nodup, fun p ↦ hrooted.mem_preorderAll_branches⟩⟩
    rw [ofTree, ← hvalues, List.map_map, List.map_map]
    rfl
  | v4 =>
    obtain ⟨claims, -, rfl⟩ := rows_v4_eq_ok_iff.mp h
    exact ⟨outlined_map_outline _ (fun _ ↦ rfl) (fun _ ↦ rfl) fun _ ↦ rfl, nofun⟩

/-- The gate stands below the north, but one of its blocks lies in one of the south. -/
def gateLayout : Layout where
  header := { planId := 1, name := "streets", autoFill := false, firstFinished := false }
  nodes := [
    { id := 1, name := "root" },
    { id := 2, parentId := 1, name := "north", sequence := 1, literals := "10.0.0.0/8" },
    { id := 3, parentId := 1, name := "south", sequence := 2, literals := "10.2.0.0/16" },
    { id := 4, parentId := 2, name := "gate", literals := "11.0.0.0/8,10.2.3.0/24" }]

theorem rows_outlined_gate :
    ∃ tree blocks, Report.rows ⟨1, "10.0.0.0/7", 24, none, none⟩ gateLayout.tree .v6 = .ok tree ∧
      Report.rows ⟨1, "10.0.0.0/7", 24, none, none⟩ gateLayout.tree .v4 = .ok blocks ∧
      tree.map (fun r ↦ (r.level, r.tags)) = [("1", ""), ("1.1", "north"), ("2", "")] ∧
      blocks.map (fun r ↦ (r.level, r.tags)) =
        [("1", ""), ("1.1", "north"), ("1.1.1", "north,south"), ("2", "")] ∧
      Outlined tree ∧ Outlined blocks ∧
      tree.map (fun r ↦ (r.name, r.cidr)) =
        (preorderAll gateLayout.tree.branches).map (fun p ↦ (p.node.name, p.node.cidr)) := by
  have hblocks : (Report.rows ⟨1, "10.0.0.0/7", 24, none, none⟩ gateLayout.tree .v4).map
      (·.map fun r ↦ (r.level, r.tags)) =
        .ok [("1", ""), ("1.1", "north"), ("1.1.1", "north,south"), ("2", "")] := by
    decide +kernel
  cases h : Report.rows ⟨1, "10.0.0.0/7", 24, none, none⟩ gateLayout.tree .v4 with
  | error e =>
    rw [h] at hblocks
    cases hblocks
  | ok blocks =>
    rw [h] at hblocks
    have htree := rows_outlined ⟨1, "10.0.0.0/7", 24, none, none⟩ gateLayout .v6 rfl nofun
    exact ⟨_, blocks, rfl, rfl, by decide +kernel, Except.ok.inj hblocks, htree.1,
      (rows_outlined _ gateLayout .v4 h nofun).1, (htree.2 rfl).1⟩

end Report

end AddressPlan
