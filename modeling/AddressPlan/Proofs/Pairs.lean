import AddressPlan.Order
import AddressPlan.Proofs.StepRuns
import Mathlib.Data.List.Forall2

/-!
# Two programs side by side

Two lists that correspond entry by entry are sorted, changed and gone through alike.  Two steps
go together if both are carried out, with results and states that are related, or both are
refused alike; sequences of such steps go together.
-/

namespace AddressPlan

open List Relator

namespace Order

variable {α β : Type} {R : α → β → Prop} {le : α → α → Bool} {le' : β → β → Bool}

theorem forall₂_insertBy (hle : ∀ a a' b b', R a a' → R b b' → le a b = le' a' b') {a : α}
    {a' : β} {bs : List α} {bs' : List β} (ha : R a a') (hbs : Forall₂ R bs bs') :
    Forall₂ R (insertBy le a bs) (insertBy le' a' bs') := by
  induction hbs with
  | nil => exact .cons ha .nil
  | cons hb hbs ih =>
    rw [insertBy, insertBy, hle _ _ _ _ ha hb]
    split
    · exact .cons ha (.cons hb hbs)
    · exact .cons hb ih

/-- Sorting keeps two lists side by side if their orders agree. -/
theorem forall₂_sortBy (hle : ∀ a a' b b', R a a' → R b b' → le a b = le' a' b') {as : List α}
    {as' : List β} (h : Forall₂ R as as') : Forall₂ R (sortBy le as) (sortBy le' as') := by
  induction h with
  | nil => exact .nil
  | cons ha _ ih => exact forall₂_insertBy hle ha ih

end Order

theorem forall₂_zipIdx {α β : Type} {R : α → β → Prop} {as : List α} {bs : List β}
    (h : Forall₂ R as bs) (k : Nat) :
    Forall₂ (fun x y ↦ R x.1 y.1 ∧ y.2 = x.2) (as.zipIdx k) (bs.zipIdx k) := by
  induction h generalizing k with
  | nil => exact .nil
  | cons ha _ ih => exact .cons ⟨ha, rfl⟩ (ih (k + 1))

theorem forall₂_modify {α β : Type} {R : α → β → Prop} {f : α → α} {g : β → β} {as : List α}
    {bs : List β} (hfg : ∀ a b, R a b → R (f a) (g b)) (h : Forall₂ R as bs) (i : Nat) :
    Forall₂ R (as.modify i f) (bs.modify i g) := by
  induction h generalizing i with
  | nil =>
    rw [modify_nil, modify_nil]
    exact .nil
  | cons ha hrest ih =>
    cases i with
    | zero => exact .cons (hfg _ _ ha) hrest
    | succ i => exact .cons ha (ih i)

theorem forall₂_set {α β : Type} {R : α → β → Prop} {a : α} {b : β} {as : List α} {bs : List β}
    (h : Forall₂ R as bs) (hab : R a b) (i : Nat) : Forall₂ R (as.set i a) (bs.set i b) := by
  rw [set_eq_modify, set_eq_modify]
  exact forall₂_modify (fun _ _ _ ↦ hab) h i

section Tests

variable {α β : Type} {R : α → β → Prop} {as : List α} {bs : List β} {p : α → Bool} {q : β → Bool}
  (hpq : ∀ a b, R a b → q b = p a) (h : Forall₂ R as bs)

include h in
theorem exists_right_of_forall₂ {a : α} (ha : a ∈ as) : ∃ b ∈ bs, R a b := by
  induction h with
  | nil => cases ha
  | cons hab _ ih =>
    rcases mem_cons.mp ha with rfl | ha
    · exact ⟨_, mem_cons_self, hab⟩
    · obtain ⟨b, hb, hab⟩ := ih ha
      exact ⟨b, mem_cons_of_mem _ hb, hab⟩

include hpq h

theorem forall₂_filter : Forall₂ R (as.filter p) (bs.filter q) := by
  refine rel_filter (fun a b hab ↦ ?_) h
  dsimp only
  rw [hpq a b hab]

theorem forall₂_find? : Option.Rel R (as.find? p) (bs.find? q) := by
  induction h with
  | nil => exact .none
  | cons hab _ ih =>
    rw [find?_cons, find?_cons, hpq _ _ hab]
    split
    · exact .some hab
    · exact ih

theorem any_eq_of_forall₂ : bs.any q = as.any p := by
  induction h with
  | nil => rfl
  | cons hab _ ih => rw [any_cons, any_cons, hpq _ _ hab, ih]

end Tests

theorem forall₂_both {α β : Type} {R S : α → β → Prop} {as : List α} {bs : List β}
    (hR : Forall₂ R as bs) (hS : Forall₂ S as bs) : Forall₂ (fun a b ↦ R a b ∧ S a b) as bs :=
  forall₂_iff_zip.mpr ⟨hR.length_eq, fun hmem ↦ ⟨forall₂_zip hR hmem, forall₂_zip hS hmem⟩⟩

theorem forall₂_iff_eq_map {α β : Type} {f : α → β} {as : List α} {bs : List β} :
    Forall₂ (fun a b ↦ b = f a) as bs ↔ bs = as.map f := by
  constructor
  · intro h
    induction h with
    | nil => rfl
    | cons hb _ ih => rw [map_cons, hb, ih]
  · rintro rfl
    exact forall₂_map_right_iff.mpr (forall₂_same.mpr fun _ _ ↦ rfl)

theorem isEmpty_eq_of_forall₂ {α β : Type} {R : α → β → Prop} {as : List α} {bs : List β}
    (h : Forall₂ R as bs) : bs.isEmpty = as.isEmpty := by
  cases h <;> rfl

theorem forall₂_getElem? {α β : Type} {R : α → β → Prop} {as : List α} {bs : List β}
    (h : Forall₂ R as bs) (i : Nat) : Option.Rel R as[i]? bs[i]? := by
  induction h generalizing i with
  | nil => exact .none
  | cons hab _ ih =>
    cases i with
    | zero => exact .some hab
    | succ i => exact ih i

theorem forall₂_of_getElem? {α β : Type} {R : α → β → Prop} {as : List α} {bs : List β}
    (h : ∀ i : Nat, Option.Rel R as[i]? bs[i]?) : Forall₂ R as bs := by
  induction as generalizing bs with
  | nil =>
    cases bs with
    | nil => exact .nil
    | cons b bs => cases h 0
  | cons a as ih =>
    cases bs with
    | nil => cases h 0
    | cons b bs =>
      cases h 0 with
      | some hab => exact .cons hab (ih fun i ↦ h (i + 1))

theorem optionRel_map {α β γ δ : Type} {R : α → β → Prop} {S : γ → δ → Prop} {f : α → γ}
    {g : β → δ} (hfg : ∀ a b, R a b → S (f a) (g b)) {o : Option α} {o' : Option β}
    (h : Option.Rel R o o') : Option.Rel S (o.map f) (o'.map g) := by
  cases h with
  | none => exact .none
  | some hab => exact .some (hfg _ _ hab)

theorem optionRel_imp {α β : Type} {R S : α → β → Prop} (hRS : ∀ a b, R a b → S a b)
    {o : Option α} {o' : Option β} (h : Option.Rel R o o') : Option.Rel S o o' := by
  cases h with
  | none => exact .none
  | some hab => exact .some (hRS _ _ hab)

theorem optionRel_comp {α β γ : Type} {R : α → β → Prop} {S : β → γ → Prop} {T : α → γ → Prop}
    (hT : ∀ a b c, R a b → S b c → T a c) {o : Option α} {o' : Option β} {o'' : Option γ}
    (h : Option.Rel R o o') (h' : Option.Rel S o' o'') : Option.Rel T o o'' := by
  cases h with
  | none =>
    cases h'
    exact .none
  | some hab =>
    cases h' with
    | some hbc => exact .some (hT _ _ _ hab hbc)

theorem biUnique_flip {P : Int → Int → Prop} (hP : BiUnique P) : BiUnique (flip P) :=
  ⟨fun _ _ _ h h' ↦ hP.2 h h', fun _ _ _ h h' ↦ hP.1 h h'⟩

theorem beq_eq_of_pairs {P : Int → Int → Prop} (hP : BiUnique P) {a a' b b' : Int} (ha : P a a')
    (hb : P b b') : (a' == b') = (a == b) := by
  rw [Bool.eq_iff_iff, beq_iff_eq, beq_iff_eq]
  exact (rel_eq hP ha hb).symm

/-! ## Outcomes -/

/-- Both are carried out, with results that are related, or both are refused alike. -/
inductive SameOutcome {ε α β : Type} (R : α → β → Prop) : Except ε α → Except ε β → Prop where
  | ok {a : α} {b : β} (h : R a b) : SameOutcome R (.ok a) (.ok b)
  | error (e : ε) : SameOutcome R (.error e) (.error e)

namespace SameOutcome

variable {ε α β γ δ : Type} {R : α → β → Prop} {S : γ → δ → Prop}

theorem bind {x : Except ε α} {y : Except ε β} {f : α → Except ε γ} {g : β → Except ε δ}
    (h : SameOutcome R x y) (hfg : ∀ a b, R a b → SameOutcome S (f a) (g b)) :
    SameOutcome S (x >>= f) (y >>= g) := by
  cases h with
  | ok hab => exact hfg _ _ hab
  | error e => exact .error e

theorem foldlM {f : γ → α → Except ε γ} {g : δ → β → Except ε δ} {as : List α} {bs : List β}
    (hfg : ∀ c d a b, S c d → R a b → SameOutcome S (f c a) (g d b)) (h : Forall₂ R as bs)
    {c : γ} {d : δ} (hcd : S c d) : SameOutcome S (as.foldlM f c) (bs.foldlM g d) := by
  induction h generalizing c d with
  | nil => exact .ok hcd
  | cons hab _ ih =>
    rw [foldlM_cons, foldlM_cons]
    exact (hfg _ _ _ _ hcd hab).bind fun _ _ ↦ ih

end SameOutcome

namespace Step

variable {σ τ α β γ δ : Type}

/-- From `s` and `t` both steps are carried out, with results and states in `post`, or both are
refused alike, with states in `refused`. -/
inductive Together (m : Step σ α) (m' : Step τ β) (post : α → σ → β → τ → Prop)
    (refused : σ → τ → Prop) (s : σ) (t : τ) : Prop where
  | carried {a : α} {b : β} {s' : σ} {t' : τ} (h : m.run s = (.ok a, s'))
    (h' : m'.run t = (.ok b, t')) (hpost : post a s' b t')
  | refused {e : PlanError} {s' : σ} {t' : τ} (h : m.run s = (.error e, s'))
    (h' : m'.run t = (.error e, t')) (hrefused : refused s' t')

namespace Together

variable {m : Step σ α} {m' : Step τ β} {post : α → σ → β → τ → Prop} {refused : σ → τ → Prop}
  {s : σ} {t : τ}

theorem imp {post' : α → σ → β → τ → Prop} (h : Together m m' post refused s t)
    (hpost : ∀ a s b t, post a s b t → post' a s b t) : Together m m' post' refused s t := by
  cases h with
  | carried h h' hp => exact .carried h h' (hpost _ _ _ _ hp)
  | refused h h' hr => exact .refused h h' hr

theorem imp_refused {refused' : σ → τ → Prop} (h : Together m m' post refused s t)
    (hrefused : ∀ s t, refused s t → refused' s t) : Together m m' post refused' s t := by
  cases h with
  | carried h h' hp => exact .carried h h' hp
  | refused h h' hr => exact .refused h h' (hrefused _ _ hr)

theorem pure {a : α} {b : β} (h : post a s b t) :
    Together (pure a) (pure b) post refused s t :=
  .carried rfl rfl h

theorem get {f : σ → Step σ γ} {g : τ → Step τ δ} {post : γ → σ → δ → τ → Prop}
    (h : Together (f s) (g t) post refused s t) :
    Together (get >>= f) (get >>= g) post refused s t := by
  cases h with
  | carried h h' hpost => exact .carried h h' hpost
  | refused h h' hrefused => exact .refused h h' hrefused

theorem modify (f : σ → σ) (g : τ → τ) :
    Together (modify f) (modify g) (fun _ s' _ t' ↦ s' = f s ∧ t' = g t) refused s t :=
  .carried rfl rfl ⟨rfl, rfl⟩

theorem refuse {e : PlanError} (h : refused s t) :
    Together (Step.refuse e) (Step.refuse e) post refused s t :=
  .refused rfl rfl h

theorem after {f : α → Step σ γ} {g : β → Step τ δ} {a : α} {b : β} {s' : σ} {t' : τ}
    {post : γ → σ → δ → τ → Prop} (h : m.run s = (.ok a, s')) (h' : m'.run t = (.ok b, t'))
    (hfg : Together (f a) (g b) post refused s' t') :
    Together (m >>= f) (m' >>= g) post refused s t := by
  cases hfg with
  | carried hf hg hpost =>
    exact .carried ((run_bind_ok h).trans hf) ((run_bind_ok h').trans hg) hpost
  | refused hf hg hr => exact .refused ((run_bind_ok h).trans hf) ((run_bind_ok h').trans hg) hr

theorem ofExcept {r : Except PlanError α} {f : α → Step σ γ} {g : α → Step τ δ}
    {post : γ → σ → δ → τ → Prop} (herror : refused s t)
    (hfg : ∀ a, r = .ok a → Together (f a) (g a) post refused s t) :
    Together (Step.ofExcept r >>= f) (Step.ofExcept r >>= g) post refused s t := by
  cases r with
  | ok a => exact (hfg a rfl).after rfl rfl
  | error e => exact .refused rfl rfl herror

theorem congr_run {n : Step σ α} {n' : Step τ β} (hm : m.run s = n.run s)
    (hm' : m'.run t = n'.run t) (h : Together n n' post refused s t) :
    Together m m' post refused s t := by
  cases h with
  | carried h h' hpost => exact .carried (hm.trans h) (hm'.trans h') hpost
  | refused h h' hrefused => exact .refused (hm.trans h) (hm'.trans h') hrefused

theorem of_fst_eq {m : Step σ α} {m' : Step τ α} {post : α → σ → α → τ → Prop}
    (h : (m'.run t).1 = (m.run s).1) (hpost : ∀ a, post a (m.run s).2 a (m'.run t).2)
    (hrefused : refused (m.run s).2 (m'.run t).2) : Together m m' post refused s t := by
  rcases hm : m.run s with ⟨r, s'⟩
  rcases hm' : m'.run t with ⟨r', t'⟩
  rw [hm, hm'] at h hpost hrefused
  obtain rfl : r' = r := h
  cases r' with
  | ok a => exact .carried hm hm' (hpost a)
  | error e => exact .refused hm hm' hrefused

theorem same (m : Step σ α) (s : σ) : Together m m (fun a s' b t' ↦ b = a ∧ t' = s')
    (fun s' t' ↦ t' = s' ∧ ∃ e, m.run s = (.error e, s')) s s := by
  rcases hm : m.run s with ⟨r, s'⟩
  cases r with
  | ok a => exact .carried hm hm ⟨rfl, rfl⟩
  | error e => exact .refused hm hm ⟨rfl, e, rfl⟩

/-- What is carried out may be looked at again. -/
theorem and_run (h : Together m m' post refused s t) :
    Together m m' (fun a s' b t' ↦ post a s' b t' ∧ m.run s = (.ok a, s') ∧
      m'.run t = (.ok b, t')) refused s t := by
  cases h with
  | carried h h' hpost => exact .carried h h' ⟨hpost, h, h'⟩
  | refused h h' hrefused => exact .refused h h' hrefused

theorem bind {f : α → Step σ γ} {g : β → Step τ δ} {post' : γ → σ → δ → τ → Prop}
    (h : Together m m' post refused s t)
    (hfg : ∀ a s' b t', post a s' b t' → Together (f a) (g b) post' refused s' t') :
    Together (m >>= f) (m' >>= g) post' refused s t := by
  cases h with
  | carried h h' hp => exact (hfg _ _ _ _ hp).after h h'
  | refused h h' hr => exact .refused (run_bind_error h) (run_bind_error h') hr

theorem foldlM {f : γ → α → Step σ γ} {g : δ → β → Step τ δ} {R : α → β → Prop}
    (inv : List α → γ → σ → δ → τ → Prop)
    (hfg : ∀ a as b c s d t, R a b → inv (a :: as) c s d t →
      Together (f c a) (g d b) (inv as) refused s t)
    {as : List α} {bs : List β} (h : Forall₂ R as bs) {c : γ} {d : δ} {s : σ} {t : τ}
    (hinv : inv as c s d t) :
    Together (as.foldlM f c) (bs.foldlM g d) (inv []) refused s t := by
  induction h generalizing c d s t with
  | nil => exact .pure hinv
  | cons hab _ ih =>
    rw [foldlM_cons, foldlM_cons]
    exact (hfg _ _ _ _ _ _ _ hab hinv).bind fun _ _ _ _ ↦ ih

theorem forM {f : α → Step σ PUnit} {g : α → Step τ PUnit} (inv : List α → σ → τ → Prop)
    (hfg : ∀ a as s t, inv (a :: as) s t →
      Together (f a) (g a) (fun _ s _ t ↦ inv as s t) refused s t)
    (as : List α) {s : σ} {t : τ} (hinv : inv as s t) :
    Together (as.forM f) (as.forM g) (fun _ s _ t ↦ inv [] s t) refused s t := by
  induction as generalizing s t with
  | nil => exact .pure hinv
  | cons a as ih => exact (hfg a as s t hinv).bind fun _ _ _ _ ↦ ih

section Halves

variable {ρ ρ' : Type} {p : ρ × σ} {q : ρ' × τ} {f : γ → Step (ρ × σ) α} {g : δ → Step (ρ' × τ) β}
  {post : α → ρ × σ → β → ρ' × τ → Prop} {refused : ρ × σ → ρ' × τ → Prop}

theorem first {m : Step ρ γ} {m' : Step ρ' δ} {post' : γ → ρ → δ → ρ' → Prop}
    (h : Together m m' post' (fun s t ↦ refused (s, p.2) (t, q.2)) p.1 q.1)
    (hfg : ∀ a s b t, post' a s b t → Together (f a) (g b) post refused (s, p.2) (t, q.2)) :
    Together (m.first >>= f) (m'.first >>= g) post refused p q := by
  cases h with
  | carried h h' hpost =>
    have hp : m.first.run p = (.ok _, (_, p.2)) := run_first_eq_ok_iff.mpr ⟨h, rfl⟩
    have hq : m'.first.run q = (.ok _, (_, q.2)) := run_first_eq_ok_iff.mpr ⟨h', rfl⟩
    exact (hfg _ _ _ _ hpost).after hp hq
  | @refused e s t h h' hrefused =>
    have hp : m.first.run p = (.error e, (s, p.2)) := by rw [run_first, h]
    have hq : m'.first.run q = (.error e, (t, q.2)) := by rw [run_first, h']
    exact .refused (run_bind_error hp) (run_bind_error hq) hrefused

theorem second {m : Step σ γ} {m' : Step τ δ} {post' : γ → σ → δ → τ → Prop}
    (h : Together m m' post' (fun s t ↦ refused (p.1, s) (q.1, t)) p.2 q.2)
    (hfg : ∀ a s b t, post' a s b t → Together (f a) (g b) post refused (p.1, s) (q.1, t)) :
    Together (m.second >>= f) (m'.second >>= g) post refused p q := by
  cases h with
  | carried h h' hpost =>
    have hp : m.second.run p = (.ok _, (p.1, _)) := run_second_eq_ok_iff.mpr ⟨h, rfl⟩
    have hq : m'.second.run q = (.ok _, (q.1, _)) := run_second_eq_ok_iff.mpr ⟨h', rfl⟩
    exact (hfg _ _ _ _ hpost).after hp hq
  | @refused e s t h h' hrefused =>
    have hp : m.second.run p = (.error e, (p.1, s)) := by rw [run_second, h]
    have hq : m'.second.run q = (.error e, (q.1, t)) := by rw [run_second, h']
    exact .refused (run_bind_error hp) (run_bind_error hq) hrefused

end Halves

/-- A transaction changes nothing if what is refused leaves the second half alone anyway. -/
theorem transaction {ρ ρ' : Type} {m : Step (ρ × σ) α} {m' : Step (ρ' × τ) β} {p : ρ × σ}
    {q : ρ' × τ} {post : α → ρ × σ → β → ρ' × τ → Prop} {refused : ρ × σ → ρ' × τ → Prop}
    (h : Together m m' post refused p q) (hback : ∀ p' q', refused p' q' → q'.2 = q.2) :
    Together m m'.transaction post refused p q := by
  cases h with
  | carried h h' hpost => exact .carried h (run_transaction_ok h') hpost
  | refused h h' hrefused =>
    have hrun := run_transaction_error h'
    rw [← hback _ _ hrefused] at hrun
    exact .refused h hrun hrefused

end Together

end Step

end AddressPlan
