import AddressPlan.Step

/-!
# Runs of steps

A sequence is carried out exactly if both of its parts are.  A property of the state
that every part keeps, carried out or refused, is kept by the whole.  `Step.Ends` tells the two
outcomes apart.
-/

namespace AddressPlan

theorem bind_eq_ok_iff {ε α β : Type} {x : Except ε α} {f : α → Except ε β} {b : β} :
    x >>= f = .ok b ↔ ∃ a, x = .ok a ∧ f a = .ok b := by
  cases x with
  | error e =>
    refine iff_of_false (fun h ↦ ?_) ?_
    · cases h
    · rintro ⟨a, h, -⟩
      cases h
  | ok a =>
    constructor
    · intro h
      exact ⟨a, rfl, h⟩
    · rintro ⟨a', ha, h⟩
      cases ha
      exact h

theorem bind_eq_error_iff {ε α β : Type} {x : Except ε α} {f : α → Except ε β} {e : ε} :
    x >>= f = .error e ↔ x = .error e ∨ ∃ a, x = .ok a ∧ f a = .error e := by
  cases x with
  | error e' =>
    refine ⟨fun h ↦ Or.inl ?_, ?_⟩
    · cases h
      rfl
    · rintro (h | ⟨a, h, -⟩)
      · cases h
        rfl
      · cases h
  | ok a =>
    constructor
    · intro h
      exact Or.inr ⟨a, rfl, h⟩
    · rintro (h | ⟨a', ha, h⟩)
      · cases h
      · cases ha
        exact h

namespace Step

variable {σ τ α β : Type}

theorem run_bind_eq_ok_iff {m : Step σ α} {f : α → Step σ β} {s s' : σ} {b : β} :
    (m >>= f).run s = (.ok b, s') ↔
      ∃ a s₁, m.run s = (.ok a, s₁) ∧ (f a).run s₁ = (.ok b, s') := by
  rw [run_bind]
  rcases m.run s with ⟨r, s₁⟩
  cases r with
  | ok a =>
    constructor
    · intro h
      exact ⟨a, s₁, rfl, h⟩
    · rintro ⟨a', s₁', hm, h⟩
      cases hm
      exact h
  | error e => simp

theorem run_second_eq_ok_iff {m : Step τ α} {p p' : σ × τ} {a : α} :
    m.second.run p = (.ok a, p') ↔ m.run p.2 = (.ok a, p'.2) ∧ p'.1 = p.1 := by
  rw [run_second]
  rcases m.run p.2 with ⟨r, t⟩
  rcases p' with ⟨s', t'⟩
  constructor
  · rintro ⟨rfl, rfl, rfl⟩
    exact ⟨rfl, rfl⟩
  · rintro ⟨h, rfl⟩
    cases h
    rfl

theorem run_first_eq_ok_iff {m : Step σ α} {p p' : σ × τ} {a : α} :
    m.first.run p = (.ok a, p') ↔ m.run p.1 = (.ok a, p'.1) ∧ p'.2 = p.2 := by
  rw [run_first]
  rcases m.run p.1 with ⟨r, s⟩
  rcases p' with ⟨s', t'⟩
  constructor
  · rintro ⟨rfl, rfl, rfl⟩
    exact ⟨rfl, rfl⟩
  · rintro ⟨h, rfl⟩
    cases h
    rfl

theorem run_transaction_ok {m : Step (σ × τ) α} {p p' : σ × τ} {a : α}
    (h : m.run p = (.ok a, p')) : m.transaction.run p = (.ok a, p') := by
  unfold run transaction at *
  dsimp only
  rw [h]

theorem run_transaction_error {m : Step (σ × τ) α} {p p' : σ × τ} {e : PlanError}
    (h : m.run p = (.error e, p')) : m.transaction.run p = (.error e, (p'.1, p.2)) := by
  unfold run transaction at *
  dsimp only
  rw [h]

/-- Two steps on the first half are one. -/
theorem first_bind_first (m : Step σ Unit) (n : Step σ α) (f : α → Step (σ × τ) β) :
    (do m.first; let a ← n.first; f a) = (do let a ← (do m; n).first; f a) := by
  funext p
  change Step.run _ p = Step.run _ p
  simp only [run_bind, run_first]
  rcases m.run p.1 with ⟨r, s⟩
  cases r <;> rfl

theorem run_eq_mk_of_fst {m : Step σ α} {s : σ} {r : Except PlanError α}
    (h : (m.run s).1 = r) : m.run s = (r, (m.run s).2) :=
  Prod.ext h rfl

/-- A run on a pair, given by its own outcome. -/
theorem run_eq_of_fst {m : Step (σ × τ) α} {p : σ × τ} {r : Except PlanError α}
    (h : (m.run p).1 = r) : m.run p = (r, ((m.run p).2.1, (m.run p).2.2)) :=
  Prod.ext h rfl

theorem run_eq_ok_of_fst {m : Step (σ × τ) α} {p : σ × τ} {a : α} (h : (m.run p).1 = .ok a) :
    m.run p = (.ok a, ((m.run p).2.1, (m.run p).2.2)) :=
  run_eq_of_fst h

/-- Whatever `m` does, `P` holds behind it if it held before. -/
def Keeps (P : σ → Prop) (m : Step σ α) : Prop :=
  ∀ s, P s → P (m.run s).2

namespace Keeps

variable {P : σ → Prop} {Q : τ → Prop}

theorem of_run {m : Step σ α} {s s' : σ} {r : Except PlanError α} (hm : Keeps P m) (hs : P s)
    (hrun : m.run s = (r, s')) : P s' := by
  have hkept := hm s hs
  rwa [hrun] at hkept

theorem pure (a : α) : Keeps P (pure a) := fun _ h ↦ h

theorem refuse (e : PlanError) : Keeps P (refuse e : Step σ α) := fun _ h ↦ h

theorem ofExcept (r : Except PlanError α) : Keeps P (ofExcept r) := fun _ h ↦ h

theorem get : Keeps P get := fun _ h ↦ h

theorem modify {f : σ → σ} (hf : ∀ s, P s → P (f s)) : Keeps P (modify f) := hf

theorem bind {m : Step σ α} {f : α → Step σ β} (hm : Keeps P m) (hf : ∀ a, Keeps P (f a)) :
    Keeps P (m >>= f) := by
  intro s hs
  have hm' := hm s hs
  rw [run_bind]
  rcases h : m.run s with ⟨r, s₁⟩
  rw [h] at hm'
  cases r with
  | ok a => exact hf a s₁ hm'
  | error e => exact hm'

/-- What follows need only keep the property behind what was carried out. -/
theorem bind_of {m : Step σ α} {f : α → Step σ β} (hm : Keeps P m)
    (hf : ∀ s a s', P s → m.run s = (.ok a, s') → P ((f a).run s').2) : Keeps P (m >>= f) := by
  intro s hs
  have hm' := hm s hs
  rw [run_bind]
  rcases h : m.run s with ⟨r, s₁⟩
  rw [h] at hm'
  cases r with
  | ok a => exact hf s a s₁ hs h
  | error e => exact hm'

theorem foldlM {f : β → α → Step σ β} (hf : ∀ b a, Keeps P (f b a)) (as : List α) :
    ∀ b, Keeps P (as.foldlM f b) := by
  induction as with
  | nil => exact fun b ↦ pure b
  | cons a as ih =>
    intro b
    rw [List.foldlM_cons]
    exact bind (hf b a) ih

theorem forM {f : α → Step σ PUnit} (hf : ∀ a, Keeps P (f a)) (as : List α) :
    Keeps P (as.forM f) := by
  induction as with
  | nil => exact pure _
  | cons a as ih => exact bind (hf a) fun _ ↦ ih

theorem first (m : Step σ α) : Keeps (fun p : σ × τ ↦ Q p.2) m.first := fun _ h ↦ h

theorem first_fst {m : Step σ α} (hm : Keeps P m) : Keeps (fun p : σ × τ ↦ P p.1) m.first :=
  fun p h ↦ hm p.1 h

theorem second_fst (m : Step τ α) : Keeps (fun p : σ × τ ↦ P p.1) m.second := fun _ h ↦ h

theorem second {m : Step τ α} (hm : Keeps Q m) : Keeps (fun p : σ × τ ↦ Q p.2) m.second :=
  fun p h ↦ hm p.2 h

end Keeps

/-- Begun with `P`, `m` ends with `post` if it is carried out and with `refused` if not. -/
def Ends (P : σ → Prop) (m : Step σ α) (post : α → σ → Prop) (refused : PlanError → σ → Prop) :
    Prop :=
  ∀ s, P s → match m.run s with
    | (.ok a, s') => post a s'
    | (.error e, s') => refused e s'

theorem Keeps.ends {P : σ → Prop} {m : Step σ α} (h : Keeps P m) :
    Ends P m (fun _ ↦ P) (fun _ ↦ P) := by
  intro s hs
  have hkept := h s hs
  rcases hm : m.run s with ⟨r, s'⟩
  rw [hm] at hkept
  cases r with
  | ok a => exact hkept
  | error e => exact hkept

namespace Ends

variable {P : σ → Prop} {Q : τ → Prop} {m : Step σ α} {f : α → Step σ β} {post : α → σ → Prop}
  {post' : β → σ → Prop} {refused : PlanError → σ → Prop} {s s' : σ}

theorem of_error {e : PlanError} (h : Ends P m post refused) (hs : P s)
    (hrun : m.run s = (.error e, s')) : refused e s' := by
  have hend := h s hs
  rwa [hrun] at hend

theorem imp {P₁ : σ → Prop} {post₁ : α → σ → Prop} {refused₁ : PlanError → σ → Prop}
    (h : Ends P m post refused) (hP : ∀ s, P₁ s → P s) (hpost : ∀ a s, post a s → post₁ a s)
    (hrefused : ∀ e s, refused e s → refused₁ e s) : Ends P₁ m post₁ refused₁ := by
  intro s hs
  have hend := h s (hP s hs)
  rcases hm : m.run s with ⟨r, s'⟩
  rw [hm] at hend
  cases r with
  | ok a => exact hpost a s' hend
  | error e => exact hrefused e s' hend

theorem and_keeps {Q : σ → Prop} (h : Ends P m post refused) (hkeeps : Keeps Q m) :
    Ends (fun s ↦ P s ∧ Q s) m (fun a s ↦ post a s ∧ Q s) (fun e s ↦ refused e s ∧ Q s) := by
  intro s hs
  have hend := h s hs.1
  have hkept := hkeeps s hs.2
  rcases hm : m.run s with ⟨r, s'⟩
  rw [hm] at hend hkept
  cases r with
  | ok a => exact ⟨hend, hkept⟩
  | error e => exact ⟨hend, hkept⟩

theorem pure {a : α} (h : ∀ s, P s → post a s) : Ends P (pure a) post refused := h

theorem refuse {e : PlanError} (h : ∀ s, P s → refused e s) :
    Ends P (refuse e : Step σ α) post refused := h

theorem bind (hm : Ends P m post refused) (hf : ∀ a, Ends (post a) (f a) post' refused) :
    Ends P (m >>= f) post' refused := by
  intro s hs
  have hend := hm s hs
  rw [run_bind]
  rcases h : m.run s with ⟨r, s₁⟩
  rw [h] at hend
  cases r with
  | ok a => exact hf a s₁ hend
  | error e => exact hend

theorem get {f : σ → Step σ β} (h : ∀ s, Ends P (f s) post' refused) :
    Ends P (get >>= f) post' refused :=
  fun s hs ↦ h s s hs

theorem foldlM {f : β → α → Step σ β} (as : List α)
    (hf : ∀ b a, Ends P (f b a) (fun _ ↦ P) refused) :
    ∀ b, Ends P (as.foldlM f b) (fun _ ↦ P) refused := by
  induction as with
  | nil => exact fun b ↦ pure fun _ hs ↦ hs
  | cons a as ih =>
    intro b
    rw [List.foldlM_cons]
    exact (hf b a).bind ih

theorem forM {f : α → Step σ PUnit} (as : List α) (hf : ∀ a, Ends P (f a) (fun _ ↦ P) refused) :
    Ends P (as.forM f) (fun _ ↦ P) refused := by
  induction as with
  | nil => exact pure fun _ hs ↦ hs
  | cons a as ih => exact (hf a).bind fun _ ↦ ih

theorem first (h : Ends P m post refused) :
    Ends (fun p : σ × τ ↦ P p.1 ∧ Q p.2) m.first (fun a p ↦ post a p.1 ∧ Q p.2)
      (fun e p ↦ refused e p.1 ∧ Q p.2) := by
  rintro ⟨s, t⟩ ⟨hs, ht⟩
  have hend := h s hs
  rw [run_first]
  rcases hm : m.run s with ⟨r, s'⟩
  rw [hm] at hend
  cases r with
  | ok a => exact ⟨hend, ht⟩
  | error e => exact ⟨hend, ht⟩

theorem second {m : Step τ α} {post : α → τ → Prop} {refused : PlanError → τ → Prop}
    (h : Ends Q m post refused) :
    Ends (fun p : σ × τ ↦ P p.1 ∧ Q p.2) m.second (fun a p ↦ P p.1 ∧ post a p.2)
      (fun e p ↦ P p.1 ∧ refused e p.2) := by
  rintro ⟨s, t⟩ ⟨hs, ht⟩
  have hend := h t ht
  rw [run_second]
  rcases hm : m.run t with ⟨r, t'⟩
  rw [hm] at hend
  cases r with
  | ok a => exact ⟨hs, hend⟩
  | error e => exact ⟨hs, hend⟩

end Ends

end Step

end AddressPlan
