import AddressPlan.Error

/-!
# Steps

A step works on a state and may be refused.  What it changed before the refusal
stays changed; only a transaction goes back.
-/

namespace AddressPlan

def Step (σ α : Type) : Type :=
  σ → Except PlanError α × σ

namespace Step

variable {σ τ α β : Type}

def run (m : Step σ α) (s : σ) : Except PlanError α × σ :=
  m s

protected def bind (m : Step σ α) (f : α → Step σ β) : Step σ β := fun s ↦
  match m s with
  | (.ok a, s) => f a s
  | (.error e, s) => (.error e, s)

instance : Monad (Step σ) where
  pure a := fun s ↦ (.ok a, s)
  bind := Step.bind

def refuse (e : PlanError) : Step σ α := fun s ↦ (.error e, s)

def get : Step σ σ := fun s ↦ (.ok s, s)

def modify (f : σ → σ) : Step σ Unit := fun s ↦ (.ok (), f s)

/-- A decision that does not look at the state. -/
def ofExcept (r : Except PlanError α) : Step σ α := fun s ↦ (r, s)

def first (m : Step σ α) : Step (σ × τ) α := fun (s, t) ↦
  let (r, s) := m s
  (r, (s, t))

def second (m : Step τ α) : Step (σ × τ) α := fun (s, t) ↦
  let (r, t) := m t
  (r, (s, t))

/-- Undoes what a refused step did to the second half of the state. -/
def transaction (m : Step (σ × τ) α) : Step (σ × τ) α := fun (s, t) ↦
  match m (s, t) with
  | (.ok a, s) => (.ok a, s)
  | (.error e, (s, _)) => (.error e, (s, t))

@[simp] theorem run_pure (a : α) (s : σ) : (pure a : Step σ α).run s = (.ok a, s) := rfl

@[simp] theorem run_refuse (e : PlanError) (s : σ) :
    (refuse e : Step σ α).run s = (.error e, s) := rfl

@[simp] theorem run_get (s : σ) : get.run s = (.ok s, s) := rfl

@[simp] theorem run_modify (f : σ → σ) (s : σ) : (modify f).run s = (.ok (), f s) := rfl

@[simp] theorem run_ofExcept (r : Except PlanError α) (s : σ) :
    (ofExcept r).run s = (r, s) := rfl

@[simp] theorem run_first (m : Step σ α) (s : σ × τ) :
    m.first.run s = ((m.run s.1).1, (m.run s.1).2, s.2) := rfl

@[simp] theorem run_second (m : Step τ α) (s : σ × τ) :
    m.second.run s = ((m.run s.2).1, s.1, (m.run s.2).2) := rfl

theorem run_bind (m : Step σ α) (f : α → Step σ β) (s : σ) :
    (m >>= f).run s =
      match m.run s with
      | (.ok a, s) => (f a).run s
      | (.error e, s) => (.error e, s) := rfl

theorem run_bind_ok {m : Step σ α} {f : α → Step σ β} {s s' : σ} {a : α}
    (h : m.run s = (.ok a, s')) : (m >>= f).run s = (f a).run s' := by
  rw [run_bind, h]

theorem run_bind_error {m : Step σ α} {f : α → Step σ β} {s s' : σ} {e : PlanError}
    (h : m.run s = (.error e, s')) : (m >>= f).run s = (.error e, s') := by
  rw [run_bind, h]

instance : LawfulMonad (Step σ) :=
  LawfulMonad.mk' (Step σ)
    (fun m ↦ by
      funext s
      change (match m s with
        | (.ok a, s) => (.ok a, s)
        | (.error e, s) => (.error e, s)) = m s
      rcases m s with ⟨r, s'⟩
      cases r <;> rfl)
    (fun _ _ ↦ rfl)
    (fun m f g ↦ by
      funext s
      change Step.bind (Step.bind m f) g s = Step.bind m (fun a ↦ Step.bind (f a) g) s
      unfold Step.bind
      rcases m s with ⟨r, s'⟩
      cases r <;> rfl)

theorem transaction_snd_of_error {m : Step (σ × τ) α} {s : σ × τ} {e : PlanError}
    (h : (m.transaction.run s).1 = .error e) : (m.transaction.run s).2.2 = s.2 := by
  unfold run transaction at *
  rcases s with ⟨s, t⟩
  dsimp only at *
  rcases hm : m (s, t) with ⟨r, s', t'⟩
  rw [hm] at h
  cases r with
  | ok a => cases h
  | error e => rfl

end Step

end AddressPlan
