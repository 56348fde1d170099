/-!
# Loops that end

A loop goes on as long as there is a next state.  `Loop` relates a state to the one in which the
loop that starts there comes to an end; where it never ends there is none.
-/

namespace AddressPlan

/-- A loop that goes on as long as there is a next state comes to an end in the second state. -/
inductive Loop {α : Type} (next : α → Option α) : α → α → Prop
  | done {a : α} (h : next a = none) : Loop next a a
  | step {a b c : α} (h : next a = some b) (hrest : Loop next b c) : Loop next a c

theorem Loop.eq_of_done {α : Type} {next : α → Option α} {a b : α} (h : Loop next a b)
    (hdone : next a = none) : b = a := by
  cases h with
  | done => rfl
  | step hnext =>
    rw [hdone] at hnext
    cases hnext

end AddressPlan
