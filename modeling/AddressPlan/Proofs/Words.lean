import AddressPlan.Word
import Mathlib.Data.Nat.Bitwise

/-!
# Arithmetic on words

Wrapping around leaves a number alone that is a word.  An operation on words that may fail has a
result if the result is a word and every shift is shorter than the word, and then it is the result
in numbers.
-/

namespace AddressPlan.Word

variable {bits a b amount n : Nat}

/-! ## Wrapping around -/

theorem wrap_eq {n : Int} (hn : 0 ≤ n) (h : n < (2 ^ bits : Nat)) : wrap bits n = n.toNat :=
  congrArg Int.toNat (Int.emod_eq_of_lt hn h)

theorem wrap_lt (bits : Nat) (n : Int) : wrap bits n < 2 ^ bits := by
  have hpos : (0 : Int) < (2 ^ bits : Nat) := Int.natCast_pos.mpr (Nat.two_pow_pos bits)
  have hlt := Int.emod_lt_of_pos n hpos
  have hnonneg := Int.emod_nonneg n (Int.ne_of_gt hpos)
  change (n % (2 ^ bits : Nat)).toNat < _
  omega

theorem wrap_wrap {width : Nat} (h : width ≤ bits) (n : Int) :
    wrap width (wrap bits n) = wrap width n := by
  have hpos : (0 : Int) < (2 ^ bits : Nat) := Int.natCast_pos.mpr (Nat.two_pow_pos bits)
  have hdvd : ((2 ^ width : Nat) : Int) ∣ (2 ^ bits : Nat) :=
    Int.natCast_dvd_natCast.mpr (Nat.pow_dvd_pow 2 h)
  have hcast : (wrap bits n : Int) = n % (2 ^ bits : Nat) :=
    Int.toNat_of_nonneg (Int.emod_nonneg n (Int.ne_of_gt hpos))
  rw [wrap, hcast]
  exact congrArg Int.toNat (Int.emod_emod_of_dvd n hdvd)

/-- A sum that is a word is exact. -/
theorem add_eq (h : a + b < 2 ^ bits) : add bits a b = a + b := by
  rw [add, wrap_eq (by omega) (by omega), ← Int.natCast_add, Int.toNat_natCast]

/-! ## Operations that may fail -/

theorem fit?_eq_some_iff : fit? bits n = some a ↔ n < 2 ^ bits ∧ n = a := by
  rw [fit?, ite_eq_iff]
  simp

theorem fit?_eq_some (h : n < 2 ^ bits) : fit? bits n = some n := if_pos h

theorem fit?_eq_none (h : 2 ^ bits ≤ n) : fit? bits n = none := if_neg (Nat.not_lt.mpr h)

theorem ofInt?_eq_some {n : Int} (hn : 0 ≤ n) (h : n < 2 ^ bits) :
    ofInt? bits n = some n.toNat := by
  have hword : n.toNat < 2 ^ bits := by
    have hcast : ((2 ^ bits : Nat) : Int) = 2 ^ bits := by norm_cast
    omega
  rw [ofInt?, if_pos hn, fit?_eq_some hword]

theorem add?_eq_some (h : a + b < 2 ^ bits) : add? bits a b = some (a + b) := fit?_eq_some h

theorem sub?_eq_some (h : b ≤ a) : sub? a b = some (a - b) := if_pos h

theorem mul?_eq_some (h : a * b < 2 ^ bits) : mul? bits a b = some (a * b) := fit?_eq_some h

theorem shiftRight?_eq_some (h : amount < bits) : shiftRight? bits a amount = some (a >>> amount) :=
  if_pos h

/-- No bit is lost if the shifted number is a word. -/
theorem shiftLeft?_eq_some (hamount : amount < bits) (h : a <<< amount < 2 ^ bits) :
    shiftLeft? bits a amount = some (a <<< amount) := by
  rw [shiftLeft?, if_pos hamount]
  exact congrArg some (Nat.mod_eq_of_lt h)

theorem shiftLeft?_one (hamount : amount < bits) :
    shiftLeft? bits 1 amount = some (2 ^ amount) := by
  have hpow : 1 <<< amount = 2 ^ amount := Nat.one_shiftLeft amount
  rw [shiftLeft?_eq_some hamount, hpow]
  rw [hpow]
  exact Nat.pow_lt_pow_right Nat.one_lt_two hamount

/-! ## Computations in words -/

section Agrees

variable {ε α β : Type} {f : α → ExceptT ε Option β}

/-- The computation in words has a result, which is this one. -/
def Agrees (x : ExceptT ε Option α) (r : Except ε α) : Prop :=
  x.run = some r

theorem agrees_pure (a : α) : Agrees (pure a : ExceptT ε Option α) (.ok a) := rfl

theorem agrees_throw (e : ε) : Agrees (throw e : ExceptT ε Option α) (.error e) := rfl

theorem agrees_lift {x : Option α} {a : α} (hx : x = some a) :
    Agrees (liftM x : ExceptT ε Option α) (.ok a) := by
  rw [hx]
  rfl

theorem Agrees.bind {x : ExceptT ε Option α} {r : Except ε α} {g : α → Except ε β}
    (hx : Agrees x r) (hf : ∀ a, r = .ok a → Agrees (f a) (g a)) :
    Agrees (x >>= f) (r >>= g) := by
  unfold Agrees at *
  rw [ExceptT.run_bind, hx]
  cases r with
  | error e => rfl
  | ok a => exact hf a rfl

/-- An operation on words that has its result goes by unseen. -/
theorem Agrees.of_eq_some {x : Option α} {a : α} {r : Except ε β} (hx : x = some a)
    (hf : Agrees (f a) r) : Agrees ((liftM x : ExceptT ε Option α) >>= f) r := by
  subst hx
  exact hf

end Agrees

end AddressPlan.Word
