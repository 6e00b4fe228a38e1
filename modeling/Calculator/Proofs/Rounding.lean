/-
  Calculator.Proofs.Rounding — rounding goes to the nearest.

  The natural nearest to a quotient is the only one that lies at most half a denominator away, and is even
  if it lies just that far (`roundHalfEven_eq_iff`). The rounded number of units is as near to the quotient
  as any magnitude that a finite double has (`dist_roundUnits_le`): above its step the magnitudes are
  multiples of that, and the finer ones lie below the binade of the quotient, which starts with a multiple.
  So a quotient that is such a magnitude stays as it is (`ofRatio_mul`).

  Rounding twice loses nothing: to hundredths, back to units, and to hundredths again
  (`hundredths_roundUnits_hundredths`). The magnitude started from is one that the second rounding could
  choose, so that what it does choose is as near, and both lie within half a hundredth.
-/

import Mathlib.Data.Nat.Dist
import Calculator.Proofs.Binary64

namespace Calculator.Binary64

attribute [local instance] natPower

/-! ## To a natural number -/

/-- A multiple of the denominator lies below the numerator's own or above. -/
theorem mul_le_or_le_mul (n quotient den : Nat) : n * den ≤ quotient * den ∨ quotient * den + den ≤ n * den := by
  rcases Nat.lt_or_ge quotient n with h | h
  · have := Nat.mul_le_mul_right den h
    rw [Nat.succ_mul] at this
    exact .inr this
  · exact .inl (Nat.mul_le_mul_right den h)

section

variable {num den : Nat} (hd : 0 < den)

include hd

/-- No multiple of the denominator is nearer than that of the rounded quotient. -/
theorem dist_roundHalfEven_le (n : Nat) : Nat.dist (roundHalfEven num den * den) num ≤ Nat.dist (n * den) num := by
  have hnum := Nat.div_add_mod' num den
  have hr := Nat.mod_lt num hd
  have hn := mul_le_or_le_mul n (num / den) den
  unfold roundHalfEven Nat.dist
  dsimp only
  split
  · omega
  · rw [Nat.succ_mul]
    omega

/-- The rounded quotient is the natural at most half a denominator away, and an even one if it is that far. -/
theorem roundHalfEven_eq_iff {n : Nat} :
    roundHalfEven num den = n ↔
      2 * Nat.dist (n * den) num ≤ den ∧ (2 * Nat.dist (n * den) num = den → n % 2 = 0) := by
  have hnum := Nat.div_add_mod' num den
  have hr := Nat.mod_lt num hd
  have hsucc : (num / den + 1) * den = num / den * den + den := Nat.succ_mul ..
  constructor
  · rintro rfl
    unfold roundHalfEven Nat.dist
    dsimp only
    split
    · omega
    · rw [hsucc]
      omega
  · intro ⟨hle, htie⟩
    unfold Nat.dist at hle htie
    have hn : n = num / den ∨ n = num / den + 1 := by
      rcases mul_le_or_le_mul n (num / den) den with h | h
      · rcases mul_le_or_le_mul (num / den) n den with h' | h'
        · exact .inl (Nat.eq_of_mul_eq_mul_right hd (Nat.le_antisymm h h'))
        · omega
      · rcases mul_le_or_le_mul n (num / den + 1) den with h' | h'
        · rw [← hsucc] at h
          exact .inr (Nat.eq_of_mul_eq_mul_right hd (Nat.le_antisymm h' h))
        · rw [hsucc] at h'
          omega
    unfold roundHalfEven
    dsimp only
    rcases hn with rfl | rfl
    · rw [if_pos (by omega)]
    · rw [hsucc] at hle htie
      rw [if_neg (by omega)]

end

/-! ## To a number of units -/

/-- A magnitude is a multiple of a step, or it is finer and below the first number whose step that is. -/
theorem Representable.multiple_or_lt {units : Nat} (h : Representable units) (k : Nat) :
    (∃ n, units = n * 2 ^ k) ∨ 0 < k ∧ units < 2 ^ (52 : Nat) * 2 ^ k := by
  obtain ⟨m, j, hm, rfl⟩ := h.significand
  rcases Nat.lt_or_ge j k with hj | hj
  · refine .inr ⟨by omega, ?_⟩
    have hlt : m * 2 ^ j < 2 ^ (53 : Nat) * 2 ^ j := Nat.mul_lt_mul_of_pos_right hm (Nat.two_pow_pos j)
    have hle : 2 ^ (53 : Nat) * 2 ^ j ≤ 2 ^ (52 : Nat) * 2 ^ k := by
      rw [← two_pow_eq (rfl : 53 + j = 53 + j), ← two_pow_eq (rfl : 52 + k = 52 + k)]
      exact Nat.pow_le_pow_right (by decide) (by omega)
    exact Nat.lt_of_lt_of_le hlt hle
  · refine .inl ⟨m * 2 ^ (j - k), ?_⟩
    rw [Nat.mul_assoc, ← two_pow_eq (by omega : j = j - k + k)]

/-- No magnitude of a finite double is nearer to a quotient than the rounded one. -/
theorem dist_roundUnits_le {num den units : Nat} (hd : 0 < den) (h : Representable units) :
    Nat.dist (roundUnits num den * den) num ≤ Nat.dist (units * den) num := by
  have hstep : 0 < den * 2 ^ ((num / den).log2 - 52) := Nat.mul_pos hd (Nat.two_pow_pos _)
  have hround : roundUnits num den * den =
      roundHalfEven num (den * 2 ^ ((num / den).log2 - 52)) * (den * 2 ^ ((num / den).log2 - 52)) := by
    rw [roundUnits, Nat.mul_assoc, Nat.mul_comm (2 ^ _)]
  rw [hround]
  rcases h.multiple_or_lt ((num / den).log2 - 52) with ⟨n, rfl⟩ | ⟨hpos, hlt⟩
  · rw [Nat.mul_assoc, Nat.mul_comm (2 ^ _)]
    exact dist_roundHalfEven_le hstep n
  · -- the quotient's binade starts at a multiple of the step, which lies between
    have hlog : 2 ^ (52 : Nat) * 2 ^ ((num / den).log2 - 52) ≤ num / den := by
      rw [← two_pow_eq (by omega : (num / den).log2 = 52 + ((num / den).log2 - 52))]
      exact Nat.log2_self_le fun e => by
        rw [e] at hpos
        cases hpos
    have hstart : 2 ^ (52 : Nat) * (den * 2 ^ ((num / den).log2 - 52)) ≤ num := by
      rw [Nat.mul_left_comm, Nat.mul_comm den]
      exact (Nat.le_div_iff_mul_le hd).1 hlog
    have hbelow : units * den ≤ 2 ^ (52 : Nat) * (den * 2 ^ ((num / den).log2 - 52)) := by
      rw [Nat.mul_left_comm, Nat.mul_comm den]
      exact Nat.mul_le_mul_right den (Nat.le_of_lt hlt)
    have hnear := @dist_roundHalfEven_le num _ hstep (2 ^ (52 : Nat))
    unfold Nat.dist at hnear ⊢
    omega

/-- A magnitude that a finite double has is not rounded to another one. -/
theorem roundUnits_mul {den units : Nat} (hd : 0 < den) (h : Representable units) : roundUnits (units * den) den = units := by
  have hnear := @dist_roundUnits_le (units * den) den units hd h
  rw [Nat.dist_self] at hnear
  exact Nat.eq_of_mul_eq_mul_right hd (Nat.eq_of_dist_eq_zero (Nat.le_zero.1 hnear))

theorem ofRatio_mul {negative : Bool} {den units : Nat} (hd : 0 < den) (h : Representable units) :
    ofRatio negative (units * den) den = .finite negative units h := by
  simp only [ofRatio, roundUnits_mul hd h, h.lt_limit, dif_pos]

/-! ## To hundredths and back -/

variable {units : Nat}

/-- The number of hundredths lies at most half of one away. -/
theorem dist_hundredths_le (units : Nat) : 2 * Nat.dist (hundredths units * unitsPerOne) (units * 100) ≤ unitsPerOne :=
  ((roundHalfEven_eq_iff unitsPerOne_pos).1 rfl).1

/-- Hundredths that come from a finite double come back from the double nearest to them. -/
theorem hundredths_roundUnits_hundredths (h : Representable units) :
    hundredths (roundUnits (hundredths units * unitsPerOne) 100) = hundredths units := by
  obtain ⟨hle, htie⟩ := (roundHalfEven_eq_iff unitsPerOne_pos).1 (rfl : hundredths units = hundredths units)
  have hnear := @dist_roundUnits_le (hundredths units * unitsPerOne) 100 units (by decide) h
  rw [Nat.dist_comm, Nat.dist_comm (units * 100)] at hnear
  refine (roundHalfEven_eq_iff unitsPerOne_pos).2 ⟨?_, fun he => htie ?_⟩
  · omega
  · omega

/-- Below a power of two the magnitudes keep half a step of the last binade from the bound that rounds to it. -/
theorem Representable.add_le (h : Representable units) {e : Nat} (hlt : units < 2 ^ (e + 54)) :
    units + 2 ^ e ≤ (2 ^ (54 : Nat) - 1) * 2 ^ e := by
  have hpow : 2 ^ (e + 1) = 2 * 2 ^ e := Nat.pow_succ'
  have hmultiple (n : Nat) (hn : 2 * n < 2 ^ (54 : Nat)) : 2 * n * 2 ^ e + 2 ^ e ≤ (2 ^ (54 : Nat) - 1) * 2 ^ e := by
    rw [← Nat.succ_mul]
    exact Nat.mul_le_mul_right _ (by omega)
  rcases h.multiple_or_lt (e + 1) with ⟨n, rfl⟩ | ⟨-, hfine⟩
  · rw [hpow, Nat.mul_left_comm, ← Nat.mul_assoc] at hlt ⊢
    rw [two_pow_eq (Nat.add_comm e 54)] at hlt
    exact hmultiple n (Nat.lt_of_mul_lt_mul_right hlt)
  · have hstart := hmultiple (2 ^ (52 : Nat)) (by decide)
    rw [hpow, Nat.mul_left_comm, ← Nat.mul_assoc] at hfine
    omega

/-- The double nearest to the hundredths of a finite double is finite. -/
theorem hundredths_lt_overflow (h : Representable units) : hundredths units * unitsPerOne < overflowUnits * 100 := by
  have hpow {a b : Nat} (h : a ≤ b) : 2 ^ a ≤ 2 ^ b := Nat.pow_le_pow_right (by decide) h
  have hlimit (e : Nat) (h : 2098 = e) : unitsLimit = 2 ^ e := by rw [unitsLimit, h]
  have hlt := h.lt_limit
  rw [hlimit (2044 + 54) rfl] at hlt
  have hmax : units + 2 ^ (2044 : Nat) ≤ overflowUnits := h.add_le hlt
  have hone : unitsPerOne ≤ 2 ^ (2044 : Nat) := hpow (by decide : 1074 ≤ 2044)
  have hpos := unitsPerOne_pos
  have hle := dist_hundredths_le units
  unfold Nat.dist at hle
  generalize 2 ^ (2044 : Nat) = step at hmax hone
  omega

end Calculator.Binary64
