/-
  Calculator.Proofs.Binary64 — where the range of the doubles ends.

  A quotient is rounded out of range just if it lies half a step or more above the greatest double
  (`isFinite_ofRatio_iff`): the tie goes up, since the greatest significand is odd. In decimals
  the bound is 2^1024 - 2^970 (`Decimal.isFinite_toBinary64_iff`).

  Powers are split with a variable for the exponent, since the large ones are not to be computed.
-/

import Calculator.Binary64.Decimal

namespace Calculator.Binary64

attribute [local instance] natPower

/-- From half a step below an even natural on, a quotient is rounded to it or above. -/
theorem le_roundHalfEven_iff {num den n : Nat} (hd : 0 < den) (hn : n % 2 = 0) (hpos : 0 < n) :
    n ≤ roundHalfEven num den ↔ (2 * n - 1) * den ≤ 2 * num := by
  have hnum := Nat.div_add_mod num den
  have hr := Nat.mod_lt num hd
  have hcomm (m : Nat) : (2 * (num / den) + m) * den = 2 * (den * (num / den)) + m * den := by
    rw [Nat.add_mul, Nat.mul_assoc, Nat.mul_comm (num / den)]
  rcases Nat.lt_trichotomy n (num / den + 1) with h | h | h
  · have hbelow := div_le_roundHalfEven num den
    have hmul : (2 * n - 1) * den ≤ (2 * (num / den) + 0) * den := Nat.mul_le_mul_right den (by omega)
    rw [hcomm] at hmul
    omega
  · -- the tie goes up, to `n`
    rw [show 2 * n - 1 = 2 * (num / den) + 1 by omega, hcomm]
    unfold roundHalfEven
    dsimp only
    split
    · omega
    · omega
  · have habove := roundHalfEven_le num den
    have hmul : (2 * (num / den) + 3) * den ≤ (2 * n - 1) * den := Nat.mul_le_mul_right den (by omega)
    rw [hcomm] at hmul
    omega

theorem two_pow_eq {a b c : Nat} (h : c = a + b) : 2 ^ c = 2 ^ a * 2 ^ b := by rw [h, Nat.pow_add]

/-- A quotient is rounded to `2 ^ (e + 54)` or above just if it lies half a step below it or higher. -/
theorem roundUnits_lt_iff {num den e : Nat} (hd : 0 < den) :
    roundUnits num den < 2 ^ (e + 54) ↔ num < (2 ^ (54 : Nat) - 1) * 2 ^ e * den := by
  have hq : num / den < 2 ^ ((num / den).log2 + 1) := Nat.lt_log2_self
  rcases Nat.lt_trichotomy (num / den).log2 (e + 53) with h | h | h
  · -- both sides hold, by a factor of two
    have hscale : 2 ^ ((num / den).log2 - 52) ≤ 2 ^ e := Nat.pow_le_pow_right (by decide) (by omega)
    have hround := roundHalfEven_le num (den * 2 ^ ((num / den).log2 - 52))
    have hleft : roundUnits num den ≤ 2 ^ (53 : Nat) * 2 ^ e :=
      Nat.mul_le_mul (Nat.le_trans hround (div_scale_lt num den)) hscale
    have hright : num < 2 ^ (53 : Nat) * 2 ^ e * den := by
      rw [← Nat.div_lt_iff_lt_mul hd, ← two_pow_eq (Nat.add_comm e 53)]
      exact Nat.lt_of_lt_of_le hq (Nat.pow_le_pow_right (by decide) h)
    have hlimit : 2 ^ (53 : Nat) * 2 ^ e < 2 ^ (e + 54) := by
      rw [← two_pow_eq (Nat.add_comm e 53)]
      exact Nat.pow_lt_pow_right (by decide) (by omega)
    have hover : 2 ^ (53 : Nat) * 2 ^ e * den ≤ (2 ^ (54 : Nat) - 1) * 2 ^ e * den :=
      Nat.mul_le_mul_right den (Nat.mul_le_mul_right _ (by decide))
    exact ⟨fun _ => Nat.lt_of_lt_of_le hright hover, fun _ => Nat.lt_of_le_of_lt hleft hlimit⟩
  · -- it is the significand that is rounded, to `2 ^ 53` at most
    have hunits : roundUnits num den = roundHalfEven num (den * 2 ^ (e + 1)) * 2 ^ (e + 1) := by
      rw [roundUnits, h, show e + 53 - 52 = e + 1 by omega]
    have hlt : roundUnits num den < 2 ^ (e + 54) ↔ roundHalfEven num (den * 2 ^ (e + 1)) < 2 ^ (53 : Nat) := by
      rw [hunits, two_pow_eq (show e + 54 = 53 + (e + 1) by omega)]
      exact Nat.mul_lt_mul_right (Nat.two_pow_pos _)
    have heven := @le_roundHalfEven_iff num (den * 2 ^ (e + 1)) (2 ^ (53 : Nat))
      (Nat.mul_pos hd (Nat.two_pow_pos _)) (by decide) (by decide)
    have hmul : (2 * 2 ^ (53 : Nat) - 1) * (den * 2 ^ (e + 1)) = 2 * ((2 ^ (54 : Nat) - 1) * 2 ^ e * den) := by
      rw [show 2 * 2 ^ (53 : Nat) - 1 = 2 ^ (54 : Nat) - 1 from rfl, Nat.pow_succ 2 e]
      generalize 2 ^ (54 : Nat) - 1 = steps
      ac_rfl
    have hiff : 2 ^ (53 : Nat) ≤ roundHalfEven num (den * 2 ^ (e + 1)) ↔ (2 ^ (54 : Nat) - 1) * 2 ^ e * den ≤ num := by
      rw [heven, hmul]
      exact Nat.mul_le_mul_left_iff (by decide)
    rw [hlt, ← Nat.not_le, hiff, Nat.not_le]
  · -- neither side holds
    have hscale : 2 ^ (num / den).log2 = 2 ^ (52 : Nat) * 2 ^ ((num / den).log2 - 52) := two_pow_eq (by omega)
    have hlog : 2 ^ (num / den).log2 ≤ num / den := Nat.log2_self_le fun e0 => by rw [e0] at h; cases h
    have hlimit : 2 ^ (e + 54) ≤ 2 ^ (num / den).log2 := Nat.pow_le_pow_right (by decide) h
    have hsignificand : 2 ^ (52 : Nat) ≤ num / (den * 2 ^ ((num / den).log2 - 52)) := by
      rw [← Nat.div_div_eq_div_mul, Nat.le_div_iff_mul_le (Nat.two_pow_pos _), ← hscale]
      exact hlog
    have hleft : 2 ^ (e + 54) ≤ roundUnits num den := by
      refine Nat.le_trans hlimit ?_
      rw [hscale]
      exact Nat.mul_le_mul_right _ (Nat.le_trans hsignificand (div_le_roundHalfEven num _))
    have hright : 2 ^ (e + 54) * den ≤ num := by
      rw [← Nat.le_div_iff_mul_le hd]
      exact Nat.le_trans hlimit hlog
    have hover : (2 ^ (54 : Nat) - 1) * 2 ^ e * den ≤ 2 ^ (e + 54) * den := by
      rw [two_pow_eq (Nat.add_comm e 54)]
      exact Nat.mul_le_mul_right den (Nat.mul_le_mul_right _ (by decide))
    exact ⟨fun h => absurd h (Nat.not_lt.2 hleft), fun h => absurd h (Nat.not_lt.2 (Nat.le_trans hover hright))⟩

theorem unitsPerOne_pos : 0 < unitsPerOne := by
  have h (e : Nat) : 0 < 2 ^ e := Nat.two_pow_pos e
  exact h 1074

theorem roundUnits_pos {num den : Nat} (hd : 0 < den) (h : den ≤ num) : 0 < roundUnits num den := by
  have hq : num / den ≠ 0 := Nat.ne_of_gt (Nat.div_pos h hd)
  have hscale : 2 ^ ((num / den).log2 - 52) ≤ num / den :=
    Nat.le_trans (Nat.pow_le_pow_right (by decide) (Nat.sub_le _ _)) (Nat.log2_self_le hq)
  have hquotient : 1 ≤ num / (den * 2 ^ ((num / den).log2 - 52)) := by
    rw [← Nat.div_div_eq_div_mul, Nat.le_div_iff_mul_le (Nat.two_pow_pos _), Nat.one_mul]
    exact hscale
  exact Nat.mul_pos (Nat.le_trans hquotient (div_le_roundHalfEven num _)) (Nat.two_pow_pos _)

theorem isZero_ofNat_iff {n : Nat} : (ofNat n).isZero = true ↔ n = 0 := by
  constructor
  · intro h
    refine Nat.eq_zero_of_not_pos fun hn => ?_
    have hpos : 0 < roundUnits (n * unitsPerOne) 1 :=
      roundUnits_pos Nat.zero_lt_one (Nat.mul_pos hn unitsPerOne_pos)
    unfold ofNat ofRatio at h
    split at h
    · exact absurd (beq_iff_eq.1 h) (Nat.ne_of_gt hpos)
    · cases h
  · intro h
    subst h
    decide +kernel

/-- The first number of units that is rounded out of range, half a step above the greatest double: the
magnitude 2^1024 - 2^970. -/
def overflowUnits : Nat := (2 ^ (54 : Nat) - 1) * 2 ^ (2044 : Nat)

/-- A quotient has a finite double just if it lies below the bound. -/
theorem isFinite_ofRatio_iff {negative : Bool} {num den : Nat} (hd : 0 < den) :
    (ofRatio negative num den).isFinite = true ↔ num < overflowUnits * den := by
  have hlimit (e : Nat) (h : 2098 = e) : unitsLimit = 2 ^ e := by rw [unitsLimit, h]
  rw [overflowUnits, ← roundUnits_lt_iff hd, ← hlimit (2044 + 54) rfl]
  unfold ofRatio
  split
  · next h => exact ⟨fun _ => h, fun _ => rfl⟩
  · next h => exact ⟨nofun, fun h' => absurd h' h⟩

end Calculator.Binary64

namespace Calculator.Decimal

attribute [local instance] natPower

/-- A decimal has a finite double just if it lies below 2^1024 - 2^970. -/
theorem isFinite_toBinary64_iff (d : Decimal) :
    d.toBinary64.isFinite = true ↔ d.scaled < (2 ^ (54 : Nat) - 1) * 2 ^ (970 : Nat) * 10 ^ d.fraction.length := by
  have hsplit (e : Nat) (h : e = 970 + 1074) : 2 ^ e = 2 ^ (970 : Nat) * Binary64.unitsPerOne := by
    rw [Binary64.unitsPerOne, ← Binary64.two_pow_eq h]
  rw [toBinary64, Binary64.isFinite_ofRatio_iff (Nat.pow_pos (by decide)), Binary64.overflowUnits, hsplit 2044 rfl,
    ← Nat.mul_assoc, Nat.mul_right_comm, Nat.mul_lt_mul_right Binary64.unitsPerOne_pos]

end Calculator.Decimal
