import DocShell.Number.Binary64
import DocShell.Proofs.Numeral
import Mathlib.Algebra.Order.Field.Power
import Mathlib.Algebra.Order.Field.Rat
import Mathlib.Tactic.FieldSimp

namespace DocShell.Number.Binary64

open DocShell.Number.Decimal

def magnitude (x : Binary64) : ℚ := x.significand * 2 ^ x.exponent

theorem scaleByTwo_div (numerator denominator : Nat) (exponent : Int) :
    ((scaleByTwo numerator denominator exponent).1 : ℚ) /
        (scaleByTwo numerator denominator exponent).2 =
      numerator / denominator * 2 ^ exponent := by
  unfold scaleByTwo
  rw [Nat.pow_eq]
  split
  · rename_i hneg
    have hexponent : exponent = -(exponent.natAbs : Int) := by omega
    rw [hexponent, zpow_neg, zpow_natCast, Int.natAbs_neg, Int.natAbs_natCast]
    push_cast
    rw [div_mul_eq_div_div, div_eq_mul_inv (_ / _)]
  · have hexponent : exponent = (exponent.natAbs : Int) := by omega
    rw [hexponent, zpow_natCast, Int.natAbs_natCast]
    push_cast
    ring

theorem scaleByTwo_pos (numerator : Nat) {denominator : Nat} (hdenominator : 0 < denominator)
    (exponent : Int) : 0 < (scaleByTwo numerator denominator exponent).2 := by
  unfold scaleByTwo
  split
  · exact Nat.mul_pos hdenominator (Nat.pow_pos (by decide))
  · exact hdenominator

theorem log2_le {n : Nat} (h : 0 < n) : (2 : ℚ) ^ (n.log2 : Int) ≤ n := by
  rw [zpow_natCast]
  exact_mod_cast Nat.log2_self_le (by omega)

theorem lt_log2 (n : Nat) : (n : ℚ) < 2 ^ ((n.log2 : Int) + 1) := by
  rw [← Int.natCast_succ, zpow_natCast]
  exact_mod_cast Nat.lt_log2_self

theorem quotient_bounds {numerator denominator : Nat} (hnumerator : 0 < numerator)
    (hdenominator : 0 < denominator) :
    (2 : ℚ) ^ ((numerator.log2 : Int) - denominator.log2 - 1) < numerator / denominator ∧
      (numerator / denominator : ℚ) < 2 ^ ((numerator.log2 : Int) - denominator.log2 + 1) := by
  have hd : (0 : ℚ) < denominator := by exact_mod_cast hdenominator
  constructor
  · rw [lt_div_iff₀ hd]
    calc (2 : ℚ) ^ ((numerator.log2 : Int) - denominator.log2 - 1) * denominator
        < 2 ^ ((numerator.log2 : Int) - denominator.log2 - 1) *
            2 ^ ((denominator.log2 : Int) + 1) := by
          gcongr
          exact lt_log2 denominator
      _ = 2 ^ (numerator.log2 : Int) := by
        rw [← zpow_add₀ (by norm_num)]
        congr 1
        ring
      _ ≤ numerator := log2_le hnumerator
  · rw [div_lt_iff₀ hd]
    calc (numerator : ℚ) < 2 ^ ((numerator.log2 : Int) + 1) := lt_log2 numerator
      _ = 2 ^ ((numerator.log2 : Int) - denominator.log2 + 1) * 2 ^ (denominator.log2 : Int) := by
        rw [← zpow_add₀ (by norm_num)]
        congr 1
        ring
      _ ≤ _ := by
        gcongr
        exact log2_le hdenominator

/-- The power of two that `floorLog` gives is the greatest up to the quotient. -/
theorem floorLog_bounds {numerator denominator : Nat} (hnumerator : 0 < numerator)
    (hdenominator : 0 < denominator) :
    (2 : ℚ) ^ floorLog numerator denominator ≤ numerator / denominator ∧
      (numerator / denominator : ℚ) < 2 ^ (floorLog numerator denominator + 1) := by
  obtain ⟨hbelow, habove⟩ := quotient_bounds hnumerator hdenominator
  unfold floorLog
  simp only
  generalize (numerator.log2 : Int) - denominator.log2 = guess at habove hbelow ⊢
  have hreached : (scaleByTwo numerator denominator (-guess)).2 ≤
      (scaleByTwo numerator denominator (-guess)).1 ↔
        (2 : ℚ) ^ guess ≤ numerator / denominator := by
    have hdiv := scaleByTwo_div numerator denominator (-guess)
    have hpos := scaleByTwo_pos numerator hdenominator (-guess)
    have hscaled : (0 : ℚ) < (scaleByTwo numerator denominator (-guess)).2 := by
      exact_mod_cast hpos
    rw [← Nat.cast_le (α := ℚ), ← one_le_div₀ hscaled, hdiv, zpow_neg, ← div_eq_mul_inv,
      one_le_div₀ (by positivity)]
  split
  · rename_i h
    exact ⟨hreached.mp h, habove⟩
  · rename_i h
    refine ⟨hbelow.le, ?_⟩
    rw [sub_add_cancel]
    exact lt_of_not_ge fun hle => h (hreached.mpr hle)

theorem roundQuotient_mul (quotient : Nat) {denominator : Nat} (h : 0 < denominator) :
    roundQuotient (quotient * denominator) denominator = quotient := by
  simp [roundQuotient, h]

/-- How rank, significand and exponent hang together. A number with more than the least exponent
has a full significand. -/
theorem rank_eq (x : Binary64) :
    x.rank = (x.exponent + 1074).toNat * binadeSize + x.significand ∧
      x.significand < 2 * binadeSize ∧ -1074 ≤ x.exponent ∧
      (-1074 < x.exponent → binadeSize ≤ x.significand) := by
  have hdiv := Nat.div_add_mod x.rank binadeSize
  have hmod := Nat.mod_lt x.rank (by decide : 0 < binadeSize)
  simp only [significand, exponent]
  generalize x.rank / binadeSize = binade at hdiv ⊢
  generalize x.rank % binadeSize = place at hdiv hmod ⊢
  cases binade with
  | zero =>
      rw [Nat.mul_zero, Nat.zero_add] at hdiv
      exact ⟨by simp, by simp only [if_true]; omega, by simp, by simp⟩
  | succ binade =>
      have hexponent : (((binade + 1 : Nat) : Int) - 1075 + 1074).toNat = binade := by omega
      simp only [Nat.add_one_ne_zero, if_false, hexponent]
      refine ⟨?_, by omega, by omega, fun _ => by omega⟩
      rw [← hdiv]
      ring

theorem eq_zero_of_magnitude {x : Binary64} (hsign : x.negative = false)
    (h : x.magnitude = 0) : x = zero := by
  obtain ⟨hrank, hlt, hleast, hfull⟩ := rank_eq x
  have hsignificand : x.significand = 0 := by
    have hpower : (2 : ℚ) ^ x.exponent ≠ 0 := by positivity
    rw [magnitude] at h
    exact_mod_cast (mul_eq_zero.mp h).resolve_right hpower
  have hpositive : 0 < binadeSize := by decide
  have hexponent : x.exponent = -1074 := by
    by_contra hne
    have hle := hfull (by omega)
    omega
  rw [hsignificand, hexponent] at hrank
  obtain ⟨negative, rank, hle⟩ := x
  simp_all [zero]

theorem exponent_eq {x : Binary64} {power : Int} (hlow : (2 : ℚ) ^ power ≤ x.magnitude)
    (hhigh : x.magnitude < 2 ^ (power + 1)) : max (power - 52) (-1074) = x.exponent := by
  obtain ⟨-, hlt, hleast, hfull⟩ := rank_eq x
  have hsize : binadeSize = 2 ^ 52 := by decide
  rw [magnitude] at hlow hhigh
  have hupper : power < x.exponent + 53 := by
    rw [← zpow_lt_zpow_iff_right₀ (one_lt_two : (1 : ℚ) < 2)]
    refine lt_of_le_of_lt hlow ?_
    rw [zpow_add₀ (by norm_num), mul_comm]
    have hlt' : (x.significand : ℚ) < 2 ^ (53 : Int) := by
      rw [hsize] at hlt
      exact_mod_cast hlt
    gcongr
  have hlower : -1074 < x.exponent → x.exponent + 52 ≤ power := by
    intro h
    have hle := hfull h
    rw [← Int.lt_add_one_iff, ← zpow_lt_zpow_iff_right₀ (one_lt_two : (1 : ℚ) < 2)]
    refine lt_of_le_of_lt ?_ hhigh
    rw [zpow_add₀ (by norm_num), mul_comm]
    have hle' : (2 : ℚ) ^ (52 : Int) ≤ x.significand := by
      rw [hsize] at hle
      exact_mod_cast hle
    gcongr
  omega

/-- A number with the magnitude of a quotient is what the quotient is rounded to. -/
theorem ofQuotient_eq {x : Binary64} {numerator denominator : Nat} (hsign : x.negative = false)
    (hdenominator : 0 < denominator)
    (hvalue : (numerator / denominator : ℚ) = x.magnitude) :
    ofQuotient numerator denominator = x := by
  have hrank := (rank_eq x).1
  unfold ofQuotient
  split
  · rename_i hzero
    rw [hzero, Nat.cast_zero, zero_div] at hvalue
    exact (eq_zero_of_magnitude hsign hvalue.symm).symm
  · rename_i hnumerator
    obtain ⟨hlow, hhigh⟩ := floorLog_bounds (Nat.pos_of_ne_zero hnumerator) hdenominator
    rw [hvalue] at hlow hhigh
    have hexponent := exponent_eq hlow hhigh
    have hscaled : (scaleByTwo numerator denominator (-x.exponent)).1 =
        x.significand * (scaleByTwo numerator denominator (-x.exponent)).2 := by
      have hdiv := scaleByTwo_div numerator denominator (-x.exponent)
      have hpos := scaleByTwo_pos numerator hdenominator (-x.exponent)
      rw [hvalue, magnitude, mul_assoc, ← zpow_add₀ (by norm_num), add_neg_cancel, zpow_zero,
        mul_one, div_eq_iff (by exact_mod_cast hpos.ne')] at hdiv
      exact_mod_cast hdiv
    have hround : roundQuotient (scaleByTwo numerator denominator (-x.exponent)).1
        (scaleByTwo numerator denominator (-x.exponent)).2 = x.significand := by
      rw [hscaled]
      exact roundQuotient_mul _ (scaleByTwo_pos _ hdenominator _)
    simp only [hexponent, hround, ← hrank, Nat.min_eq_left x.rank_le, ← hsign]

/-- The digits of the magnitude as a whole number, and how many of them are decimal places. There
is at least one place. -/
def decimalParts (x : Binary64) : Nat × Nat :=
  if x.exponent < 0 then (x.significand * 5 ^ x.exponent.natAbs, x.exponent.natAbs)
  else (x.significand * 2 ^ x.exponent.natAbs * 10, 1)

theorem decimalParts_pos (x : Binary64) : 0 < x.decimalParts.2 := by
  unfold decimalParts
  split
  · rename_i hneg
    exact Int.natAbs_pos.mpr hneg.ne
  · exact Nat.one_pos

theorem decimalParts_div (x : Binary64) :
    (x.decimalParts.1 : ℚ) / (10 ^ x.decimalParts.2 : Nat) = x.magnitude := by
  unfold decimalParts magnitude
  split
  · rename_i hneg
    have hexponent : x.exponent = -(x.exponent.natAbs : Int) := by omega
    have hten : (10 : ℚ) ^ x.exponent.natAbs = 5 ^ x.exponent.natAbs * 2 ^ x.exponent.natAbs := by
      rw [← mul_pow]
      norm_num
    conv_rhs => rw [hexponent]
    rw [zpow_neg, zpow_natCast]
    push_cast
    rw [hten]
    field_simp
  · have hexponent : x.exponent = (x.exponent.natAbs : Int) := by omega
    conv_rhs => rw [hexponent]
    rw [zpow_natCast]
    push_cast
    ring

def literal (x : Binary64) : List Char :=
  (if x.negative then ['-'] else []) ++
    (digits (x.decimalParts.1 / 10 ^ x.decimalParts.2) ++
      '.' :: padded x.decimalParts.2 (x.decimalParts.1 % 10 ^ x.decimalParts.2))

theorem ofMagnitude_eq {whole fraction : List Char} (hwhole : '.' ∉ whole)
    (hfraction : 0 < fraction.length) :
    ofLiteral.ofMagnitude (whole ++ '.' :: fraction) =
      ofQuotient (ofDigits (whole ++ fraction)) (10 ^ fraction.length) := by
  have htake : (whole ++ '.' :: fraction).takeWhile (· != '.') = whole := by
    rw [List.takeWhile_append_of_pos]
    · simp
    · intro c hc
      simpa using ne_of_mem_of_not_mem hc hwhole
  have hdrop : (whole ++ '.' :: fraction).dropWhile (· != '.') = '.' :: fraction := by
    rw [List.dropWhile_append_of_pos]
    · simp
    · intro c hc
      simpa using ne_of_mem_of_not_mem hc hwhole
  simp only [ofLiteral.ofMagnitude, htake, hdrop, List.drop_one, List.tail_cons, ofDecimal]
  rw [if_pos (by omega), Int.natAbs_neg, Int.natAbs_natCast, Nat.pow_eq]

theorem ofLiteral_literal (x : Binary64) : ofLiteral x.literal = x := by
  have hplaces := decimalParts_pos x
  have hpoint : '.' ∉ digits (x.decimalParts.1 / 10 ^ x.decimalParts.2) := by
    intro h
    exact absurd (isDigit_of_mem_digits h) (by decide)
  have hlength : (padded x.decimalParts.2 (x.decimalParts.1 % 10 ^ x.decimalParts.2)).length =
      x.decimalParts.2 := length_padded hplaces (Nat.mod_lt _ (Nat.pow_pos (by decide)))
  have hdigits : ofDigits (digits (x.decimalParts.1 / 10 ^ x.decimalParts.2) ++
      padded x.decimalParts.2 (x.decimalParts.1 % 10 ^ x.decimalParts.2)) = x.decimalParts.1 := by
    rw [ofDigits_append, ofDigits_digits, ofDigits_padded, hlength]
    exact Nat.div_add_mod' _ _
  have hmagnitude : ofLiteral.ofMagnitude (digits (x.decimalParts.1 / 10 ^ x.decimalParts.2) ++
      '.' :: padded x.decimalParts.2 (x.decimalParts.1 % 10 ^ x.decimalParts.2)) =
        withSign false x := by
    rw [ofMagnitude_eq hpoint (by rw [hlength]; exact hplaces), hdigits, hlength]
    exact ofQuotient_eq (x := withSign false x) rfl (Nat.pow_pos (by decide)) (decimalParts_div x)
  cases hsign : x.negative with
  | true =>
      simp only [literal, hsign, if_true, List.cons_append, List.nil_append, ofLiteral, hmagnitude]
      rw [← hsign]
      rfl
  | false =>
      simp only [literal, hsign, Bool.false_eq_true, if_false, List.nil_append]
      unfold ofLiteral
      split
      · rename_i rest hcons
        have hhead := digits_head (x.decimalParts.1 / 10 ^ x.decimalParts.2)
        cases hwhole : digits (x.decimalParts.1 / 10 ^ x.decimalParts.2) with
        | nil => exact absurd hwhole (digits_ne_nil _)
        | cons c cs =>
            rw [hwhole, List.cons_append, List.cons.injEq] at hcons
            rw [hwhole, hcons.1] at hhead
            exact absurd rfl hhead
      · rw [hmagnitude, ← hsign]
        rfl

end DocShell.Number.Binary64
