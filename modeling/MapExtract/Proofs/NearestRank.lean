import MapExtract.Proofs.ShortestDecimal

/-!
Around every rank lies the stretch of values that round to it, from midpoint to midpoint; the
stretches of two ranks do not meet. The rank that is computed for a value is the one in whose
stretch the value lies.
-/

set_option autoImplicit false
namespace MapExtract

theorem even_divHalfEven_of_half {n d : Nat} (hd : 0 < d)
    (half : 2 * d * divHalfEven n d = 2 * n + d ∨ 2 * n = 2 * d * divHalfEven n d + d) :
    divHalfEven n d % 2 = 0 := by
  have parts := Nat.div_add_mod n d
  have rest := Nat.mod_lt n hd
  unfold divHalfEven at half ⊢
  generalize n / d = q at parts half ⊢
  generalize n % d = r at parts rest half ⊢
  have below : 2 * d * q = 2 * (d * q) := by ring
  have above : 2 * d * (q + 1) = 2 * (d * q) + 2 * d := by ring
  split at half <;> rename_i nearer
  · rw [if_pos nearer]
    omega
  · rw [if_neg nearer]
    omega

namespace Binary64
open Decimal (magnitude)

/-- From the last rank with steps of `2 ^ spare` on, a rank is that many steps. -/
theorem units_spaced {spare x : Nat} (hx : x ≤ 2 * binade) (full : spare = 0 ∨ binade ≤ x) :
    units (spare * binade + x) = x * pow2 spare := by
  have hb : 0 < binade := by decide
  unfold units
  by_cases low : x < binade
  · obtain rfl : spare = 0 := by omega
    rw [Nat.zero_mul, Nat.zero_add, if_pos low, pow2_zero, Nat.mul_one]
  rw [if_neg (by have := Nat.le_add_left x (spare * binade); omega)]
  rcases Nat.lt_or_eq_of_le hx with inner | rfl
  · obtain ⟨y, rfl⟩ := Nat.exists_eq_add_of_le (Nat.le_of_not_lt low)
    have turn : spare * binade + (binade + y) = y + binade * (spare + 1) := by ring
    rw [turn, Nat.add_mul_mod_self_left, Nat.add_mul_div_left _ _ hb, Nat.mod_eq_of_lt (by omega),
      Nat.div_eq_of_lt (by omega)]
    congr 2
    omega
  · have turn : spare * binade + 2 * binade = binade * (spare + 2) := by ring
    rw [turn, Nat.mul_mod_right, Nat.mul_div_cancel_left _ hb, Nat.add_zero]
    change binade * pow2 (spare + 1) = _
    rw [pow2_succ]
    ring

theorem pow2_le_step {spare x : Nat} (full : spare = 0 ∨ binade ≤ x) :
    units (spare * binade + x) + pow2 spare ≤ units (spare * binade + x + 1) := by
  rw [units_succ]
  apply Nat.add_le_add_left
  apply Nat.pow_le_pow_right (by decide)
  rcases full with rfl | full
  · exact Nat.zero_le _
  · have : spare + 1 ≤ (spare * binade + x) / binade := by
      rw [Nat.le_div_iff_mul_le (by decide), Nat.add_mul, Nat.one_mul]
      omega
    omega

theorem le_upperMidpoint {spare x : Nat} (hx : x ≤ 2 * binade) (full : spare = 0 ∨ binade ≤ x) :
    (2 * x + 1) * pow2 spare ≤ upperMidpoint (spare * binade + x) := by
  have step := pow2_le_step full
  unfold upperMidpoint
  rw [units_spaced hx full] at step ⊢
  have twice : (2 * x + 1) * pow2 spare = x * pow2 spare + (x * pow2 spare + pow2 spare) := by ring
  omega

theorem lowerMidpoint_spaced {spare x : Nat} (hx : x + 1 ≤ 2 * binade)
    (full : spare = 0 ∨ binade ≤ x) :
    lowerMidpoint (spare * binade + (x + 1)) = (2 * x + 1) * pow2 spare := by
  unfold lowerMidpoint
  rw [units_spaced hx (by omega), ← Nat.add_assoc, Nat.add_sub_cancel, units_spaced (by omega) full]
  ring

theorem lowerMidpoint_le (r : Nat) : lowerMidpoint r ≤ 2 * units r := by
  have := units_strictMono.monotone (show r - 1 ≤ r by omega)
  unfold lowerMidpoint
  omega

theorem midpoints_ordered {r t : Nat} (h : r < t) : upperMidpoint r ≤ lowerMidpoint t ∧
    (upperMidpoint r = lowerMidpoint t → t = r + 1) := by
  have first := units_strictMono.monotone (show r ≤ t - 1 by omega)
  have second := units_strictMono.monotone (show r + 1 ≤ t by omega)
  unfold upperMidpoint lowerMidpoint
  refine ⟨by omega, fun same => ?_⟩
  have : r + 1 = t := units_strictMono.injective (by omega)
  exact this.symm

theorem not_roundsTo_of_lt {r t n d : Nat} (hd : 0 < d) (h : r < t) (hr : roundsTo r n d = true) :
    ¬roundsTo t n d = true := by
  intro ht
  obtain ⟨_, high, openHigh⟩ := roundsTo_iff.mp hr
  obtain ⟨low, _, openLow⟩ := roundsTo_iff.mp ht
  obtain ⟨order, next⟩ := midpoints_ordered h
  have between := Nat.mul_le_mul_right d order
  -- The value is the midpoint of two neighbours, and one of them is odd.
  have same : upperMidpoint r * d = lowerMidpoint t * d := by omega
  have neighbours := next (Nat.eq_of_mul_eq_mul_right hd same)
  rcases Nat.mod_two_eq_zero_or_one r with even | odd
  · exact (openLow (by omega)).1 (by omega)
  · exact (openHigh odd).2 (by omega)

theorem eq_of_roundsTo {r t n d : Nat} (hd : 0 < d) (hr : roundsTo r n d = true)
    (ht : roundsTo t n d = true) : r = t := by
  rcases Nat.lt_trichotomy r t with lt | same | gt
  · exact absurd ht (not_roundsTo_of_lt hd lt hr)
  · exact same
  · exact absurd hr (not_roundsTo_of_lt hd gt ht)

theorem steps_bounds (n : Nat) {d : Nat} (hd : 0 < d) :
    n ≤ d * pow2 ((n / d).log2 - 52) * (2 * binade) ∧
      ((n / d).log2 - 52 = 0 ∨ d * pow2 ((n / d).log2 - 52) * binade ≤ n) := by
  have width : binade = pow2 52 := by decide
  have steps (spare : Nat) : d * pow2 spare * binade = d * pow2 (spare + 52) := by
    rw [width, pow2_add, Nat.mul_assoc]
  constructor
  · have below : n / d < pow2 ((n / d).log2 + 1) := Nat.lt_log2_self
    have within : pow2 ((n / d).log2 + 1) ≤ pow2 ((n / d).log2 - 52 + 52 + 1) :=
      Nat.pow_le_pow_right (by decide) (by omega)
    have value := ((Nat.div_lt_iff_lt_mul hd).mp (below.trans_le within)).le
    have twice := steps ((n / d).log2 - 52)
    rw [pow2_succ] at value
    calc
      n ≤ 2 * (d * pow2 ((n / d).log2 - 52 + 52)) := by linarith
      _ = d * pow2 ((n / d).log2 - 52) * (2 * binade) := by rw [← twice]; ring
  · by_cases none : (n / d).log2 - 52 = 0
    · exact .inl none
    right
    have some : n / d ≠ 0 := by
      intro zero
      rw [zero] at none
      exact none rfl
    have above : pow2 (n / d).log2 ≤ n / d := Nat.log2_self_le some
    rw [steps, Nat.sub_add_cancel (by omega), Nat.mul_comm]
    exact (Nat.le_div_iff_mul_le hd).mp above

section Steps
variable {n d spare x : Nat}

/-- A value half a step away at most does not lie below the lower midpoint. At the bottom of a
binade this midpoint is closer than half a step, but there the value is not below the rank. -/
theorem lowerMidpoint_le_of_steps (few : x ≤ 2 * binade)
    (full : spare = 0 ∨ binade ≤ x ∧ d * pow2 spare * binade ≤ n)
    (above : 2 * (d * pow2 spare) * x ≤ 2 * n + d * pow2 spare)
    (tie : 2 * (d * pow2 spare) * x = 2 * n + d * pow2 spare → x % 2 = 0) :
    lowerMidpoint (spare * binade + x) * d ≤ 2 * n ∧
      (x % 2 = 1 → 2 * n ≠ lowerMidpoint (spare * binade + x) * d) := by
  by_cases bottom : spare ≠ 0 ∧ x = binade
  · obtain ⟨spaced, rfl⟩ := bottom
    have reached := (full.resolve_left spaced).2
    have short := Nat.mul_le_mul_right d (lowerMidpoint_le (spare * binade + binade))
    rw [units_spaced few (.inr le_rfl)] at short
    have same : 2 * (binade * pow2 spare) * d = 2 * (d * pow2 spare * binade) := by ring
    refine ⟨by omega, fun odd => ?_⟩
    cases odd
  cases x with
  | zero =>
    obtain rfl : spare = 0 := full.resolve_right fun h => absurd h.1 (by decide)
    have none : lowerMidpoint (0 * binade + 0) = 0 := by decide
    rw [none, Nat.zero_mul]
    exact ⟨Nat.zero_le _, fun odd => by cases odd⟩
  | succ y =>
    rw [lowerMidpoint_spaced few (by omega)]
    have narrow : (2 * y + 1) * pow2 spare * d + d * pow2 spare = 2 * (d * pow2 spare) * (y + 1) := by
      ring
    omega

theorem roundsTo_of_steps (few : x ≤ 2 * binade)
    (full : spare = 0 ∨ binade ≤ x ∧ d * pow2 spare * binade ≤ n)
    (above : 2 * (d * pow2 spare) * x ≤ 2 * n + d * pow2 spare)
    (below : 2 * n ≤ 2 * (d * pow2 spare) * x + d * pow2 spare)
    (tie : 2 * (d * pow2 spare) * x = 2 * n + d * pow2 spare ∨
      2 * n = 2 * (d * pow2 spare) * x + d * pow2 spare → x % 2 = 0) :
    roundsTo (spare * binade + x) (2 * n) d = true := by
  obtain ⟨low, openLow⟩ := lowerMidpoint_le_of_steps few full above fun h => tie (.inl h)
  have high := Nat.mul_le_mul_right d (le_upperMidpoint few (full.imp_right And.left))
  have wide : (2 * x + 1) * pow2 spare * d = 2 * (d * pow2 spare) * x + d * pow2 spare := by ring
  have parity : (spare * binade + x) % 2 = x % 2 := by
    unfold binade
    omega
  rw [roundsTo_iff, parity]
  exact ⟨low, by omega, fun odd => ⟨openLow odd, by omega⟩⟩

end Steps

theorem nearestRank_roundsTo (n : Nat) {d : Nat} (hd : 0 < d) :
    roundsTo (nearestRank n d) (2 * n) d = true := by
  obtain ⟨few, many⟩ := steps_bounds n hd
  unfold nearestRank
  dsimp only
  generalize (n / d).log2 - 52 = spare at few many ⊢
  have step : 0 < d * pow2 spare := Nat.mul_pos hd (pow2_pos spare)
  refine roundsTo_of_steps ?_ (many.imp_right fun many => ⟨?_, many⟩) (divHalfEven_le _ _)
    (le_divHalfEven _ _ step) (even_divHalfEven_of_half step)
  · have := divHalfEven_mono _ step few
    rwa [divHalfEven_mul _ _ step] at this
  · have := divHalfEven_mono _ step many
    rwa [divHalfEven_mul _ _ step] at this

/-- The nearest rank of a value is the one in whose stretch it lies. -/
theorem nearestRank_eq_iff {n d r : Nat} (hd : 0 < d) :
    nearestRank n d = r ↔ roundsTo r (2 * n) d = true := by
  refine ⟨fun h => h ▸ nearestRank_roundsTo n hd, fun h => ?_⟩
  exact eq_of_roundsTo hd (nearestRank_roundsTo n hd) h

theorem ofRatio_eq_finite {r : Fin magnitudes} {n d : Nat} (hd : 0 < d)
    (h : roundsTo r (2 * n) d = true) (negative : Bool) :
    ofRatio negative n d = .finite negative r := by
  have nearest : nearestRank n d = r := (nearestRank_eq_iff hd).mpr h
  have inside : nearestRank n d < magnitudes := nearest ▸ r.isLt
  unfold ofRatio
  rw [dif_pos inside]
  congr

theorem leadingExponent_ge_of_roundsTo {r c : Nat} {e : Int} (hr : 0 < r)
    (h : decimalRoundsTo r c e = true) : -324 ≤ Decimal.leadingExponent c e := by
  have small : ((2 * one : Nat) : ℚ) ≤ (pow10 324 : Nat) := by
    exact_mod_cast (by decide +kernel : 2 * one ≤ pow10 324)
  have whole : magnitude 1 (-324) * (pow10 324 : Nat) = 1 := by
    rw [Decimal.cast_pow10, magnitude, Nat.cast_one, one_mul, ← zpow_add₀ (by norm_num)]
    rfl
  have first : (1 : ℚ) ≤ lowerMidpoint r := by exact_mod_cast lowerMidpoint_pos hr
  have least : magnitude 1 (-324) ≤ magnitude c e := by
    apply (mul_le_mul_iff_left₀ two_one_pos).mp
    calc
      magnitude 1 (-324) * (2 * one) ≤ magnitude 1 (-324) * (pow10 324 : Nat) := by
        exact mul_le_mul_of_nonneg_left (by exact_mod_cast small) (Decimal.magnitude_nonneg _ _)
      _ = 1 := whole
      _ ≤ lowerMidpoint r := first
      _ ≤ magnitude c e * (2 * one) := (magnitude_of_roundsTo h).1
  exact Decimal.leadingExponent_le_of_magnitude Nat.one_pos (pos_of_roundsTo hr h) least

theorem ofDecimal_eq_finite {r : Fin magnitudes} (hr : 0 < r.val) {c : Nat} {e : Int}
    (h : decimalRoundsTo r c e = true) (negative : Bool) :
    ofDecimal negative c e = .finite negative r := by
  have pos := pos_of_roundsTo hr h
  have low := leadingExponent_ge_of_roundsTo hr h
  have high : Decimal.leadingExponent c e ≤ 309 :=
    Decimal.leadingExponent_le_of_magnitude pos Nat.one_pos (magnitude_lt_of_roundsTo r h).le
  unfold ofDecimal
  dsimp only
  rw [if_neg (by omega), if_neg (by omega)]
  unfold decimalRoundsTo powerOfTen at h
  split <;> rename_i scaling
  · rw [if_pos scaling] at h
    apply ofRatio_eq_finite Nat.one_pos
    rwa [← Nat.mul_left_comm]
  · rw [if_neg scaling] at h
    apply ofRatio_eq_finite (pow10_pos _)
    dsimp only at h
    rwa [Nat.mul_one, Nat.mul_left_comm] at h

end Binary64
end MapExtract
