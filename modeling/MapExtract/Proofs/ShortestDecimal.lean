import Mathlib.Tactic.NormNum
import Mathlib.Tactic.FieldSimp
import MapExtract.Proofs.DecimalOrder

set_option autoImplicit false
namespace MapExtract.Binary64
open Decimal (cast_pow10 magnitude value?)

theorem units_succ (r : Nat) : units (r + 1) = units r + pow2 (r / binade - 1) := by
  have hb : 0 < binade := by decide
  unfold units
  by_cases low : r + 1 < binade
  · have lower : r < binade := by omega
    rw [if_pos low, if_pos lower, Nat.div_eq_of_lt lower]
    rfl
  rw [if_neg low]
  by_cases first : r < binade
  · have full : r + 1 = binade := by omega
    rw [if_pos first, full, Nat.mod_self, Nat.div_self hb, Nat.sub_self, Nat.div_eq_of_lt first,
      Nat.zero_sub, pow2_zero]
    omega
  · rw [if_neg first]
    have hq : 1 ≤ r / binade := (Nat.one_le_div_iff hb).mpr (by omega)
    have ht := Nat.mod_lt r hb
    by_cases last : r % binade + 1 = binade
    · have next : r + 1 = binade * (r / binade + 1) := by
        have := Nat.div_add_mod r binade
        rw [Nat.mul_add]
        omega
      have wider : pow2 (r / binade) = pow2 (r / binade - 1) * 2 := by
        rw [← pow2_succ]
        congr 1
        omega
      rw [next, Nat.mul_mod_right, Nat.mul_div_cancel_left _ hb, Nat.add_sub_cancel, wider,
        Nat.add_zero, ← Nat.add_one_mul, Nat.add_assoc, last]
      ring
    · have same : (r + 1) / binade = r / binade := by
        rw [Nat.succ_div, if_neg, Nat.add_zero]
        intro hd
        have := Nat.mod_eq_zero_of_dvd hd
        rw [Nat.add_mod, Nat.one_mod_eq_one.mpr (by decide), Nat.mod_eq_of_lt (by omega)] at this
        omega
      have step : (r + 1) % binade = r % binade + 1 := by
        rw [Nat.add_mod, Nat.one_mod_eq_one.mpr (by decide), Nat.mod_eq_of_lt (by omega)]
      rw [same, step, ← Nat.add_one_mul, Nat.add_assoc]

theorem units_lt_succ (r : Nat) : units r < units (r + 1) := by
  rw [units_succ]
  exact Nat.lt_add_of_pos_right (pow2_pos _)

theorem units_succ_le (r : Nat) : units (r + 1) ≤ 2 * binade * (units (r + 1) - units r) := by
  have hb : 0 < binade := by decide
  rw [units_succ, Nat.add_sub_cancel_left]
  unfold units
  split
  · rename_i low
    rw [Nat.div_eq_of_lt low, Nat.zero_sub, pow2_zero]
    omega
  · rw [← Nat.add_one_mul]
    have := Nat.mod_lt r hb
    exact Nat.mul_le_mul_right _ (by omega)

theorem units_strictMono : StrictMono units := strictMono_nat_of_lt_succ units_lt_succ

theorem one_pos : 0 < one := pow2_pos 1074

theorem two_one_pos : (0 : ℚ) < 2 * one := by
  have : (0 : ℚ) < one := by exact_mod_cast one_pos
  linarith

theorem powerOfTen_value (e : Int) :
    0 < (powerOfTen e).2 ∧ (10 : ℚ) ^ e * (powerOfTen e).2 = (powerOfTen e).1 := by
  unfold powerOfTen
  split
  · rename_i he
    refine ⟨Nat.one_pos, ?_⟩
    rw [cast_pow10, Int.toNat_of_nonneg he]
    simp
  · rename_i he
    refine ⟨pow10_pos _, ?_⟩
    rw [cast_pow10, Int.toNat_of_nonneg (by omega), ← zpow_add₀ (by norm_num)]
    simp

theorem powerOfTen_pos (e : Int) : 0 < (powerOfTen e).1 := by
  unfold powerOfTen
  split
  · exact pow10_pos _
  · exact Nat.one_pos

/-- A value rounds to a rank if it lies between the midpoints, and for an odd rank on neither. -/
theorem roundsTo_iff {r n d : Nat} : roundsTo r n d = true ↔
    lowerMidpoint r * d ≤ n ∧ n ≤ upperMidpoint r * d ∧
      (r % 2 = 1 → n ≠ lowerMidpoint r * d ∧ n ≠ upperMidpoint r * d) := by
  unfold roundsTo
  dsimp only
  split <;> simp only [Bool.and_eq_true, decide_eq_true_eq] <;> omega

theorem decimalRoundsTo_iff {r c : Nat} {e : Int} : decimalRoundsTo r c e = true ↔
    (lowerMidpoint r : ℚ) ≤ magnitude c e * (2 * one) ∧
      magnitude c e * (2 * one) ≤ upperMidpoint r ∧
      (r % 2 = 1 → magnitude c e * (2 * one) ≠ lowerMidpoint r ∧
        magnitude c e * (2 * one) ≠ upperMidpoint r) := by
  obtain ⟨hd, hv⟩ := powerOfTen_value e
  have hd' : (0 : ℚ) < (powerOfTen e).2 := by exact_mod_cast hd
  have scaled : magnitude c e * (2 * one) * (powerOfTen e).2 =
      ((c * (powerOfTen e).1 * (2 * one) : Nat) : ℚ) := by
    unfold magnitude
    push_cast
    rw [← hv]
    ring
  have above (m : Nat) : (m : ℚ) ≤ magnitude c e * (2 * one) ↔
      m * (powerOfTen e).2 ≤ c * (powerOfTen e).1 * (2 * one) := by
    rw [← mul_le_mul_iff_left₀ hd', scaled]
    exact_mod_cast Iff.rfl
  have below (m : Nat) : magnitude c e * (2 * one) ≤ m ↔
      c * (powerOfTen e).1 * (2 * one) ≤ m * (powerOfTen e).2 := by
    rw [← mul_le_mul_iff_left₀ hd', scaled]
    exact_mod_cast Iff.rfl
  have on (m : Nat) : magnitude c e * (2 * one) = m ↔
      c * (powerOfTen e).1 * (2 * one) = m * (powerOfTen e).2 := by
    rw [← mul_left_inj' hd'.ne', scaled]
    exact_mod_cast Iff.rfl
  simp only [above, below, on, ne_eq]
  exact roundsTo_iff

theorem magnitude_of_roundsTo {r c : Nat} {e : Int} (h : decimalRoundsTo r c e = true) :
    (lowerMidpoint r : ℚ) ≤ magnitude c e * (2 * one) ∧
      magnitude c e * (2 * one) ≤ upperMidpoint r :=
  ⟨(decimalRoundsTo_iff.mp h).1, (decimalRoundsTo_iff.mp h).2.1⟩

theorem lowerMidpoint_pos {r : Nat} (hr : 0 < r) : 0 < lowerMidpoint r := by
  have : units 0 < units r := units_strictMono hr
  unfold lowerMidpoint
  omega

theorem pos_of_roundsTo {r c : Nat} {e : Int} (hr : 0 < r) (h : decimalRoundsTo r c e = true) :
    0 < c := by
  have lower : (0 : ℚ) < lowerMidpoint r := by exact_mod_cast lowerMidpoint_pos hr
  have above := lower.trans_le (magnitude_of_roundsTo h).1
  exact Decimal.pos_of_magnitude_pos (pos_of_mul_pos_left above two_one_pos.le)

/-- A point that is found on a grid is one of the two neighbours of the value, and rounds back. -/
theorem onGrid_eq_some {r c : Nat} {e : Int} (h : onGrid? r e = some c) :
    (c = units r * (powerOfTen e).2 / (one * (powerOfTen e).1) ∨
      c = units r * (powerOfTen e).2 / (one * (powerOfTen e).1) + 1) ∧
      decimalRoundsTo r c e = true := by
  unfold onGrid? at h
  dsimp only at h
  generalize units r * (powerOfTen e).2 / (one * (powerOfTen e).1) = below at h ⊢
  split at h
  · cases h
  · rename_i first _
    obtain rfl := Option.some.inj h
    exact ⟨.inl rfl, first⟩
  · rename_i _ second
    obtain rfl := Option.some.inj h
    exact ⟨.inr rfl, second⟩
  · rename_i first second
    rw [← Option.some.inj h]
    split
    · exact ⟨.inl rfl, first⟩
    · exact ⟨.inr rfl, second⟩

theorem outside_of_not_roundsTo {r c : Nat} {e : Int} (h : decimalRoundsTo r c e = false) :
    2 * (c * (one * (powerOfTen e).1)) ≤ lowerMidpoint r * (powerOfTen e).2 ∨
      upperMidpoint r * (powerOfTen e).2 ≤ 2 * (c * (one * (powerOfTen e).1)) := by
  have shape : c * (powerOfTen e).1 * (2 * one) = 2 * (c * (one * (powerOfTen e).1)) := by ring
  rw [← Bool.not_eq_true, decimalRoundsTo, roundsTo_iff, shape] at h
  omega

theorem leadingPlace_spec {r : Nat} (hr : 0 < r) :
    (10 : ℚ) ^ leadingPlace r * one ≤ units r ∧
      (units r : ℚ) < (10 : ℚ) ^ (leadingPlace r + 1) * one := by
  -- Moved by 324 places even the least number above zero has a digit before the point.
  let places := 324
  let count := Decimal.digitCount (units r * pow10 places / one)
  have large : one ≤ pow10 places := by decide +kernel
  have some : 0 < units r * pow10 places / one := by
    have : units 0 < units r := units_strictMono hr
    exact Nat.div_pos (large.trans (Nat.le_mul_of_pos_left _ (by omega))) one_pos
  have pos : 0 < count := Decimal.digitCount_pos _
  have low : pow10 (count - 1) * one ≤ units r * pow10 places := by
    have := (Decimal.lt_digitCount_iff some).mp (show count - 1 < count by omega)
    exact (Nat.mul_le_mul_right _ this).trans (Nat.div_mul_le_self _ _)
  have high : units r * pow10 places < pow10 count * one :=
    (Nat.div_lt_iff_lt_mul one_pos).mp ((Decimal.digitCount_le_iff pos).mp le_rfl)
  have low' : (10 : ℚ) ^ ((count - 1 : Nat) : Int) * one ≤ units r * (10 : ℚ) ^ (places : Int) := by
    rw [← cast_pow10, ← cast_pow10]
    exact_mod_cast low
  have high' : units r * (10 : ℚ) ^ (places : Int) < (10 : ℚ) ^ (count : Int) * one := by
    rw [← cast_pow10, ← cast_pow10]
    exact_mod_cast high
  have positive : (0 : ℚ) < (10 : ℚ) ^ (places : Int) := by positivity
  have back (k : Int) : (10 : ℚ) ^ k * one * (10 : ℚ) ^ (places : Int) =
      (10 : ℚ) ^ (k + places) * one := by
    rw [zpow_add₀ (by norm_num)]
    ring
  have place : leadingPlace r + places = (count - 1 : Nat) := by
    change -324 + (count : Int) - 1 + 324 = _
    omega
  constructor
  · rw [← mul_le_mul_iff_left₀ positive, back, place]
    exact low'
  · rw [← mul_lt_mul_iff_left₀ positive, back]
    have : leadingPlace r + 1 + places = count := by omega
    rw [this]
    exact high'

theorem grid_bounds {r : Nat} (hr : 0 < r) (i : Nat) :
    pow10 i * (one * (powerOfTen (leadingPlace r - i)).1) ≤
        units r * (powerOfTen (leadingPlace r - i)).2 ∧
      units r * (powerOfTen (leadingPlace r - i)).2 <
        pow10 (i + 1) * (one * (powerOfTen (leadingPlace r - i)).1) := by
  obtain ⟨hd, hv⟩ := powerOfTen_value (leadingPlace r - i)
  obtain ⟨low, high⟩ := leadingPlace_spec hr
  generalize powerOfTen (leadingPlace r - i) = ten at hd hv ⊢
  have positive : (0 : ℚ) < ten.2 := by exact_mod_cast hd
  have scaled (k : Nat) : ((pow10 k * (one * ten.1) : Nat) : ℚ) =
      (10 : ℚ) ^ (leadingPlace r - i + k) * one * ten.2 := by
    push_cast
    rw [cast_pow10, ← hv, zpow_add₀ (by norm_num)]
    ring
  constructor
  · have := mul_le_mul_of_nonneg_right low positive.le
    have place : leadingPlace r - i + i = leadingPlace r := by omega
    rw [← place, ← scaled] at this
    exact_mod_cast this
  · have := mul_lt_mul_of_pos_right high positive
    have place : leadingPlace r - i + ((i + 1 : Nat) : Int) = leadingPlace r + 1 := by omega
    rw [← place, ← scaled] at this
    exact_mod_cast this

theorem onGrid_ne_none {r : Nat} {e : Int} (hr : 0 < r)
    (fine : 2 * binade * (one * (powerOfTen e).1) < units r * (powerOfTen e).2) :
    onGrid? r e ≠ none := by
  intro none
  have hd : 0 < (powerOfTen e).2 := (powerOfTen_value e).1
  have hn : 0 < one * (powerOfTen e).1 := Nat.mul_pos one_pos (powerOfTen_pos e)
  have neither : ∀ c, c = units r * (powerOfTen e).2 / (one * (powerOfTen e).1) →
      decimalRoundsTo r c e = false ∧ decimalRoundsTo r (c + 1) e = false := by
    rintro c rfl
    unfold onGrid? at none
    dsimp only at none
    split at none
    · rename_i first second
      exact ⟨first, second⟩
    · cases none
    · cases none
    · cases none
  obtain ⟨c, hc⟩ : ∃ c, c = units r * (powerOfTen e).2 / (one * (powerOfTen e).1) := ⟨_, rfl⟩
  have first := outside_of_not_roundsTo (neither c hc).1
  have second := outside_of_not_roundsTo (neither c hc).2
  have floor : c * (one * (powerOfTen e).1) ≤ units r * (powerOfTen e).2 := by
    rw [hc]
    exact Nat.div_mul_le_self _ _
  have ceiling : units r * (powerOfTen e).2 < (c + 1) * (one * (powerOfTen e).1) := by
    rw [hc]
    exact Nat.lt_mul_of_div_lt (Nat.lt_succ_self _) hn
  unfold lowerMidpoint upperMidpoint at first second
  clear neither hc none
  generalize powerOfTen e = ten at *
  obtain ⟨n, d⟩ := ten
  dsimp only at first second floor ceiling fine hd
  simp only [Nat.add_mul, Nat.one_mul] at first second ceiling
  have up : units r * d < units (r + 1) * d := Nat.mul_lt_mul_of_pos_right (units_lt_succ r) hd
  have down : units (r - 1) * d < units r * d :=
    Nat.mul_lt_mul_of_pos_right (units_strictMono (show r - 1 < r by omega)) hd
  have gap (k : Nat) : units (k + 1) * d ≤ 2 * binade * (units (k + 1) * d - units k * d) := by
    rw [← Nat.sub_mul, ← Nat.mul_assoc]
    exact Nat.mul_le_mul_right _ (units_succ_le k)
  have above := gap r
  have below := gap (r - 1)
  rw [Nat.sub_add_cancel hr] at below
  have width : 2 * binade = 9007199254740992 := rfl
  rw [width] at fine above below
  -- The neighbours would be at least as far apart as the midpoints, but one step is less than that.
  omega

/-- Seventeen digits are enough: a grid is found, and the exact value is never written out. -/
theorem exists_shortest {r : Nat} (hr : 0 < r) :
    ∃ (i c : Nat), i < mostDigits ∧ onGrid? r (leadingPlace r - i) = some c ∧
      shortest r = (c, leadingPlace r - i) := by
  have last : onGrid? r (leadingPlace r - (mostDigits - 1 : Nat)) ≠ none := by
    have grid := (grid_bounds hr (mostDigits - 1)).1
    have tens : 2 * binade < pow10 (mostDigits - 1) := by decide
    have pos : 0 < one * (powerOfTen (leadingPlace r - (mostDigits - 1 : Nat))).1 :=
      Nat.mul_pos one_pos (powerOfTen_pos _)
    exact onGrid_ne_none hr ((Nat.mul_lt_mul_of_pos_right tens pos).trans_le grid)
  unfold shortest
  dsimp only
  generalize hf : List.findSome? _ _ = search
  cases search with
  | some found =>
    obtain ⟨e, he, found⟩ := List.exists_of_findSome?_eq_some hf
    obtain ⟨c, hc, rfl⟩ := Option.map_eq_some_iff.mp found
    obtain ⟨i, hi, rfl⟩ := List.mem_map.mp he
    exact ⟨i, c, List.mem_range.mp hi, hc, rfl⟩
  | none =>
    have missed := List.findSome?_eq_none_iff.mp hf (leadingPlace r - (mostDigits - 1 : Nat))
      (List.mem_map.mpr ⟨mostDigits - 1, List.mem_range.mpr (by decide), rfl⟩)
    exact absurd (Option.map_eq_none_iff.mp missed) last

theorem shortest_roundsTo {r : Nat} (hr : 0 < r) :
    decimalRoundsTo r (shortest r).1 (shortest r).2 = true := by
  obtain ⟨i, c, _, hc, found⟩ := exists_shortest hr
  rw [found]
  exact (onGrid_eq_some hc).2

theorem shortest_exponent_ge {r : Nat} (hr : 0 < r) : -340 ≤ (shortest r).2 := by
  obtain ⟨i, c, hi, _, found⟩ := exists_shortest hr
  have place := Decimal.digitCount_pos (units r * pow10 324 / one)
  have few : mostDigits = 17 := rfl
  rw [found]
  unfold leadingPlace Decimal.leadingExponent
  dsimp only
  omega

theorem shortest_digits {r : Nat} (hr : 0 < r) :
    Decimal.digitCount (shortest r).1 ≤ mostDigits + 1 := by
  obtain ⟨i, c, hi, hc, found⟩ := exists_shortest hr
  have pos : 0 < one * (powerOfTen (leadingPlace r - i)).1 :=
    Nat.mul_pos one_pos (powerOfTen_pos _)
  have below := (Nat.div_lt_iff_lt_mul pos).mpr (grid_bounds hr i).2
  have near := (onGrid_eq_some hc).1
  have wide : pow10 (i + 1) ≤ pow10 mostDigits := Nat.pow_le_pow_right (by decide) hi
  have wider : pow10 mostDigits < pow10 (mostDigits + 1) := by decide
  rw [found, Decimal.digitCount_le_iff (by omega)]
  dsimp only
  omega

theorem shortest_pos {r : Nat} (hr : 0 < r) : 0 < (shortest r).1 :=
  pos_of_roundsTo hr (shortest_roundsTo hr)

def rankValue (r : Nat) : ℚ := if r = 0 then 0 else magnitude (shortest r).1 (shortest r).2

theorem rankValue_nonneg (r : Nat) : 0 ≤ rankValue r := by
  unfold rankValue
  split
  · exact le_rfl
  · exact Decimal.magnitude_nonneg _ _

theorem rankValue_pos {r : Nat} (hr : 0 < r) : 0 < rankValue r := by
  rw [rankValue, if_neg (by omega)]
  exact Decimal.magnitude_pos (shortest_pos hr) _

theorem rankValue_mono {r t : Nat} (h : r ≤ t) : rankValue r ≤ rankValue t := by
  rcases Nat.eq_or_lt_of_le h with rfl | lt
  · exact le_rfl
  by_cases hr : r = 0
  · rw [rankValue, if_pos hr]
    exact rankValue_nonneg t
  · rw [rankValue, if_neg hr, rankValue, if_neg (by omega)]
    have below := (magnitude_of_roundsTo (shortest_roundsTo (show 0 < r by omega))).2
    have above := (magnitude_of_roundsTo (shortest_roundsTo (show 0 < t by omega))).1
    have between : upperMidpoint r ≤ lowerMidpoint t := by
      have h1 := units_strictMono.monotone (show r ≤ t - 1 by omega)
      have h2 := units_strictMono.monotone (show r + 1 ≤ t by omega)
      unfold upperMidpoint lowerMidpoint
      omega
    have between' : (upperMidpoint r : ℚ) ≤ lowerMidpoint t := by exact_mod_cast between
    exact (mul_le_mul_iff_left₀ two_one_pos).mp (below.trans (between'.trans above))

theorem value_toDecimal_finite (negative : Bool) (r : Fin magnitudes) :
    (Binary64.finite negative r).toDecimal.value? =
      some (if negative then -rankValue r else rankValue r) := by
  simp only [toDecimal, rankValue]
  by_cases hr : r.val = 0
  · rw [if_pos hr, if_pos hr]
    simp [value?, magnitude]
  · rw [if_neg hr, if_neg hr]
    rfl

theorem value_toDecimal_mono {x y : Binary64} {v w : ℚ} (h : x.le y = true)
    (hv : x.toDecimal.value? = some v) (hw : y.toDecimal.value? = some w) : v ≤ w := by
  obtain ⟨a, b, ha, hb, hab⟩ := le_iff.mp h
  cases x with
  | nan => cases hv
  | infinite _ => cases hv
  | finite negative r =>
    cases y with
    | nan => cases hw
    | infinite _ => cases hw
    | finite negative' t =>
      rw [value_toDecimal_finite] at hv hw
      cases hv
      cases hw
      cases ha
      cases hb
      have hr := rankValue_nonneg r
      have ht := rankValue_nonneg t
      cases negative <;> cases negative' <;>
        simp only [signed, if_true, if_false, Bool.false_eq_true] at hab ⊢
      · exact rankValue_mono (by omega)
      · have zr : r.val = 0 := by omega
        have zt : t.val = 0 := by omega
        simp [rankValue, zr, zt]
      · linarith
      · exact neg_le_neg (rankValue_mono (by omega))

theorem magnitude_lt_of_roundsTo (r : Fin magnitudes) {c : Nat} {e : Int}
    (h : decimalRoundsTo r c e = true) : magnitude c e < magnitude 1 309 := by
  have bound := (magnitude_of_roundsTo h).2
  have top : upperMidpoint r ≤ 2 * units magnitudes := by
    have h1 := units_strictMono.monotone r.isLt.le
    have h2 := units_strictMono.monotone (show r.val + 1 ≤ magnitudes from r.isLt)
    unfold upperMidpoint
    omega
  have small : units magnitudes < pow10 309 * one := by decide +kernel
  have top' : (upperMidpoint r : ℚ) < (pow10 309 : Nat) * (2 * one) := by
    have : upperMidpoint r < pow10 309 * (2 * one) := by
      rw [Nat.mul_left_comm]
      omega
    exact_mod_cast this
  have tens : magnitude 1 309 = (pow10 309 : Nat) := by
    have := Decimal.magnitude_scale 1 309 309
    rw [← this]
    simp [magnitude]
  rw [tens]
  exact (mul_lt_mul_iff_left₀ two_one_pos).mp (bound.trans_lt top')

theorem rankValue_lt (r : Fin magnitudes) : rankValue r < magnitude 1 309 := by
  by_cases hr : r.val = 0
  · rw [rankValue, if_pos hr]
    exact Decimal.magnitude_pos Nat.one_pos _
  · rw [rankValue, if_neg hr]
    exact magnitude_lt_of_roundsTo r (shortest_roundsTo (Nat.pos_of_ne_zero hr))

end MapExtract.Binary64
