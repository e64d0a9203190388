import Mathlib.Algebra.Order.Round
import Mathlib.Data.Rat.Floor
import MapExtract.Proofs.TileCover
import MapExtract.Proofs.WorkingLimit

set_option autoImplicit false
namespace MapExtract

/-- A whole number is nearest to a rational one, and preferred to another that is equally near. -/
def Nearest (prefers : ℤ → ℤ → Prop) (x : ℚ) (k : ℤ) : Prop :=
  ∀ n : ℤ, n ≠ k → |x - k| < |x - n| ∨ |x - k| = |x - n| ∧ prefers k n

namespace Nearest

abbrev Upward : ℚ → ℤ → Prop := Nearest fun k n => n < k

abbrev Outward : ℚ → ℤ → Prop := Nearest fun k n => |n| < |k|

theorem of_tie {prefers : ℤ → ℤ → Prop} {x : ℚ}
    (tie : (round x : ℚ) = x + 1 / 2 → prefers (round x) (round x - 1)) :
    Nearest prefers x (round x) := by
  intro n other
  rcases (round_le x n).lt_or_eq with nearer | same
  · exact Or.inl nearer
  · -- Two whole numbers at the same distance lie around a half, and the lower one is the other.
    have low := sub_half_lt_round x
    have high := round_le_add_half x
    have middle : (n : ℚ) + round x = 2 * x := by
      rcases abs_eq_abs.mp same with left | right
      · have : (n : ℚ) = round x := by linarith
        exact absurd (by exact_mod_cast this) other
      · linarith
    have below : n < round x := by
      by_contra above
      have apart : (round x : ℚ) + 1 ≤ n := by exact_mod_cast (show round x + 1 ≤ n by omega)
      linarith
    have next : n = round x - 1 := by
      have close : (round x : ℚ) ≤ n + 1 := by linarith
      have : round x ≤ n + 1 := by exact_mod_cast close
      omega
    refine Or.inr ⟨same, ?_⟩
    rw [next]
    apply tie
    rw [next] at middle
    push_cast at middle
    linarith

theorem upward_round (x : ℚ) : Upward x (round x) := of_tie fun _ => sub_one_lt (round x)

theorem outward_round {x : ℚ} (hx : 0 ≤ x) : Outward x (round x) := by
  apply of_tie
  intro half
  have positive : (0 : ℚ) < round x := by linarith
  have : 0 < round x := by exact_mod_cast positive
  rw [abs_of_pos this, abs_of_nonneg (by omega)]
  exact sub_one_lt (round x)

theorem Outward.neg {x : ℚ} {k : ℤ} (h : Outward x k) : Outward (-x) (-k) := by
  have turned (m : ℤ) : |-x - m| = |x - (-m : ℤ)| := by
    rw [← abs_neg]
    push_cast
    ring_nf
  intro n other
  have mirrored := h (-n) (by omega)
  simp only [abs_neg] at mirrored
  simp only [turned, Int.neg_neg, abs_neg]
  exact mirrored

theorem of_whole {prefers : ℤ → ℤ → Prop} (k : ℤ) : Nearest prefers k k := by
  intro n other
  have apart : (k : ℚ) - n ≠ 0 := by
    rw [sub_ne_zero]
    exact_mod_cast other.symm
  rw [sub_self, abs_zero]
  exact Or.inl (abs_pos.mpr apart)

end Nearest

theorem round_mono {x y : ℚ} (h : x ≤ y) : round x ≤ round y := by
  rw [round_eq, round_eq]
  exact Int.floor_le_floor (by linarith)

theorem round_nonpos {x : ℚ} (h : x ≤ 0) : round x ≤ 0 := by
  have := round_mono h
  rwa [round_zero] at this

theorem divHalfUp_eq_round (n : Nat) {d : Nat} (hd : 0 < d) :
    (divHalfUp n d : ℤ) = round ((n : ℚ) / d) := by
  have pos : (0 : ℚ) < d := by exact_mod_cast hd
  have half : (n : ℚ) / d + 1 / 2 = ((2 * n + d : Nat) : ℤ) / ((2 * d : Nat) : ℚ) := by
    push_cast
    field_simp
  rw [round_eq, half, Rat.floor_intCast_div_natCast]
  rfl

namespace Decimal

theorem toWhole_eq_round (c : Nat) (e : Int) : (toWhole c e : ℤ) = round (magnitude c e) := by
  unfold toWhole
  split
  · rename_i whole
    have exact : magnitude c e = ((c * pow10 e.toNat : Nat) : ℚ) := by
      rw [magnitude, Nat.cast_mul, cast_pow10, Int.toNat_of_nonneg whole]
    rw [exact, round_natCast]
  · rename_i fraction
    have quotient : magnitude c e = (c : ℚ) / (pow10 (-e).toNat : Nat) := by
      rw [cast_pow10, Int.toNat_of_nonneg (by omega), zpow_neg, div_inv_eq_mul, magnitude]
    rw [quotient, divHalfUp_eq_round c (pow10_pos _)]

/-- A number that can be written with 28 digits is shifted and rounded as if it were not cut. -/
theorem toWhole_shift_eq_round {c c' : Nat} {e e' p : Int} {r : Nat × Int}
    (hr : shift? c e p = some r) (short : digitCount c' ≤ workingDigits)
    (same : magnitude c (e + p) = magnitude c' e') :
    (toWhole r.1 r.2 : ℤ) = round (magnitude c (e + p)) := by
  rw [toWhole_of_shift hr]
  split
  · rename_i gone
    have small : magnitude c (e + p) < 1 / 2 := by
      rcases gone with rfl | low
      · rw [magnitude, Nat.cast_zero, zero_mul]
        norm_num
      · have few : leadingExponent c (e + p) + 1 ≤ -1 := by
          have : (1 : Int) < workingExponent := by decide
          omega
        calc
          magnitude c (e + p) < 10 ^ (leadingExponent c (e + p) + 1) := magnitude_lt_power c (e + p)
          _ ≤ (10 : ℚ) ^ (-1 : Int) := zpow_le_zpow_right₀ (by norm_num) few
          _ ≤ 1 / 2 := by norm_num
    have nonneg := magnitude_nonneg c (e + p)
    exact (round_eq_zero_iff.mpr ⟨by linarith, small⟩).symm
  · rename_i kept
    have pos : 0 < c := Nat.pos_of_ne_zero (not_or.mp kept).1
    have pos' : 0 < c' := pos_of_magnitude_pos (same ▸ magnitude_pos pos (e + p))
    have uncut : cutWhole c' e' = toWhole c' e' := by rw [cutWhole, cut_eq_self c' e' short]
    have equal : cutWhole c (e + p) = cutWhole c' e' :=
      Nat.le_antisymm (cutWhole_le_of_magnitude pos pos' same.le)
        (cutWhole_le_of_magnitude pos' pos same.ge)
    rw [equal, uncut, toWhole_eq_round, same]

end Decimal

namespace Degrees
open Decimal

/-- Numbers for which 28 digits are enough; whole and binary numbers are rounded exactly in any case. -/
def FewDigits : Degrees → Prop
  | .whole _ => True
  | .binary _ => True
  | d => ∃ short : Decimal, short.Short ∧ short.extent? = d.extent?

theorem toFixed_eq_ok {d : Degrees} {f : Int} (cuttable : ∀ n, d ≠ .whole n) (hf : d.toFixed = .ok f) :
    ∃ x, d.asDecimal = .ok x ∧ fixedOfDecimal x = .ok f := by
  have bound : d.asDecimal.bind fixedOfDecimal = .ok f := by
    cases d with
    | whole n => exact absurd rfl (cuttable n)
    | binary _ => exact hf
    | text _ => exact hf
    | decimal _ => exact hf
  cases hx : d.asDecimal with
  | error cause =>
    rw [hx] at bound
    cases bound
  | ok x =>
    rw [hx] at bound
    exact ⟨x, rfl, bound⟩

theorem exists_short {d : Degrees} {x : Decimal} (cuttable : ∀ n, d ≠ .whole n) (few : d.FewDigits)
    (hx : d.asDecimal = .ok x) {v : ℚ} (value : x.extent? = some (.ofRat v)) :
    ∃ short : Decimal, short.Short ∧ short.extent? = some (.ofRat v) := by
  have same := extent_of_asDecimal cuttable hx
  cases d with
  | whole n => exact absurd rfl (cuttable n)
  | binary y =>
    cases hx
    refine ⟨y.toDecimal, Binary64.toDecimal_short ?_, value⟩
    rintro rfl
    cases value
  | text s =>
    obtain ⟨short, hs, told⟩ := few
    exact ⟨short, hs, told.trans (same.trans value)⟩
  | decimal y =>
    obtain ⟨short, hs, told⟩ := few
    exact ⟨short, hs, told.trans (same.trans value)⟩

theorem fixedOfDecimal_eq_ok {x : Decimal} {f : Int} (hf : fixedOfDecimal x = .ok f) :
    ∃ negative c e r, x = .finite negative c e ∧ shift? c e places = some r ∧
      f = signed negative (toWhole r.1 r.2) := by
  cases x with
  | special _ => cases hf
  | finite negative c e =>
    simp only [fixedOfDecimal] at hf
    cases hr : shift? c e places with
    | none =>
      rw [hr] at hf
      cases hf
    | some r =>
      rw [hr] at hf
      cases hf
      exact ⟨negative, c, e, r, rfl, hr, rfl⟩

theorem fixedOfDecimal_outward {x short : Decimal} {f : Int} {v : ℚ} (hf : fixedOfDecimal x = .ok f)
    (value : x.extent? = some (.ofRat v)) (few : short.Short)
    (same : short.extent? = some (.ofRat v)) : Nearest.Outward (v * 10 ^ 7) f := by
  obtain ⟨negative, c, e, r, rfl, hr, rfl⟩ := fixedOfDecimal_eq_ok hf
  obtain ⟨negative', c', e', rfl⟩ := exists_finite same
  have moved := magnitude_moved value
  have rounded := toWhole_shift_eq_round hr few (moved.trans (magnitude_moved same).symm)
  have nonneg : 0 ≤ |v| * 10 ^ 7 := by positivity
  have unsigned : Nearest.Outward (|v| * 10 ^ 7) (toWhole r.1 r.2 : ℤ) := by
    rw [rounded, moved]
    exact Nearest.outward_round nonneg
  have sign : v = if negative then -magnitude c e else magnitude c e :=
    (Extent.ofRat_injective (Option.some.inj value)).symm
  have size := magnitude_nonneg c e
  cases negative with
  | false =>
    have : |v| = v := by
      rw [sign]
      exact abs_of_nonneg size
    rw [this] at unsigned
    exact unsigned
  | true =>
    have : |v| * 10 ^ 7 = -(v * 10 ^ 7) := by
      rw [sign]
      simp [abs_of_nonneg size]
    rw [this] at unsigned
    have turned := unsigned.neg
    rw [neg_neg] at turned
    exact turned

end Degrees

namespace Axis
open Decimal Degrees

def position (axis : Axis) (f : ℤ) : ℚ := (f / 10 ^ 7 + axis.reach) * 65535 / (2 * axis.reach)

variable {axis : Axis}

theorem position_eq (axis : Axis) (f : ℤ) : axis.position f =
    ((f + axis.reach * scale) * lastCell : ℤ) / (2 * axis.reach * scale : Nat) := by
  have ten : (scale : ℚ) = 10 ^ 7 := by norm_num [scale, places, pow10]
  have last : (lastCell : ℚ) = 65535 := by norm_num [lastCell]
  have wide : (axis.reach : ℚ) ≠ 0 := by cases axis <;> norm_num [reach]
  rw [position]
  push_cast
  rw [ten, last]
  field_simp

theorem cell_eq_round (axis : Axis) (f : ℤ) :
    (axis.cell f : ℤ) = max 0 (min (round (axis.position f)) 65535) := by
  have span : 0 < 2 * axis.reach * scale := by cases axis <;> decide
  have last : (lastCell : ℤ) = 65535 := rfl
  rw [position_eq]
  unfold cell
  dsimp only
  rcases le_total 0 ((f + axis.reach * scale) * lastCell : ℤ) with inside | outside
  · obtain ⟨n, hn⟩ := Int.eq_ofNat_of_zero_le inside
    rw [hn, Int.toNat_natCast, Int.cast_natCast, ← divHalfUp_eq_round n span]
    omega
  · have quotient : (((f + axis.reach * scale) * lastCell : ℤ) : ℚ) /
        (2 * axis.reach * scale : Nat) ≤ 0 :=
      div_nonpos_of_nonpos_of_nonneg (by exact_mod_cast outside) (Nat.cast_nonneg _)
    have low := round_nonpos quotient
    have first : (divHalfUp 0 (2 * axis.reach * scale) : ℤ) = 0 := by
      rw [divHalfUp_eq_round 0 span, Nat.cast_zero, zero_div, round_zero]
    rw [Int.toNat_of_nonpos outside]
    omega

theorem cell_eq_of_abs_le {f : ℤ} (h : |f| ≤ axis.reach * 10 ^ 7) :
    (axis.cell f : ℤ) = round (axis.position f) := by
  have wide : (0 : ℚ) < 2 * axis.reach := by cases axis <;> norm_num [reach]
  obtain ⟨low, high⟩ := abs_le.mp h
  have west : -(axis.reach * 10 ^ 7 : ℚ) ≤ f := by exact_mod_cast low
  have east : (f : ℚ) ≤ axis.reach * 10 ^ 7 := by exact_mod_cast high
  have first : 0 ≤ axis.position f := by
    apply div_nonneg _ wide.le
    linarith
  have last : axis.position f ≤ 65535 := by
    rw [position, div_le_iff₀ wide]
    linarith
  have below : round (axis.position f) ≤ 65535 := by
    have := round_mono last
    rwa [round_ofNat] at this
  have above : 0 ≤ round (axis.position f) := by
    have := round_mono first
    rwa [round_zero] at this
  rw [cell_eq_round]
  omega

theorem cellOf_of_toFixed (axis : Axis) {d : Degrees} {f : Int} (hf : d.toFixed = .ok f) :
    axis.cellOf d = .ok (axis.cell f) := by
  obtain ⟨n, rfl⟩ | cuttable := d.eq_whole_or
  · cases hf
    rfl
  · obtain ⟨x, hx, fixed⟩ := toFixed_eq_ok cuttable hf
    obtain ⟨negative, c, e, _, rfl, _⟩ := fixedOfDecimal_eq_ok fixed
    rw [cellOf_of_asDecimal axis cuttable hx, cellOf_decimal_finite, fixed]
    rfl

end Axis

namespace Degrees
open Decimal

theorem toFixed_outward {d : Degrees} {f : Int} (few : d.FewDigits) (hf : d.toFixed = .ok f) :
    ∃ v : ℚ, d.extent? = some (.ofRat v) ∧ Nearest.Outward (v * 10 ^ 7) f := by
  obtain ⟨n, rfl⟩ | cuttable := d.eq_whole_or
  · cases hf
    have exact : (n : ℚ) * 10 ^ 7 = ((n * scale : ℤ) : ℚ) := by
      push_cast
      norm_num [scale, places, pow10]
    refine ⟨n, rfl, ?_⟩
    rw [exact]
    exact Nearest.of_whole _
  · obtain ⟨x, hx, fixed⟩ := toFixed_eq_ok cuttable hf
    obtain ⟨negative, c, e, _, rfl, _⟩ := fixedOfDecimal_eq_ok fixed
    obtain ⟨v, value⟩ : ∃ v, (Decimal.finite negative c e).extent? = some (.ofRat v) := ⟨_, rfl⟩
    obtain ⟨short, small, same⟩ := exists_short cuttable few hx value
    exact ⟨v, (extent_of_asDecimal cuttable hx).trans value,
      fixedOfDecimal_outward fixed value small same⟩

/-- A number of no more than 28 digits is rounded to the nearest unit, and a half goes away from
zero. Its cell is the nearest one to this unit, where a half goes up, or the last one at an edge. -/
theorem rounded_to_nearest {d : Degrees} {f : Int} (few : d.FewDigits) (hf : d.toFixed = .ok f) :
    (∃ v : ℚ, d.extent? = some (.ofRat v) ∧ Nearest.Outward (v * 10 ^ 7) f) ∧
    ∀ axis : Axis, ∃ (c : Nat) (k : ℤ), axis.cellOf d = .ok c ∧
      Nearest.Upward (axis.position f) k ∧ (c : ℤ) = max 0 (min k 65535) ∧
      (|f| ≤ axis.reach * 10 ^ 7 → |axis.position f - c| ≤ 1 / 2) := by
  refine ⟨toFixed_outward few hf, fun axis => ?_⟩
  refine ⟨axis.cell f, round (axis.position f), axis.cellOf_of_toFixed hf, Nearest.upward_round _,
    axis.cell_eq_round f, fun inside => ?_⟩
  have exact : (axis.cell f : ℚ) = (round (axis.position f) : ℚ) := by
    exact_mod_cast axis.cell_eq_of_abs_le inside
  rw [exact]
  exact abs_sub_round _

theorem rounded_to_nearest_half : (Degrees.text "-0.00000005").FewDigits ∧
    (Degrees.text "-0.00000005").toFixed = .ok (-1) ∧
    (∃ v : ℚ, (Degrees.text "-0.00000005").extent? = some (.ofRat v) ∧
      Nearest.Outward (v * 10 ^ 7) (-1)) ∧
    ∀ axis : Axis, ∃ (c : Nat) (k : ℤ), axis.cellOf (.text "-0.00000005") = .ok c ∧
      Nearest.Upward (axis.position (-1)) k ∧ (c : ℤ) = max 0 (min k 65535) ∧
      (|(-1 : ℤ)| ≤ axis.reach * 10 ^ 7 → |axis.position (-1) - c| ≤ 1 / 2) := by
  have read : Decimal.read "-0.00000005" = .ok (.finite true 5 (-8)) := by decide +kernel
  have few : (Degrees.text "-0.00000005").FewDigits := by
    refine ⟨.finite true 5 (-8), show digitCount 5 ≤ workingDigits by decide, ?_⟩
    rw [extent?, read]
    rfl
  have fixed : (Degrees.text "-0.00000005").toFixed = .ok (-1) := by decide +kernel
  exact ⟨few, fixed, rounded_to_nearest few fixed⟩

end Degrees
end MapExtract
