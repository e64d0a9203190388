import MapExtract.Proofs.TileOrder

set_option autoImplicit false
namespace MapExtract

/-- An even quotient is reached from half a unit below it, since that half is rounded up. -/
theorem le_divHalfEven_iff (n : Nat) {d q : Nat} (hd : 0 < d) (even : q % 2 = 0) :
    q ≤ divHalfEven n d ↔ 2 * d * q ≤ 2 * n + d := by
  constructor
  · intro reached
    exact (Nat.mul_le_mul_left _ reached).trans (divHalfEven_le n d)
  · intro h
    have parts := Nat.div_add_mod n d
    have rest := Nat.mod_lt n hd
    unfold divHalfEven
    generalize n / d = whole at parts ⊢
    generalize n % d = r at parts rest ⊢
    have near : q ≤ whole + 1 := by
      by_contra far
      have step := Nat.mul_le_mul_left (2 * d) (show whole + 2 ≤ q by omega)
      have open_step : 2 * d * (whole + 2) = 2 * (d * whole) + 4 * d := by ring
      omega
    rcases Nat.lt_or_eq_of_le near with below | rfl
    · split <;> omega
    · have open_next : 2 * d * (whole + 1) = 2 * (d * whole) + 2 * d := by ring
      rw [if_neg (by omega)]

namespace Decimal

theorem magnitude_lt_power (c : Nat) (e : Int) : magnitude c e < (10 : ℚ) ^ (leadingExponent c e + 1) := by
  have digits : c < pow10 (digitCount c) := (digitCount_le_iff (digitCount_pos c)).mp le_rfl
  have below : (c : ℚ) < (10 : ℚ) ^ (digitCount c : Int) := by
    rw [← cast_pow10]
    exact_mod_cast digits
  have place : (digitCount c : Int) + e = leadingExponent c e + 1 := by
    unfold leadingExponent
    omega
  calc
    magnitude c e < (10 : ℚ) ^ (digitCount c : Int) * 10 ^ e := mul_lt_mul_of_pos_right below (by positivity)
    _ = 10 ^ (leadingExponent c e + 1) := by rw [← zpow_add₀ (by norm_num), place]

theorem power_le_magnitude {c : Nat} (hc : 0 < c) (e : Int) :
    (10 : ℚ) ^ leadingExponent c e ≤ magnitude c e := by
  have pos := digitCount_pos c
  have digits : pow10 (digitCount c - 1) ≤ c := (lt_digitCount_iff hc).mp (by omega)
  have above : (10 : ℚ) ^ ((digitCount c - 1 : Nat) : Int) ≤ c := by
    rw [← cast_pow10]
    exact_mod_cast digits
  have place : leadingExponent c e = ((digitCount c - 1 : Nat) : Int) + e := by
    unfold leadingExponent
    omega
  calc
    (10 : ℚ) ^ leadingExponent c e = 10 ^ ((digitCount c - 1 : Nat) : Int) * 10 ^ e := by
      rw [place, zpow_add₀ (by norm_num)]
    _ ≤ magnitude c e := mul_le_mul_of_nonneg_right above (by positivity)

/-- Half a unit of the last of 28 digits below the power of ten that has a digit too many. -/
def workingLimit : ℚ :=
  ((10 : ℚ) ^ (workingDigits : Int) - 1 / 2) * 10 ^ (workingExponent + 1 - workingDigits)

theorem workingLimit_bounds :
    (10 : ℚ) ^ workingExponent ≤ workingLimit ∧ workingLimit ≤ 10 ^ (workingExponent + 1) := by
  have unit : (0 : ℚ) < 10 ^ (workingExponent + 1 - workingDigits) := by positivity
  have top : (10 : ℚ) ^ (workingExponent + 1) =
      10 ^ (workingDigits : Int) * 10 ^ (workingExponent + 1 - workingDigits) := by
    rw [← zpow_add₀ (by norm_num), add_sub_cancel]
  have below : (10 : ℚ) ^ workingExponent =
      10 ^ ((workingDigits : Int) - 1) * 10 ^ (workingExponent + 1 - workingDigits) := by
    have place : (workingDigits : Int) - 1 + (workingExponent + 1 - workingDigits) = workingExponent := by
      omega
    rw [← zpow_add₀ (by norm_num), place]
  have apart : (10 : ℚ) ^ ((workingDigits : Int) - 1) ≤ 10 ^ (workingDigits : Int) - 1 / 2 := by
    norm_num [workingDigits]
  constructor
  · rw [below, workingLimit]
    exact mul_le_mul_of_nonneg_right apart unit.le
  · rw [top, workingLimit]
    exact mul_le_mul_of_nonneg_right (by linarith) unit.le

theorem lt_workingLimit_of_short {c : Nat} {e : Int} (short : digitCount c ≤ workingDigits)
    (top : leadingExponent c e = workingExponent) : magnitude c e < workingLimit := by
  have digits : c + 1 ≤ pow10 (digitCount c) := (digitCount_le_iff (digitCount_pos c)).mp le_rfl
  have below : (c : ℚ) + 1 ≤ 10 ^ (digitCount c : Int) := by
    rw [← cast_pow10]
    exact_mod_cast digits
  have place : (digitCount c : Int) + e = workingDigits + (workingExponent + 1 - workingDigits) := by
    unfold leadingExponent at top
    omega
  have coarse : (10 : ℚ) ^ (workingExponent + 1 - workingDigits) ≤ 10 ^ e :=
    zpow_le_zpow_right₀ (by norm_num) (by omega)
  have half : (0 : ℚ) < 10 ^ (workingExponent + 1 - workingDigits) := by positivity
  have carried : ((c : ℚ) + 1) * 10 ^ e ≤
      10 ^ (workingDigits : Int) * 10 ^ (workingExponent + 1 - workingDigits) := by
    rw [← zpow_add₀ (by norm_num), ← place, zpow_add₀ (by norm_num)]
    exact mul_le_mul_of_nonneg_right below (by positivity)
  rw [add_mul] at carried
  rw [magnitude, workingLimit, sub_mul]
  linarith

/-- A coefficient that fills the places to the left is carried beyond them exactly from the limit on. -/
theorem carried_iff {c : Nat} (hc : 0 < c) {e : Int} (top : leadingExponent c e = workingExponent) :
    workingExponent < leadingExponent (cut c e).1 (cut c e).2 ↔ workingLimit ≤ magnitude c e := by
  -- Only a coefficient that is cut can be carried; a power of ten is even, so the half goes up.
  by_cases long : workingDigits < digitCount c
  · let surplus := digitCount c - workingDigits
    have last : e + (surplus : Int) = workingExponent + 1 - workingDigits := by
      unfold leadingExponent at top
      omega
    have filled : 0 < (cut c e).1 := (pow10_pos _).trans_le (le_cut hc long e)
    have digits : workingExponent < leadingExponent (cut c e).1 (cut c e).2 ↔
        pow10 workingDigits ≤ (cut c e).1 := by
      rw [← lt_digitCount_iff filled]
      change _ < e + (surplus : Int) + digitCount (cut c e).1 - 1 ↔ _
      omega
    have even : pow10 workingDigits % 2 = 0 := by decide +kernel
    have unit : (0 : ℚ) < 10 ^ e := by positivity
    have scaled : workingLimit =
        ((pow10 workingDigits : Nat) - 1 / 2) * (pow10 surplus : Nat) * 10 ^ e := by
      rw [workingLimit, ← last, zpow_add₀ (by norm_num), cast_pow10, cast_pow10]
      ring
    rw [digits]
    change pow10 workingDigits ≤ divHalfEven c (pow10 surplus) ↔ _
    rw [le_divHalfEven_iff c (pow10_pos surplus) even, scaled, magnitude, mul_le_mul_iff_left₀ unit,
      ← Nat.cast_le (α := ℚ)]
    push_cast
    constructor <;> intro h <;> linarith
  · rw [cut_eq_self c e (by omega)]
    have short := lt_workingLimit_of_short (Nat.le_of_not_lt long) top
    exact iff_of_false (not_lt.mpr top.le) (not_le.mpr short)

theorem shift_eq_none_iff (c : Nat) (e p : Int) :
    shift? c e p = none ↔ workingLimit ≤ magnitude c (e + p) := by
  rcases Nat.eq_zero_or_pos c with rfl | hc
  · have positive : 0 < workingLimit := lt_of_lt_of_le (by positivity) workingLimit_bounds.1
    have zero : magnitude 0 (e + p) = 0 := by rw [magnitude, Nat.cast_zero, zero_mul]
    rw [zero]
    exact iff_of_false (by simp [shift?]) (not_le.mpr positive)
  rcases lt_trichotomy (leadingExponent c (e + p)) workingExponent with below | top | above
  · obtain ⟨r, hr⟩ := shift_isSome below
    have powers : (10 : ℚ) ^ (leadingExponent c (e + p) + 1) ≤ 10 ^ workingExponent :=
      zpow_le_zpow_right₀ (by norm_num) (by omega)
    have short := (magnitude_lt_power c (e + p)).trans_le (powers.trans workingLimit_bounds.1)
    exact iff_of_false (by simp [hr]) (not_le.mpr short)
  · have positive : 0 < workingExponent := by decide
    rw [← carried_iff hc top]
    unfold shift?
    dsimp only
    rw [if_neg hc.ne', if_neg (by omega), if_neg (by omega)]
    simp
  · have powers : (10 : ℚ) ^ (workingExponent + 1) ≤ 10 ^ leadingExponent c (e + p) :=
      zpow_le_zpow_right₀ (by norm_num) (by omega)
    have long := workingLimit_bounds.2.trans (powers.trans (power_le_magnitude hc (e + p)))
    refine iff_of_true ?_ long
    unfold shift?
    dsimp only
    rw [if_neg hc.ne', if_pos above]

end Decimal

theorem Extent.ofRat_injective {v w : ℚ} (h : ofRat v = ofRat w) : v = w :=
  le_antisymm (ofRat_le_ofRat.mp h.le) (ofRat_le_ofRat.mp h.ge)

theorem Decimal.exists_finite {x : Decimal} {v : ℚ} (h : x.extent? = some (.ofRat v)) :
    ∃ negative c e, x = .finite negative c e := by
  cases x with
  | finite negative c e => exact ⟨negative, c, e, rfl⟩
  | special value =>
    cases value with
    | infinite negative => cases negative <;> cases h
    | nan _ _ _ => cases h

namespace Degrees
open Decimal

theorem fixedOfDecimal_of_limit_le (negative : Bool) {c : Nat} {e : Int}
    (h : workingLimit ≤ magnitude c (e + places)) :
    fixedOfDecimal (.finite negative c e) = .error .overflow := by
  simp only [fixedOfDecimal, (shift_eq_none_iff c e places).mpr h]

theorem fixedOfDecimal_of_lt_limit (negative : Bool) {c : Nat} {e : Int}
    (h : magnitude c (e + places) < workingLimit) :
    ∃ f, fixedOfDecimal (.finite negative c e) = .ok f := by
  cases hr : shift? c e places with
  | none => exact absurd ((shift_eq_none_iff c e places).mp hr) (not_le.mpr h)
  | some r => exact ⟨signed negative (toWhole r.1 r.2), by simp only [fixedOfDecimal, hr]⟩

theorem magnitude_moved {negative : Bool} {c : Nat} {e : Int} {v : ℚ}
    (h : (Decimal.finite negative c e).extent? = some (.ofRat v)) :
    magnitude c (e + places) = |v| * 10 ^ 7 := by
  have size : |v| = magnitude c e := by
    rw [← Extent.ofRat_injective (Option.some.inj h)]
    cases negative
    · exact abs_of_nonneg (magnitude_nonneg c e)
    · exact (abs_neg _).trans (abs_of_nonneg (magnitude_nonneg c e))
  rw [magnitude_add, size]
  rfl

/-- A number beyond the limit when it is moved to fixed point. Whole numbers are never cut, and no
binary number is large enough. -/
def TooLarge : Degrees → Prop
  | .whole _ => False
  | .binary _ => False
  | d => ∃ v : ℚ, d.extent? = some (.ofRat v) ∧ workingLimit ≤ |v| * 10 ^ 7

theorem TooLarge.exists_extent {d : Degrees} (h : d.TooLarge) : (∀ n, d ≠ .whole n) ∧
    ∃ v : ℚ, d.extent? = some (.ofRat v) ∧ workingLimit ≤ |v| * 10 ^ 7 := by
  cases d with
  | whole _ => exact h.elim
  | binary _ => exact h.elim
  | text _ => exact ⟨fun _ same => (nomatch same), h⟩
  | decimal _ => exact ⟨fun _ same => (nomatch same), h⟩

theorem eq_whole_or (d : Degrees) : (∃ n, d = .whole n) ∨ ∀ n, d ≠ .whole n := by
  cases d with
  | whole n => exact Or.inl ⟨n, rfl⟩
  | binary _ => exact Or.inr fun _ same => by cases same
  | text _ => exact Or.inr fun _ same => by cases same
  | decimal _ => exact Or.inr fun _ same => by cases same

theorem extent_eq_bind {d : Degrees} (cuttable : ∀ n, d ≠ .whole n) :
    d.extent? = d.asDecimal.toOption.bind Decimal.extent? := by
  cases d with
  | whole n => exact absurd rfl (cuttable n)
  | binary x => exact Binary64.extent_eq x
  | text s =>
    change (Decimal.read s).toOption.bind _ = ((Decimal.read s).mapError Error.unreadable).toOption.bind _
    cases Decimal.read s <;> rfl
  | decimal x => rfl

theorem extent_of_asDecimal {d : Degrees} {x : Decimal} (cuttable : ∀ n, d ≠ .whole n)
    (hx : d.asDecimal = .ok x) : d.extent? = x.extent? := by
  rw [extent_eq_bind cuttable, hx]
  rfl

theorem exists_decimal {d : Degrees} {v : Extent} (cuttable : ∀ n, d ≠ .whole n)
    (hv : d.extent? = some v) : ∃ x, d.asDecimal = .ok x ∧ x.extent? = some v := by
  rw [extent_eq_bind cuttable] at hv
  cases hx : d.asDecimal with
  | error cause =>
    rw [hx] at hv
    cases hv
  | ok x =>
    rw [hx] at hv
    exact ⟨x, rfl, hv⟩

end Degrees

namespace Axis
open Decimal Degrees

variable (axis : Axis)

theorem cellOf_of_asDecimal {d : Degrees} {x : Decimal} (cuttable : ∀ n, d ≠ .whole n)
    (hx : d.asDecimal = .ok x) : axis.cellOf d = axis.cellOf (.decimal x) := by
  cases d with
  | whole n => exact absurd rfl (cuttable n)
  | binary y =>
    cases hx
    rfl
  | text s =>
    simp only [cellOf, hx]
    rfl
  | decimal y =>
    cases hx
    rfl

theorem cellOf_decimal_finite (negative : Bool) (c : Nat) (e : Int) :
    axis.cellOf (.decimal (.finite negative c e)) =
      (fixedOfDecimal (.finite negative c e)).map axis.cell := rfl

theorem cellOf_of_tooLarge {d : Degrees} (h : d.TooLarge) : axis.cellOf d = .error .overflow := by
  obtain ⟨cuttable, v, hv, beyond⟩ := h.exists_extent
  obtain ⟨x, hx, value⟩ := exists_decimal cuttable hv
  obtain ⟨negative, c, e, rfl⟩ := exists_finite value
  have failed := fixedOfDecimal_of_limit_le negative (beyond.trans (magnitude_moved value).ge)
  rw [cellOf_of_asDecimal axis cuttable hx, cellOf_decimal_finite, failed]
  rfl

theorem exists_cellOf_decimal {x : Decimal} {v : Extent} (hv : x.extent? = some v)
    (short : ∀ w : ℚ, v = .ofRat w → |w| * 10 ^ 7 < workingLimit) :
    ∃ c, axis.cellOf (.decimal x) = .ok c := by
  cases x with
  | finite negative c e =>
    obtain ⟨w, hw⟩ : ∃ w, (Decimal.finite negative c e).extent? = some (.ofRat w) := ⟨_, rfl⟩
    have moved := magnitude_moved hw
    have small : magnitude c (e + places) < workingLimit := by
      rw [moved]
      exact short w (Option.some.inj (hv.symm.trans hw))
    obtain ⟨f, hf⟩ := fixedOfDecimal_of_lt_limit negative small
    refine ⟨axis.cell f, ?_⟩
    rw [cellOf_decimal_finite, hf]
    rfl
  | special special =>
    cases special with
    | infinite negative => exact ⟨_, rfl⟩
    | nan _ _ _ => cases hv

theorem exists_cellOf {d : Degrees} {v : Extent} (hv : d.extent? = some v) (h : ¬d.TooLarge) :
    ∃ c, axis.cellOf d = .ok c := by
  cases d with
  | whole n => exact ⟨_, rfl⟩
  | binary x =>
    have number : x ≠ .nan := by
      rintro rfl
      rw [Binary64.extent_eq] at hv
      cases hv
    obtain ⟨c, hc, _⟩ := axis.cellOf_isOk number
    exact ⟨c, hc⟩
  | text s =>
    have cuttable : ∀ n, Degrees.text s ≠ .whole n := fun _ same => nomatch same
    obtain ⟨x, hx, value⟩ := exists_decimal cuttable hv
    rw [cellOf_of_asDecimal axis cuttable hx]
    apply exists_cellOf_decimal axis value
    intro w hw
    exact not_le.mp fun beyond => h ⟨w, hw ▸ hv, beyond⟩
  | decimal x =>
    apply exists_cellOf_decimal axis hv
    intro w hw
    exact not_le.mp fun beyond => h ⟨w, hw ▸ hv, beyond⟩

variable {axis}

theorem cell_at_edges {d : Degrees} {v : Extent} {c : Nat} (hv : d.extent? = some v)
    (hc : axis.cellOf d = .ok c) : c ≤ lastCell ∧ (v ≤ .ofRat (-axis.reach) → c = 0) ∧
      (.ofRat axis.reach ≤ v → c = lastCell) := by
  obtain ⟨w, hw, lies⟩ := liesIn_of_cellOf hc
  obtain rfl : v = w := Option.some.inj (hv.symm.trans hw)
  have most : c ≤ lastCell := by
    cases lies with
    | below _ => exact Nat.zero_le _
    | above _ => exact le_rfl
    | fixed _ _ => exact axis.cell_le _
  refine ⟨most, fun low => ?_, fun high => ?_⟩
  · have first : axis.LiesIn (.ofRat (-axis.reach)) 0 := .below le_rfl
    exact Nat.le_zero.mp (lies.mono low first)
  · have last : axis.LiesIn (.ofRat axis.reach) lastCell := .above le_rfl
    exact Nat.le_antisymm most (last.mono high lies)

theorem cellOf_nan {d : Degrees} {negative signaling : Bool} {payload : Nat}
    (h : d.asDecimal = .ok (.special (.nan negative signaling payload))) :
    axis.cellOf d = .error (.notFinite (.nan negative signaling payload)) := by
  have cuttable : ∀ n, d ≠ .whole n := by
    rintro n rfl
    cases h
  rw [cellOf_of_asDecimal axis cuttable h]
  rfl

/-- Every number short of the limit has a cell on both axes, in whatever form it comes. A number
beyond the limit is refused as too large, and a NaN of any kind as no number. -/
theorem cells_within_limit (axis : Axis) (d : Degrees) :
    (∀ v, d.extent? = some v →
      (¬d.TooLarge → ∃ c, axis.cellOf d = .ok c ∧ c ≤ lastCell ∧
        (v ≤ .ofRat (-axis.reach) → c = 0) ∧ (.ofRat axis.reach ≤ v → c = lastCell)) ∧
      (d.TooLarge → axis.cellOf d = .error .overflow)) ∧
    ∀ negative signaling payload, d.asDecimal = .ok (.special (.nan negative signaling payload)) →
      axis.cellOf d = .error (.notFinite (.nan negative signaling payload)) := by
  refine ⟨fun v hv => ⟨fun short => ?_, cellOf_of_tooLarge axis⟩, fun _ _ _ => cellOf_nan⟩
  obtain ⟨c, hc⟩ := exists_cellOf axis hv short
  exact ⟨c, hc, cell_at_edges hv hc⟩

theorem cells_beyond_limit : ∃ v : ℚ, (Degrees.text "1e999999").extent? = some (.ofRat v) ∧
    180 ≤ v ∧ ∀ axis : Axis, axis.cellOf (.text "1e999999") = .error .overflow := by
  have read : Decimal.read "1e999999" = .ok (.finite false 1 999999) := by decide +kernel
  refine ⟨magnitude 1 999999, ?_, ?_, ?_⟩
  · rw [Degrees.extent?, read]
    rfl
  · calc
      (180 : ℚ) ≤ 10 ^ (3 : Int) := by norm_num
      _ ≤ 10 ^ (999999 : Int) := zpow_le_zpow_right₀ (by norm_num) (by norm_num)
      _ = magnitude 1 999999 := by rw [magnitude, Nat.cast_one, one_mul]
  · intro axis
    cases axis <;> decide +kernel

end Axis
end MapExtract
