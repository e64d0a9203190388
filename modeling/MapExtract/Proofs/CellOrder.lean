import Mathlib.Order.WithBot
import MapExtract.Tile
import MapExtract.Proofs.NumberText

/-!
Whole numbers are exact, decimals are cut to the working precision and rounded, and infinities
belong to the edges. What the three ways have in common is that all numbers beyond an edge belong to
its last cell, and that all numbers within the world have short fixed-point forms.
-/

set_option autoImplicit false
namespace MapExtract

abbrev Extent := WithBot (WithTop ℚ)

def Extent.ofRat (v : ℚ) : Extent := ((v : WithTop ℚ) : WithBot (WithTop ℚ))

theorem Extent.ofRat_le_ofRat {v w : ℚ} : ofRat v ≤ ofRat w ↔ v ≤ w := by
  unfold ofRat
  rw [WithBot.coe_le_coe, WithTop.coe_le_coe]

namespace Decimal

def extent? : Decimal → Option Extent
  | .special (.infinite negative) => some (if negative then ⊥ else ⊤)
  | d => d.value?.map .ofRat

theorem extent_of_value {d : Decimal} {v : ℚ} (h : d.value? = some v) :
    d.extent? = some (.ofRat v) := by
  cases d with
  | finite negative c e =>
    cases h
    rfl
  | special _ => cases h

def ofUnits (k : Int) : Decimal := .finite (k < 0) k.natAbs (-Degrees.places)

theorem value_ofUnits (k : Int) : (ofUnits k).value? = some ((k : ℚ) / Degrees.scale) := by
  have tens : (10 : ℚ) ^ (-(Degrees.places : Int)) = ((Degrees.scale : Nat) : ℚ)⁻¹ := by
    rw [zpow_neg, ← cast_pow10]
    rfl
  have size : (k.natAbs : ℚ) = |(k : ℚ)| := by
    rw [Nat.cast_natAbs, Int.cast_abs]
  have unsigned : magnitude k.natAbs (-Degrees.places) = |(k : ℚ)| / Degrees.scale := by
    rw [magnitude, tens, size, div_eq_mul_inv]
  simp only [ofUnits, value?, unsigned, decide_eq_true_eq, Option.some.injEq]
  split
  · rename_i negative
    have : (k : ℚ) < 0 := by exact_mod_cast negative
    rw [abs_of_neg this]
    ring
  · rename_i positive
    have : (0 : ℚ) ≤ k := by exact_mod_cast (not_lt.mp positive)
    rw [abs_of_nonneg this]

theorem shift_eq_self {c : Nat} {e p : Int} (hc : 0 < c) (short : digitCount c ≤ workingDigits)
    (low : -workingExponent ≤ leadingExponent c (e + p))
    (high : leadingExponent c (e + p) ≤ workingExponent) : shift? c e p = some (c, e + p) := by
  unfold shift?
  dsimp only
  rw [cut_eq_self c (e + p) short, if_neg (by omega), if_neg (not_lt.mpr high),
    if_neg (not_lt.mpr low)]
  exact if_neg (not_lt.mpr high)

end Decimal

namespace Degrees
open Decimal

theorem fixedOfDecimal_ofUnits {k : Int} (short : digitCount k.natAbs ≤ workingDigits) :
    fixedOfDecimal (ofUnits k) = .ok k := by
  by_cases zero : k = 0
  · subst zero
    rfl
  · have leading : leadingExponent k.natAbs (-(places : Int) + places) = digitCount k.natAbs - 1 := by
      unfold leadingExponent
      omega
    have pos := digitCount_pos k.natAbs
    have room : (workingDigits : Int) ≤ workingExponent := by decide
    have shifted : shift? k.natAbs (-places) places = some (k.natAbs, 0) := by
      rw [shift_eq_self (by omega) short (by omega) (by omega)]
      rfl
    have whole : toWhole k.natAbs 0 = k.natAbs := by
      unfold toWhole
      rw [if_pos (le_refl 0)]
      exact Nat.mul_one _
    simp only [fixedOfDecimal, ofUnits, shifted, whole, signed_natAbs]

/-- The exact number of degrees in any form; a NaN and a text that is no number have none. -/
def extent? : Degrees → Option Extent
  | .whole n => some (.ofRat n)
  | .binary x => (Decimal.read x.text).toOption.bind Decimal.extent?
  | .text s => (Decimal.read s).toOption.bind Decimal.extent?
  | .decimal d => d.extent?

end Degrees

def Degrees.Le (d e : Degrees) : Prop :=
  ∃ v w, d.extent? = some v ∧ e.extent? = some w ∧ v ≤ w

namespace Binary64

/-- The text of a binary number stands for the same number as its shortest decimal. -/
theorem extent_eq (x : Binary64) : (Degrees.binary x).extent? = x.toDecimal.extent? := by
  change (Decimal.read x.text).toOption.bind Decimal.extent? = _
  cases x with
  | nan =>
    have read : Decimal.read nan.text = .ok (.special (.nan false false 0)) := by decide +kernel
    rw [read]
    rfl
  | infinite negative =>
    have read : Decimal.read (infinite negative).text = .ok (.special (.infinite negative)) := by
      cases negative <;> decide +kernel
    rw [read]
    rfl
  | finite negative r =>
    obtain ⟨c, e, read, value⟩ := read_text negative r
    have same : (Decimal.finite negative c e).value? =
        some (if negative then -rankValue r else rankValue r) := by rw [Decimal.value?, value]
    rw [read, Decimal.extent_of_value (value_toDecimal_finite negative r)]
    exact Decimal.extent_of_value same

theorem extent_finite (negative : Bool) (r : Fin magnitudes) :
    (Degrees.binary (.finite negative r)).extent? =
      some (.ofRat (if negative then -rankValue r else rankValue r)) := by
  rw [extent_eq, Decimal.extent_of_value (value_toDecimal_finite negative r)]

theorem extent_infinite (negative : Bool) :
    (Degrees.binary (.infinite negative)).extent? = some (if negative then ⊥ else ⊤) := by
  rw [extent_eq]
  rfl

theorem exists_extent {x : Binary64} (hx : x ≠ .nan) : ∃ v, (Degrees.binary x).extent? = some v := by
  cases x with
  | nan => exact absurd rfl hx
  | infinite negative => exact ⟨_, extent_infinite negative⟩
  | finite negative r => exact ⟨_, extent_finite negative r⟩

theorem position_finite_bounds (negative : Bool) (r : Fin magnitudes) :
    -(magnitudes : Int) < signed negative r ∧ signed negative r < magnitudes := by
  have := r.isLt
  cases negative <;> simp only [signed, if_true, if_false, Bool.false_eq_true] <;> omega

theorem extent_mono {x y : Binary64} {v w : Extent} (h : x.le y = true)
    (hv : (Degrees.binary x).extent? = some v) (hw : (Degrees.binary y).extent? = some w) :
    v ≤ w := by
  obtain ⟨a, b, ha, hb, hab⟩ := le_iff.mp h
  cases x with
  | nan => cases ha
  | infinite negative =>
    cases ha
    cases Option.some.inj ((extent_infinite negative).symm.trans hv)
    cases negative with
    | true => exact bot_le
    | false =>
      cases y with
      | nan => cases hb
      | infinite negative' =>
        cases hb
        cases Option.some.inj ((extent_infinite negative').symm.trans hw)
        cases negative' with
        | true => exact absurd hab (by decide)
        | false => exact le_rfl
      | finite negative' r =>
        cases hb
        exact absurd hab (not_le.mpr (position_finite_bounds negative' r).2)
  | finite negative r =>
    cases ha
    cases Option.some.inj ((extent_finite negative r).symm.trans hv)
    cases y with
    | nan => cases hb
    | infinite negative' =>
      cases hb
      cases Option.some.inj ((extent_infinite negative').symm.trans hw)
      cases negative' with
      | true => exact absurd hab (not_le.mpr (position_finite_bounds negative r).1)
      | false => exact le_top
    | finite negative' t =>
      cases Option.some.inj ((extent_finite negative' t).symm.trans hw)
      exact Extent.ofRat_le_ofRat.mpr (value_toDecimal_mono h (value_toDecimal_finite negative r)
        (value_toDecimal_finite negative' t))

theorem ne_nan_of_le {x y : Binary64} (h : x.le y = true) : x ≠ .nan ∧ y ≠ .nan := by
  constructor
  · rintro rfl
    rw [nan_le] at h
    cases h
  · rintro rfl
    rw [le_nan] at h
    cases h

theorem degrees_le {x y : Binary64} (h : x.le y = true) :
    (Degrees.binary x).Le (.binary y) := by
  obtain ⟨v, hv⟩ := exists_extent (ne_nan_of_le h).1
  obtain ⟨w, hw⟩ := exists_extent (ne_nan_of_le h).2
  exact ⟨v, w, hv, hw, extent_mono h hv hw⟩

end Binary64

namespace Axis
open Degrees (fixedOfDecimal scale)
open Decimal (ofUnits)

def edge (axis : Axis) : Int := axis.reach * scale

theorem cell_of_le (axis : Axis) {f : Int} (h : f ≤ -axis.edge) : axis.cell f = 0 := by
  have first : axis.cell (-axis.edge) = 0 := by cases axis <;> decide +kernel
  have := axis.cell_mono h
  omega

theorem cell_of_ge (axis : Axis) {f : Int} (h : axis.edge ≤ f) : axis.cell f = lastCell := by
  have last : axis.cell axis.edge = lastCell := by cases axis <;> decide +kernel
  have := axis.cell_mono h
  exact Nat.le_antisymm (axis.cell_le f) (by omega)

theorem short_of_natAbs_le (axis : Axis) {k : Int} (h : k.natAbs ≤ axis.edge.natAbs) :
    Decimal.digitCount k.natAbs ≤ Decimal.workingDigits := by
  have edge : Decimal.digitCount axis.edge.natAbs ≤ Decimal.workingDigits := by
    cases axis <;> decide +kernel
  exact (Decimal.digitCount_mono h).trans edge

/-- Where a number lies on an axis: in the first cell if it is not above the lower edge of the
world, in the last cell if it is not below the upper edge, and in any case where its fixed-point
form lies. -/
inductive LiesIn (axis : Axis) : Extent → Nat → Prop
  | below {v : Extent} (h : v ≤ .ofRat (-axis.reach)) : LiesIn axis v 0
  | above {v : Extent} (h : .ofRat axis.reach ≤ v) : LiesIn axis v lastCell
  | fixed {d : Decimal} {v : ℚ} {f : Int} (hv : d.value? = some v) (hf : fixedOfDecimal d = .ok f) :
      LiesIn axis (.ofRat v) (axis.cell f)

variable {axis : Axis}

theorem value_edge (axis : Axis) : (ofUnits axis.edge).value? = some (axis.reach : ℚ) := by
  rw [Decimal.value_ofUnits]
  cases axis <;> norm_num [edge, reach, scale, Degrees.places, pow10]

theorem value_neg_edge (axis : Axis) : (ofUnits (-axis.edge)).value? = some (-axis.reach : ℚ) := by
  rw [Decimal.value_ofUnits]
  cases axis <;> norm_num [edge, reach, scale, Degrees.places, pow10]

theorem LiesIn.mono {v w : Extent} {a b : Nat} (h : v ≤ w) (ha : axis.LiesIn v a)
    (hb : axis.LiesIn w b) : a ≤ b := by
  have edge := Degrees.fixedOfDecimal_ofUnits (axis.short_of_natAbs_le (k := axis.edge) le_rfl)
  have negEdge : fixedOfDecimal (ofUnits (-axis.edge)) = .ok (-axis.edge) :=
    Degrees.fixedOfDecimal_ofUnits (axis.short_of_natAbs_le (by rw [Int.natAbs_neg]))
  cases ha with
  | below _ => exact Nat.zero_le b
  | above high =>
    cases hb with
    | below low =>
      have crossed := Extent.ofRat_le_ofRat.mp ((high.trans h).trans low)
      have positive : (0 : ℚ) < axis.reach := by cases axis <;> norm_num [reach]
      linarith
    | above _ => exact le_rfl
    | fixed hw hg =>
      have beyond := Extent.ofRat_le_ofRat.mp (high.trans h)
      have := Degrees.fixedOfDecimal_mono axis.value_edge hw beyond edge hg
      exact (axis.cell_of_ge this).ge
  | fixed hv hf =>
    cases hb with
    | below low =>
      have beyond := Extent.ofRat_le_ofRat.mp (h.trans low)
      have := Degrees.fixedOfDecimal_mono hv axis.value_neg_edge beyond hf negEdge
      exact (axis.cell_of_le this).le
    | above _ => exact axis.cell_le _
    | fixed hw hg =>
      have ordered := Extent.ofRat_le_ofRat.mp h
      exact axis.cell_mono (Degrees.fixedOfDecimal_mono hv hw ordered hf hg)

theorem liesIn_whole (axis : Axis) (n : Int) : axis.LiesIn (.ofRat n) (axis.cell (n * scale)) := by
  have positive : (0 : Int) < scale := by decide
  by_cases low : n ≤ -axis.reach
  · have beyond : n * scale ≤ -axis.edge := by
      have := Int.mul_le_mul_of_nonneg_right low positive.le
      rwa [Int.neg_mul] at this
    rw [axis.cell_of_le beyond]
    refine .below (Extent.ofRat_le_ofRat.mpr ?_)
    exact_mod_cast low
  by_cases high : axis.reach ≤ n
  · have beyond : axis.edge ≤ n * scale := Int.mul_le_mul_of_nonneg_right high positive.le
    rw [axis.cell_of_ge beyond]
    refine .above (Extent.ofRat_le_ofRat.mpr ?_)
    exact_mod_cast high
  · have inside : (n * scale).natAbs ≤ axis.edge.natAbs := by
      rw [edge, Int.natAbs_mul, Int.natAbs_mul]
      exact Nat.mul_le_mul_right _ (by omega)
    have exact : (ofUnits (n * scale)).value? = some (n : ℚ) := by
      rw [Decimal.value_ofUnits]
      have : (scale : ℚ) ≠ 0 := by norm_num [scale, Degrees.places, pow10]
      push_cast
      field_simp
    exact .fixed exact (Degrees.fixedOfDecimal_ofUnits (axis.short_of_natAbs_le inside))

theorem liesIn_of_cellOf_decimal {d : Decimal} {c : Nat} (h : axis.cellOf (.decimal d) = .ok c) :
    ∃ v, d.extent? = some v ∧ axis.LiesIn v c := by
  cases d with
  | finite negative coefficient exponent =>
    have fixed : (fixedOfDecimal (.finite negative coefficient exponent)).map axis.cell = .ok c := h
    cases hf : fixedOfDecimal (.finite negative coefficient exponent) with
    | error cause =>
      rw [hf] at fixed
      cases fixed
    | ok f =>
      rw [hf] at fixed
      cases fixed
      exact ⟨_, rfl, .fixed rfl hf⟩
  | special value =>
    cases value with
    | infinite negative =>
      cases h
      cases negative with
      | true => exact ⟨⊥, rfl, .below bot_le⟩
      | false => exact ⟨⊤, rfl, .above le_top⟩
    | nan _ _ _ => cases h

theorem liesIn_of_cellOf {d : Degrees} {c : Nat} (h : axis.cellOf d = .ok c) :
    ∃ v, d.extent? = some v ∧ axis.LiesIn v c := by
  cases d with
  | whole n =>
    cases h
    exact ⟨_, rfl, axis.liesIn_whole n⟩
  | binary x =>
    obtain ⟨v, hv, lies⟩ := liesIn_of_cellOf_decimal (d := x.toDecimal) h
    exact ⟨v, (Binary64.extent_eq x).trans hv, lies⟩
  | text s =>
    cases hs : Decimal.read s with
    | error cause =>
      simp only [cellOf, Degrees.asDecimal, hs] at h
      cases h
    | ok d =>
      have read : axis.cellOf (.decimal d) = .ok c := by
        rw [← h]
        simp only [cellOf, Degrees.asDecimal, hs]
        rfl
      obtain ⟨v, hv, lies⟩ := liesIn_of_cellOf_decimal read
      refine ⟨v, ?_, lies⟩
      rw [Degrees.extent?, hs]
      exact hv
  | decimal d => exact liesIn_of_cellOf_decimal h

theorem cell_le_of_le {d e : Degrees} {a b : Nat} (h : d.Le e) (ha : axis.cellOf d = .ok a)
    (hb : axis.cellOf e = .ok b) : a ≤ b := by
  obtain ⟨v, w, hv, hw, le⟩ := h
  obtain ⟨v', hv', first⟩ := liesIn_of_cellOf ha
  obtain ⟨w', hw', second⟩ := liesIn_of_cellOf hb
  rw [hv] at hv'
  rw [hw] at hw'
  cases hv'
  cases hw'
  exact first.mono le second

/-- On both axes, degrees in any two forms that have a cell have an exact number each; the greater
has no lesser cell, and equal numbers have the same cell. -/
theorem cells_ordered (axis : Axis) {d e : Degrees} {a b : Nat} (ha : axis.cellOf d = .ok a)
    (hb : axis.cellOf e = .ok b) :
    ∃ v w, d.extent? = some v ∧ e.extent? = some w ∧ (v ≤ w → a ≤ b) ∧ (v = w → a = b) := by
  obtain ⟨v, hv, first⟩ := liesIn_of_cellOf ha
  obtain ⟨w, hw, second⟩ := liesIn_of_cellOf hb
  refine ⟨v, w, hv, hw, fun le => first.mono le second, fun same => ?_⟩
  exact Nat.le_antisymm (first.mono same.le second) (second.mono same.ge first)

theorem cells_ordered_rounded :
    Axis.latitude.cellOf (.text "89.99862664999999999999999999999999") = .ok 65535 ∧
      Axis.latitude.cellOf (.binary (.ofDecimal false 899986266 (-7))) = .ok 65534 ∧
      ∃ v w, (Degrees.text "89.99862664999999999999999999999999").extent? = some v ∧
        (Degrees.binary (.ofDecimal false 899986266 (-7))).extent? = some w ∧ w < v := by
  have first : Axis.latitude.cellOf (.text "89.99862664999999999999999999999999") = .ok 65535 := by
    decide +kernel
  have second : Axis.latitude.cellOf (.binary (.ofDecimal false 899986266 (-7))) = .ok 65534 := by
    decide +kernel
  obtain ⟨v, w, hv, hw, order, _⟩ := cells_ordered .latitude first second
  exact ⟨first, second, v, w, hv, hw, lt_of_not_ge fun le => absurd (order le) (by decide)⟩

end Axis
end MapExtract
