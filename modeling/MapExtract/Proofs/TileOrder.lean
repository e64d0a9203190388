import MapExtract.BoundingBox.Validation
import MapExtract.Proofs.CellOrder

set_option autoImplicit false
namespace MapExtract

namespace Tile

theorem interleave_injective (n : Nat) {x y x' y' : Nat} (hx : x < pow2 n) (hy : y < pow2 n)
    (hx' : x' < pow2 n) (hy' : y' < pow2 n) (h : interleave n x y = interleave n x' y') :
    x = x' ∧ y = y' := by
  -- The last bits of a code are those of the two numbers, and the bits before them a shorter code.
  induction n generalizing x y x' y' with
  | zero =>
    rw [pow2_zero] at hx hy hx' hy'
    omega
  | succ n ih =>
    rw [pow2_succ] at hx hy hx' hy'
    simp only [interleave] at h
    have front : interleave n (x / 2) (y / 2) = interleave n (x' / 2) (y' / 2) := by omega
    obtain ⟨ex, ey⟩ := ih (by omega) (by omega) (by omega) (by omega) front
    omega

theorem interleave_mono (n : Nat) {x y x' y' : Nat} (hx : x ≤ x') (hy : y ≤ y')
    (hx' : x' < pow2 n) (hy' : y' < pow2 n) : interleave n x y ≤ interleave n x' y' := by
  induction n generalizing x y x' y' with
  | zero => exact le_rfl
  | succ n ih =>
    rw [pow2_succ] at hx' hy'
    have front : interleave n (x / 2) (y / 2) ≤ interleave n (x' / 2) (y' / 2) :=
      ih (by omega) (by omega) (by omega) (by omega)
    simp only [interleave]
    -- The last bits count only if the bits before them agree.
    by_cases same : interleave n (x / 2) (y / 2) = interleave n (x' / 2) (y' / 2)
    · obtain ⟨ex, ey⟩ := interleave_injective n (by omega) (by omega) (by omega) (by omega) same
      omega
    · omega

theorem lowBits_natCast {n : Nat} (h : n ≤ Axis.lastCell) : lowBits n = n := by
  have fits : (n : Int) < pow2 bits := Int.ofNat_lt.mpr (Nat.lt_succ_of_le h)
  unfold lowBits
  rw [Int.emod_eq_of_lt (Int.natCast_nonneg n) fits, Int.toNat_natCast]

theorem ofCells_mono {x y x' y' : Nat} (hx : x ≤ x') (hy : y ≤ y') (hx' : x' ≤ Axis.lastCell)
    (hy' : y' ≤ Axis.lastCell) : ofCells x y ≤ ofCells x' y' := by
  unfold ofCells
  rw [lowBits_natCast (hx.trans hx'), lowBits_natCast (hy.trans hy'), lowBits_natCast hx',
    lowBits_natCast hy']
  exact interleave_mono bits hx hy (Nat.lt_succ_of_le hx') (Nat.lt_succ_of_le hy')

end Tile

namespace Degrees
open Decimal

theorem fixedOfDecimal_isOk {c : Nat} {e : Int} (negative : Bool)
    (h : magnitude c e < magnitude 1 309) :
    ∃ f, fixedOfDecimal (.finite negative c e) = .ok f := by
  have shifted : ∃ r, shift? c e places = some r := by
    by_cases hc : c = 0
    · exact ⟨(0, 0), by rw [shift?, if_pos hc]⟩
    · apply shift_isSome
      have le := leadingExponent_le_of_magnitude (Nat.pos_of_ne_zero hc) Nat.one_pos h.le
      have most : leadingExponent 1 309 = 309 := by decide +kernel
      have limit : (309 : Int) + places < workingExponent := by decide
      have moved : leadingExponent c (e + places) = leadingExponent c e + places := by
        unfold leadingExponent
        omega
      omega
  obtain ⟨r, hr⟩ := shifted
  exact ⟨signed negative (toWhole r.1 r.2), by simp only [fixedOfDecimal, hr]⟩

end Degrees

namespace Binary64
open Decimal (magnitude)

theorem toDecimal_finite (negative : Bool) (r : Fin magnitudes) :
    ∃ c e, (Binary64.finite negative r).toDecimal = .finite negative c e ∧
      magnitude c e < magnitude 1 309 := by
  have small := rankValue_lt r
  unfold rankValue at small
  by_cases hr : r.val = 0
  · refine ⟨0, 0, by simp only [toDecimal, if_pos hr], ?_⟩
    simp [magnitude]
  · rw [if_neg hr] at small
    exact ⟨_, _, by simp only [toDecimal, if_neg hr], small⟩

end Binary64

namespace Axis
open Degrees (fixedOfDecimal)

theorem cellOf_infinite (axis : Axis) (negative : Bool) :
    axis.cellOf (.binary (.infinite negative)) = .ok (if negative then 0 else lastCell) := rfl

theorem cellOf_finite (axis : Axis) (negative : Bool) (r : Fin Binary64.magnitudes) :
    ∃ f, fixedOfDecimal (Binary64.finite negative r).toDecimal = .ok f ∧
      axis.cellOf (.binary (.finite negative r)) = .ok (axis.cell f) := by
  obtain ⟨c, e, decimal, small⟩ := Binary64.toDecimal_finite negative r
  obtain ⟨f, hf⟩ := Degrees.fixedOfDecimal_isOk negative small
  rw [← decimal] at hf
  refine ⟨f, hf, ?_⟩
  simp only [cellOf, Degrees.asDecimal]
  rw [decimal] at hf ⊢
  simp only [Except.bind, hf, Except.map]

theorem cellOf_isOk (axis : Axis) {x : Binary64} (hx : x ≠ .nan) :
    ∃ c, axis.cellOf (.binary x) = .ok c ∧ c ≤ lastCell := by
  cases x with
  | nan => exact absurd rfl hx
  | infinite negative =>
    refine ⟨_, cellOf_infinite axis negative, ?_⟩
    cases negative
    · exact le_rfl
    · exact Nat.zero_le _
  | finite negative r =>
    obtain ⟨f, _, hc⟩ := cellOf_finite axis negative r
    exact ⟨_, hc, axis.cell_le f⟩

theorem cellOf_mono (axis : Axis) {x y : Binary64} {a b : Nat} (h : x.le y = true)
    (ha : axis.cellOf (.binary x) = .ok a) (hb : axis.cellOf (.binary y) = .ok b) : a ≤ b :=
  cell_le_of_le (Binary64.degrees_le h) ha hb

end Axis

namespace Binary64

theorem le_of_lt {x y : Binary64} (h : x.lt y = true) : x.le y = true := by
  obtain ⟨a, b, ha, hb, hab⟩ := lt_iff.mp h
  exact le_iff.mpr ⟨a, b, ha, hb, hab.le⟩

end Binary64

namespace Tile

theorem ofPoint_eq_ok_iff {lat lon : Degrees} {t : Nat} :
    ofPoint lat lon = .ok t ↔ ∃ x y : Nat, Axis.longitude.cellOf lon = .ok x ∧
      Axis.latitude.cellOf lat = .ok y ∧ ofCells x y = t := by
  unfold ofPoint
  cases Axis.longitude.cellOf lon with
  | error _ => simp [bind, Except.bind]
  | ok x =>
    cases Axis.latitude.cellOf lat with
    | error _ => simp [bind, Except.bind]
    | ok y => simp [bind, Except.bind, pure, Except.pure]

theorem ofPoint_eq_ok {lat lon : Degrees} {x y : Nat} (hx : Axis.longitude.cellOf lon = .ok x)
    (hy : Axis.latitude.cellOf lat = .ok y) : ofPoint lat lon = .ok (ofCells x y) :=
  ofPoint_eq_ok_iff.mpr ⟨x, y, hx, hy, rfl⟩

theorem ofPoint_isOk {lat lon : Binary64} (hlat : lat ≠ .nan) (hlon : lon ≠ .nan) :
    ∃ t, ofPoint (.binary lat) (.binary lon) = .ok t := by
  obtain ⟨x, hx, _⟩ := Axis.longitude.cellOf_isOk hlon
  obtain ⟨y, hy, _⟩ := Axis.latitude.cellOf_isOk hlat
  exact ⟨_, ofPoint_eq_ok hx hy⟩

theorem ofPoint_eq_error {lat lon : Binary64} {cause : Error}
    (h : ofPoint (.binary lat) (.binary lon) = .error cause) :
    cause = .notFinite (.nan false false 0) := by
  by_cases hlon : lon = .nan
  · subst hlon
    cases h
    rfl
  · obtain ⟨x, hx, _⟩ := Axis.longitude.cellOf_isOk hlon
    by_cases hlat : lat = .nan
    · subst hlat
      unfold ofPoint at h
      rw [hx] at h
      cases h
      rfl
    · obtain ⟨t, ht⟩ := ofPoint_isOk hlat hlon
      rw [ht] at h
      cases h

theorem ofPoint_mono {lat lon lat' lon' : Binary64} {t t' : Nat} (hlat : lat.le lat' = true)
    (hlon : lon.le lon' = true) (ht : ofPoint (.binary lat) (.binary lon) = .ok t)
    (ht' : ofPoint (.binary lat') (.binary lon') = .ok t') : t ≤ t' := by
  obtain ⟨x, hx, _⟩ := Axis.longitude.cellOf_isOk (Binary64.ne_nan_of_le hlon).1
  obtain ⟨y, hy, _⟩ := Axis.latitude.cellOf_isOk (Binary64.ne_nan_of_le hlat).1
  obtain ⟨x', hx', lx⟩ := Axis.longitude.cellOf_isOk (Binary64.ne_nan_of_le hlon).2
  obtain ⟨y', hy', ly⟩ := Axis.latitude.cellOf_isOk (Binary64.ne_nan_of_le hlat).2
  rw [ofPoint_eq_ok hx hy] at ht
  rw [ofPoint_eq_ok hx' hy'] at ht'
  cases ht
  cases ht'
  exact ofCells_mono (Axis.longitude.cellOf_mono hlon hx hx') (Axis.latitude.cellOf_mono hlat hy hy')
    lx ly

theorem range_eq_ok {box : BoundingBox} {low high : Nat}
    (hl : ofPoint (.binary box.minLat) (.binary box.minLon) = .ok low)
    (hh : ofPoint (.binary box.maxLat) (.binary box.maxLon) = .ok high) :
    range box = .ok (low, high) := by
  unfold range
  rw [hl, hh]
  rfl

end Tile

theorem Element.located_eq_error {e : Element} {cause : Error} (h : e.located = .error cause) :
    cause = .notFinite (.nan false false 0) := by
  cases e with
  | node n =>
    simp only [located, Node.located] at h
    cases hp : n.place with
    | error own =>
      rw [hp] at h
      cases h
      exact Tile.ofPoint_eq_error hp
    | ok t =>
      rw [hp] at h
      cases h
  | way w => cases h
  | relation r => cases h

namespace BoundingBox

theorem contains_iff {box : BoundingBox} {lat lon : Binary64} :
    box.contains lat lon = true ↔ box.minLat.le lat = true ∧ lat.le box.maxLat = true ∧
      box.minLon.le lon = true ∧ lon.le box.maxLon = true := by
  simp only [contains, Bool.and_eq_true, and_assoc]

theorem sides_lt_of_flaw_eq_none {box : BoundingBox} (h : box.flaw? = none) :
    box.minLon.lt box.maxLon = true ∧ box.minLat.lt box.maxLat = true := by
  unfold flaw? at h
  split at h
  · cases h
  split at h
  · cases h
  split at h
  · cases h
  · simp_all

theorem exists_range {box : BoundingBox} (h : box.flaw? = none) :
    ∃ low high : Nat, Tile.range box = .ok (low, high) ∧
      ∀ lat lon, box.contains lat lon = true →
        ∃ t : Nat, Tile.ofPoint (.binary lat) (.binary lon) = .ok t ∧ low ≤ t ∧ t ≤ high := by
  obtain ⟨hlon, hlat⟩ := sides_lt_of_flaw_eq_none h
  have lon := Binary64.ne_nan_of_le (Binary64.le_of_lt hlon)
  have lat := Binary64.ne_nan_of_le (Binary64.le_of_lt hlat)
  obtain ⟨low, hl⟩ := Tile.ofPoint_isOk lat.1 lon.1
  obtain ⟨high, hh⟩ := Tile.ofPoint_isOk lat.2 lon.2
  refine ⟨low, high, Tile.range_eq_ok hl hh, ?_⟩
  intro a o inside
  obtain ⟨south, north, west, east⟩ := contains_iff.mp inside
  obtain ⟨t, ht⟩ := Tile.ofPoint_isOk (Binary64.ne_nan_of_le south).2 (Binary64.ne_nan_of_le west).2
  exact ⟨t, ht, Tile.ofPoint_mono south west hl ht, Tile.ofPoint_mono north east ht hh⟩

end BoundingBox
end MapExtract
