import Mathlib.Data.List.ProdSigma
import MapExtract.Proofs.TileOrder

set_option autoImplicit false
namespace MapExtract

/-- An infinity, or a decimal that fits the working precision. -/
def Decimal.Short : Decimal → Prop
  | .finite _ c _ => digitCount c ≤ workingDigits
  | .special (.infinite _) => True
  | .special (.nan _ _ _) => False

/-- A point of the closed box, its coordinates in any form. -/
structure BoundingBox.Encloses (box : BoundingBox) (lat lon : Degrees) : Prop where
  south : (Degrees.binary box.minLat).Le lat
  north : lat.Le (.binary box.maxLat)
  west : (Degrees.binary box.minLon).Le lon
  east : lon.Le (.binary box.maxLon)

namespace Binary64

theorem toDecimal_short {x : Binary64} (hx : x ≠ .nan) : x.toDecimal.Short := by
  cases x with
  | nan => exact absurd rfl hx
  | infinite _ => exact trivial
  | finite negative r =>
    have room : mostDigits + 1 ≤ Decimal.workingDigits := by decide
    simp only [toDecimal]
    split
    · exact show Decimal.digitCount 0 ≤ Decimal.workingDigits by decide
    · rename_i above
      exact (shortest_digits (Nat.pos_of_ne_zero above)).trans room

end Binary64

namespace Axis
open Decimal (ofUnits)
open Degrees (scale)

theorem exists_fixed (axis : Axis) {c : Nat} (h : c ≤ lastCell) :
    ∃ k : Int, k.natAbs ≤ axis.edge.natAbs ∧ axis.cell k = c := by
  have last : lastCell = 65535 := rfl
  obtain ⟨half, hhalf, wide⟩ : ∃ half : Nat, axis.edge = half ∧ lastCell ≤ half :=
    ⟨axis.reach * scale, rfl, by cases axis <;> decide⟩
  -- The last unit that is not beyond the place of the cell; units are finer, so it rounds back.
  obtain ⟨fromEdge, hf⟩ : ∃ f : Nat, f = 2 * half * c / lastCell := ⟨_, rfl⟩
  have floor : fromEdge * lastCell ≤ 2 * half * c := by
    rw [hf]
    exact Nat.div_mul_le_self _ _
  have ceiling : 2 * half * c < fromEdge * lastCell + lastCell := by
    rw [hf, ← Nat.succ_mul]
    exact Nat.lt_mul_of_div_lt (Nat.lt_succ_self _) (by decide)
  have inside : fromEdge ≤ 2 * half := by
    rw [hf]
    exact Nat.div_le_of_le_mul ((Nat.mul_le_mul_left _ h).trans (Nat.mul_comm _ _).le)
  refine ⟨fromEdge - half, ?_, ?_⟩
  · rw [hhalf, Int.natAbs_natCast]
    omega
  have place : ((fromEdge - half : Int) + axis.reach * scale) * lastCell =
      (fromEdge * lastCell : Nat) := by
    change ((fromEdge - half : Int) + axis.edge) * lastCell = _
    rw [hhalf]
    push_cast
    ring
  have span : 2 * axis.reach * scale = 2 * half := by
    have : ((axis.reach * scale : Nat) : Int) = half := hhalf
    rw [Nat.mul_assoc]
    omega
  have found : divHalfUp (fromEdge * lastCell) (2 * half) = c := by
    unfold divHalfUp
    apply Nat.div_eq_of_lt_le
    · have : c * (2 * (2 * half)) = 2 * (2 * half * c) := by ring
      omega
    · have : (c + 1) * (2 * (2 * half)) = 2 * (2 * half * c) + 4 * half := by ring
      omega
  simp only [cell, place, span, Int.toNat_natCast, found]
  exact Nat.min_eq_left h

theorem cellOf_ofUnits (axis : Axis) {k : Int} (h : k.natAbs ≤ axis.edge.natAbs) :
    axis.cellOf (.decimal (ofUnits k)) = .ok (axis.cell k) := by
  have fixed := Degrees.fixedOfDecimal_ofUnits (axis.short_of_natAbs_le h)
  change (Degrees.fixedOfDecimal (ofUnits k)).map axis.cell = _
  rw [fixed]
  rfl

/-- Every cell between those of two numbers is the cell of a short decimal between the numbers. -/
theorem exists_between (axis : Axis) {x y : Binary64} {a b c : Nat} (h : x.le y = true)
    (ha : axis.cellOf (.binary x) = .ok a) (hb : axis.cellOf (.binary y) = .ok b) (hac : a ≤ c)
    (hcb : c ≤ b) :
    ∃ d : Decimal, d.Short ∧ (Degrees.binary x).Le (.decimal d) ∧
      (Degrees.decimal d).Le (.binary y) ∧ axis.cellOf (.decimal d) = .ok c := by
  obtain ⟨hx, hy⟩ := Binary64.ne_nan_of_le h
  obtain ⟨v, w, hv, hw, le⟩ := Binary64.degrees_le h
  have atSide {z : Binary64} {u : Extent} (hu : (Degrees.binary z).extent? = some u) :
      (Degrees.decimal z.toDecimal).extent? = some u := (Binary64.extent_eq z).symm.trans hu
  rcases Nat.eq_or_lt_of_le hac with rfl | above
  · exact ⟨x.toDecimal, Binary64.toDecimal_short hx, ⟨v, v, hv, atSide hv, le_rfl⟩,
      ⟨v, w, atSide hv, hw, le⟩, ha⟩
  rcases Nat.eq_or_lt_of_le hcb with rfl | below
  · exact ⟨y.toDecimal, Binary64.toDecimal_short hy, ⟨v, w, hv, atSide hw, le⟩,
      ⟨w, w, atSide hw, hw, le_rfl⟩, hb⟩
  · have inWorld : b ≤ lastCell := by
      obtain ⟨b', hb', small⟩ := axis.cellOf_isOk hy
      cases hb.symm.trans hb'
      exact small
    obtain ⟨k, hk, rfl⟩ := axis.exists_fixed (below.le.trans inWorld)
    have cell := axis.cellOf_ofUnits hk
    have exact : (Degrees.decimal (ofUnits k)).extent? = some _ :=
      Decimal.extent_of_value (Decimal.value_ofUnits k)
    -- A number on the wrong side of a side would have no cell on the right side.
    refine ⟨ofUnits k, axis.short_of_natAbs_le hk, ⟨v, _, hv, exact, ?_⟩,
      ⟨_, w, exact, hw, ?_⟩, cell⟩
    · by_contra crossed
      have := cell_le_of_le ⟨_, v, exact, hv, (not_le.mp crossed).le⟩ cell ha
      omega
    · by_contra crossed
      have := cell_le_of_le ⟨w, _, hw, exact, (not_le.mp crossed).le⟩ hb cell
      omega

end Axis

namespace Tile

theorem ofCells_injective {x y x' y' : Nat} (hx : x ≤ Axis.lastCell) (hy : y ≤ Axis.lastCell)
    (hx' : x' ≤ Axis.lastCell) (hy' : y' ≤ Axis.lastCell) (h : ofCells x y = ofCells x' y') :
    x = x' ∧ y = y' := by
  unfold ofCells at h
  rw [lowBits_natCast hx, lowBits_natCast hy, lowBits_natCast hx', lowBits_natCast hy'] at h
  exact interleave_injective bits (Nat.lt_succ_of_le hx) (Nat.lt_succ_of_le hy)
    (Nat.lt_succ_of_le hx') (Nat.lt_succ_of_le hy') h

theorem nodup_between (a b : Nat) : (between a b).Nodup :=
  List.nodup_range.map fun _ _ h => Nat.add_left_cancel h

theorem length_between (a b : Nat) : (between a b).length = b + 1 - a := by
  rw [between, List.length_map, List.length_range]

def grid (x x' y y' : Nat) : List Nat :=
  (((between x x').product (between y y')).map fun p => ofCells p.1 p.2).mergeSort

theorem mem_grid {x x' y y' t : Nat} :
    t ∈ grid x x' y y' ↔ ∃ a b : Nat, x ≤ a ∧ a ≤ x' ∧ y ≤ b ∧ b ≤ y' ∧ ofCells a b = t := by
  simp only [grid, List.mem_mergeSort, List.mem_map, Prod.exists, List.pair_mem_product,
    mem_between, and_assoc]

theorem length_grid (x x' y y' : Nat) :
    (grid x x' y y').length = (x' + 1 - x) * (y' + 1 - y) := by
  have pairs : ((between x x').product (between y y')).length =
      (between x x').length * (between y y').length := List.length_product ..
  rw [grid, List.length_mergeSort, List.length_map, pairs, length_between, length_between]

theorem grid_ascending {x x' y y' : Nat} (hx' : x' ≤ Axis.lastCell) (hy' : y' ≤ Axis.lastCell) :
    (grid x x' y y').Pairwise (· < ·) := by
  have apart : (((between x x').product (between y y')).map fun p => ofCells p.1 p.2).Nodup := by
    refine List.Nodup.map_on ?_ ((nodup_between x x').product (nodup_between y y'))
    rintro ⟨a, b⟩ hab ⟨c, d⟩ hcd same
    rw [List.pair_mem_product, mem_between, mem_between] at hab hcd
    obtain ⟨rfl, rfl⟩ := ofCells_injective (by omega) (by omega) (by omega) (by omega) same
    rfl
  have sorted : (grid x x' y y').Pairwise (· ≤ ·) := by
    refine (List.pairwise_mergeSort ?_ ?_ _).imp fun le => of_decide_eq_true le
    · simp only [decide_eq_true_eq]
      exact fun _ _ _ => Nat.le_trans
    · simp only [Bool.or_eq_true, decide_eq_true_eq]
      exact fun a b => Nat.le_total a b
  have distinct : (grid x x' y y').Nodup := (List.mergeSort_perm _ _).nodup_iff.mpr apart
  exact (sorted.and distinct).imp fun h => Nat.lt_of_le_of_ne h.1 h.2

theorem cover_eq_ok {box : BoundingBox} {x x' y y' : Nat}
    (hx : Axis.longitude.cellOf (.binary box.minLon) = .ok x)
    (hx' : Axis.longitude.cellOf (.binary box.maxLon) = .ok x')
    (hy : Axis.latitude.cellOf (.binary box.minLat) = .ok y)
    (hy' : Axis.latitude.cellOf (.binary box.maxLat) = .ok y') :
    cover box = .ok (grid x x' y y') := by
  have pairs : (between x x').flatMap (fun (a : Nat) => (between y y').map fun (b : Nat) => ofCells a b) =
      ((between x x').product (between y y')).map fun p => ofCells p.1 p.2 := by
    rw [List.product, List.map_flatMap]
    simp only [List.map_map, Function.comp_def]
  unfold cover
  rw [hx, hx', hy, hy']
  simp only [grid, ← pairs]
  rfl

structure Covers (box : BoundingBox) (tiles : List Nat) : Prop where
  hit : ∀ t, t ∈ tiles ↔ ∃ lat lon : Decimal, lat.Short ∧ lon.Short ∧
    box.Encloses (.decimal lat) (.decimal lon) ∧ ofPoint (.decimal lat) (.decimal lon) = .ok t
  complete : ∀ {lat lon : Degrees} {t : Nat}, box.Encloses lat lon → ofPoint lat lon = .ok t →
    t ∈ tiles
  ascending : tiles.Pairwise (· < ·)
  size : ∃ x x' y y' : Nat, Axis.longitude.cellOf (.binary box.minLon) = .ok x ∧
    Axis.longitude.cellOf (.binary box.maxLon) = .ok x' ∧
    Axis.latitude.cellOf (.binary box.minLat) = .ok y ∧
    Axis.latitude.cellOf (.binary box.maxLat) = .ok y' ∧ x ≤ x' ∧ y ≤ y' ∧
    tiles.length = (x' - x + 1) * (y' - y + 1)
  ends : ∃ low high : Nat, range box = .ok (low, high) ∧ low ≤ high ∧ low ∈ tiles ∧ high ∈ tiles ∧
    ∀ t ∈ tiles, low ≤ t ∧ t ≤ high

/-- A box whose sides are in order has tiles, and they cover it exactly. -/
theorem cover_exact {box : BoundingBox} (hlon : box.minLon.le box.maxLon = true)
    (hlat : box.minLat.le box.maxLat = true) :
    ∃ tiles, cover box = .ok tiles ∧ Covers box tiles := by
  obtain ⟨x, hx, _⟩ := Axis.longitude.cellOf_isOk (Binary64.ne_nan_of_le hlon).1
  obtain ⟨x', hx', east⟩ := Axis.longitude.cellOf_isOk (Binary64.ne_nan_of_le hlon).2
  obtain ⟨y, hy, _⟩ := Axis.latitude.cellOf_isOk (Binary64.ne_nan_of_le hlat).1
  obtain ⟨y', hy', north⟩ := Axis.latitude.cellOf_isOk (Binary64.ne_nan_of_le hlat).2
  have lex := Axis.longitude.cellOf_mono hlon hx hx'
  have ley := Axis.latitude.cellOf_mono hlat hy hy'
  have complete {lat lon : Degrees} {t : Nat} (inside : box.Encloses lat lon)
      (ht : ofPoint lat lon = .ok t) : t ∈ grid x x' y y' := by
    obtain ⟨a, b, ha, hb, rfl⟩ := ofPoint_eq_ok_iff.mp ht
    exact mem_grid.mpr ⟨a, b, Axis.cell_le_of_le inside.west hx ha,
      Axis.cell_le_of_le inside.east ha hx', Axis.cell_le_of_le inside.south hy hb,
      Axis.cell_le_of_le inside.north hb hy', rfl⟩
  refine ⟨grid x x' y y', cover_eq_ok hx hx' hy hy', ?_, complete, grid_ascending east north,
    ⟨x, x', y, y', hx, hx', hy, hy', lex, ley, ?_⟩,
    ⟨ofCells x y, ofCells x' y', range_eq_ok (ofPoint_eq_ok hx hy) (ofPoint_eq_ok hx' hy'), ?_⟩⟩
  · intro t
    constructor
    · intro ht
      obtain ⟨a, b, hxa, hax, hyb, hby, rfl⟩ := mem_grid.mp ht
      obtain ⟨lon, shortLon, west, east, ha⟩ := Axis.longitude.exists_between hlon hx hx' hxa hax
      obtain ⟨lat, shortLat, south, north, hb⟩ := Axis.latitude.exists_between hlat hy hy' hyb hby
      exact ⟨lat, lon, shortLat, shortLon, ⟨south, north, west, east⟩, ofPoint_eq_ok ha hb⟩
    · rintro ⟨lat, lon, _, _, inside, ht⟩
      exact complete inside ht
  · rw [length_grid, Nat.succ_sub lex, Nat.succ_sub ley]
  · refine ⟨ofCells_mono lex ley east north, mem_grid.mpr ⟨x, y, le_rfl, lex, le_rfl, ley, rfl⟩,
      mem_grid.mpr ⟨x', y', lex, le_rfl, ley, le_rfl, rfl⟩, ?_⟩
    intro t ht
    obtain ⟨a, b, hxa, hax, hyb, hby, rfl⟩ := mem_grid.mp ht
    exact ⟨ofCells_mono hxa hyb (by omega) (by omega), ofCells_mono hax hby east north⟩

private def antimeridian : BoundingBox :=
  ⟨.ofDecimal false 179995 (-3), .zero true, .infinite false, .ofDecimal false 3 (-3)⟩

theorem cover_exact_antimeridian :
    antimeridian.minLon.le antimeridian.maxLon = true ∧
      antimeridian.minLat.le antimeridian.maxLat = true ∧
      ∃ tiles, cover antimeridian = .ok tiles ∧ Covers antimeridian tiles := by
  have lon : antimeridian.minLon.le antimeridian.maxLon = true := by decide +kernel
  have lat : antimeridian.minLat.le antimeridian.maxLat = true := by decide +kernel
  exact ⟨lon, lat, cover_exact lon lat⟩

example : range antimeridian = .ok (3937053352, 3937053355) := by
  decide +kernel

end Tile
end MapExtract
