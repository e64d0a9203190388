import MapExtract.Proofs.TileOrder

set_option autoImplicit false
namespace MapExtract

namespace Binary64

theorem exists_position {x : Binary64} (hx : x ≠ .nan) : ∃ a, x.position? = some a := by
  cases x with
  | nan => exact absurd rfl hx
  | infinite negative => exact ⟨_, rfl⟩
  | finite negative r => exact ⟨_, rfl⟩

theorem le_of_not_lt {x y : Binary64} (hx : x ≠ .nan) (hy : y ≠ .nan) (h : ¬x.lt y = true) :
    y.le x = true := by
  obtain ⟨a, ha⟩ := exists_position hx
  obtain ⟨b, hb⟩ := exists_position hy
  refine le_iff.mpr ⟨b, a, hb, ha, ?_⟩
  by_contra above
  exact h (lt_iff.mpr ⟨a, b, ha, hb, not_le.mp above⟩)

theorem not_lt_of_le {x y : Binary64} (h : x.le y = true) : ¬y.lt x = true := by
  intro above
  obtain ⟨a, b, ha, hb, hab⟩ := le_iff.mp h
  obtain ⟨b', a', hb', ha', hba⟩ := lt_iff.mp above
  cases ha.symm.trans ha'
  cases hb.symm.trans hb'
  omega

theorem same_iff {x y : Binary64} : x.same y = true ↔ x.le y = true ∧ y.le x = true := by
  unfold same le
  cases x.position? <;> cases y.position? <;> simp
  omega

theorem le_refl {x : Binary64} (hx : x ≠ .nan) : x.le x = true := by
  obtain ⟨a, ha⟩ := exists_position hx
  exact le_iff.mpr ⟨a, a, ha, ha, le_rfl⟩

theorem max_eq_left {x y : Binary64} (h : ¬x.lt y = true) : x.max y = x := if_neg h

theorem max_eq_right {x y : Binary64} (h : x.lt y = true) : x.max y = y := if_pos h

theorem min_eq_left {x y : Binary64} (h : ¬y.lt x = true) : x.min y = x := if_neg h

theorem min_eq_right {x y : Binary64} (h : y.lt x = true) : x.min y = y := if_pos h

theorem max_max (x y : Binary64) : (x.max y).max y = x.max y := by
  by_cases h : x.lt y = true
  · rw [max_eq_right h]
    exact ite_self y
  · rw [max_eq_left h, max_eq_left h]

theorem min_min (x y : Binary64) : (x.min y).min y = x.min y := by
  by_cases h : y.lt x = true
  · rw [min_eq_right h]
    exact ite_self y
  · rw [min_eq_left h, min_eq_left h]

variable {x y : Binary64}

theorem max_eq_nan_iff (hy : y ≠ .nan) : x.max y = .nan ↔ x = .nan := by
  by_cases h : x.lt y = true
  · rw [max_eq_right h]
    exact iff_of_false hy (ne_nan_of_le (le_of_lt h)).1
  · rw [max_eq_left h]

theorem min_eq_nan_iff (hy : y ≠ .nan) : x.min y = .nan ↔ x = .nan := by
  by_cases h : y.lt x = true
  · rw [min_eq_right h]
    exact iff_of_false hy (ne_nan_of_le (le_of_lt h)).2
  · rw [min_eq_left h]

/-- If the first number is a NaN, it is kept and nothing is above it. -/
theorem max_le_iff (hy : y ≠ .nan) {z : Binary64} :
    (x.max y).le z = true ↔ x.le z = true ∧ y.le z = true := by
  by_cases h : x.lt y = true
  · rw [max_eq_right h]
    exact ⟨fun hz => ⟨le_trans (le_of_lt h) hz, hz⟩, And.right⟩
  · rw [max_eq_left h]
    refine ⟨fun hz => ⟨hz, ?_⟩, And.left⟩
    exact le_trans (le_of_not_lt (ne_nan_of_le hz).1 hy h) hz

theorem le_min_iff (hy : y ≠ .nan) {z : Binary64} :
    z.le (x.min y) = true ↔ z.le x = true ∧ z.le y = true := by
  by_cases h : y.lt x = true
  · rw [min_eq_right h]
    exact ⟨fun hz => ⟨le_trans hz (le_of_lt h), hz⟩, And.right⟩
  · rw [min_eq_left h]
    refine ⟨fun hz => ⟨hz, ?_⟩, And.left⟩
    exact le_trans hz (le_of_not_lt hy (ne_nan_of_le hz).2 h)

theorem max_eq_self_iff (hx : x ≠ .nan) (hy : y ≠ .nan) : x.max y = x ↔ y.le x = true := by
  refine ⟨fun kept => ?_, fun le => max_eq_left (not_lt_of_le le)⟩
  have below : (x.max y).le x = true := kept.symm ▸ le_refl hx
  exact ((max_le_iff hy).mp below).2

theorem min_eq_self_iff (hx : x ≠ .nan) (hy : y ≠ .nan) : x.min y = x ↔ x.le y = true := by
  refine ⟨fun kept => ?_, fun le => min_eq_left (not_lt_of_le le)⟩
  have above : x.le (x.min y) = true := kept.symm ▸ le_refl hx
  exact ((le_min_iff hy).mp above).2

theorem max_eq_of_same (h : (x.max y).same x = true) : x.max y = x := by
  by_cases above : x.lt y = true
  · rw [max_eq_right above, same_iff] at h
    exact absurd above (not_lt_of_le h.1)
  · exact max_eq_left above

theorem min_eq_of_same (h : (x.min y).same x = true) : x.min y = x := by
  by_cases below : y.lt x = true
  · rw [min_eq_right below, same_iff] at h
    exact absurd below (not_lt_of_le h.2)
  · exact min_eq_left below

end Binary64

namespace Axis

theorem cellOf_max (axis : Axis) (x : Binary64) :
    axis.cellOf (.binary (x.max (.ofInt (-axis.reach)))) = axis.cellOf (.binary x) := by
  by_cases beyond : x.lt (.ofInt (-axis.reach)) = true
  · have edge : axis.cellOf (.binary (.ofInt (-axis.reach))) = .ok 0 := by
      cases axis <;> decide +kernel
    obtain ⟨c, hc, _⟩ := axis.cellOf_isOk (Binary64.ne_nan_of_le (Binary64.le_of_lt beyond)).1
    have first := axis.cellOf_mono (Binary64.le_of_lt beyond) hc edge
    rw [Binary64.max_eq_right beyond, edge, hc, Nat.le_zero.mp first]
  · rw [Binary64.max_eq_left beyond]

theorem cellOf_min (axis : Axis) (x : Binary64) :
    axis.cellOf (.binary (x.min (.ofInt axis.reach))) = axis.cellOf (.binary x) := by
  by_cases beyond : (Binary64.ofInt axis.reach).lt x = true
  · have edge : axis.cellOf (.binary (.ofInt axis.reach)) = .ok lastCell := by
      cases axis <;> decide +kernel
    obtain ⟨c, hc, most⟩ := axis.cellOf_isOk (Binary64.ne_nan_of_le (Binary64.le_of_lt beyond)).2
    have last := axis.cellOf_mono (Binary64.le_of_lt beyond) edge hc
    rw [Binary64.min_eq_right beyond, edge, hc, Nat.le_antisymm most last]
  · rw [Binary64.min_eq_left beyond]

end Axis

namespace BoundingBox

def world : BoundingBox := ⟨.ofInt (-180), .ofInt (-90), .ofInt 180, .ofInt 90⟩

/-- Equality of the four numbers, of which a NaN equals nothing. -/
def SameSides (box other : BoundingBox) : Prop :=
  ∀ s, (box.side s).same (other.side s) = true

def HasNan (box : BoundingBox) : Prop := ∃ s, box.side s = .nan

theorem Side.limits_ne_nan (s : Side) : s.least ≠ .nan ∧ s.greatest ≠ .nan := by
  cases s <;> decide +kernel

theorem world_eq : world = ⟨Side.minLon.least, Side.minLat.least, Side.maxLon.greatest,
    Side.maxLat.greatest⟩ := by
  decide +kernel

theorem flaw_eq_none_iff {box : BoundingBox} :
    box.flaw? = none ↔ (∀ s : Side, s.admits (box.side s) = true) ∧
      box.minLon.lt box.maxLon = true ∧ box.minLat.lt box.maxLat = true := by
  constructor
  · intro h
    refine ⟨fun s => ?_, sides_lt_of_flaw_eq_none h⟩
    unfold flaw? at h
    split at h
    · cases h
    · rename_i sound
      have listed : s ∈ sides := by cases s <;> decide
      simpa using List.find?_eq_none.mp sound s listed
  · intro h
    obtain ⟨sound, lon, lat⟩ := h
    have found : (sides.find? fun s => !s.admits (box.side s)) = none := by
      refine List.find?_eq_none.mpr fun s _ => ?_
      rw [sound s]
      decide
    unfold flaw?
    rw [found, lon, lat]
    rfl

theorem contains_clip {box : BoundingBox} {lat lon : Binary64} :
    box.clip.contains lat lon = true ↔
      box.contains lat lon = true ∧ world.contains lat lon = true := by
  rw [world_eq]
  simp only [contains_iff, clip, Binary64.max_le_iff (Side.limits_ne_nan _).1,
    Binary64.le_min_iff (Side.limits_ne_nan _).2]
  constructor
  · rintro ⟨⟨south, s⟩, ⟨north, n⟩, ⟨west, w⟩, ⟨east, e⟩⟩
    exact ⟨⟨south, north, west, east⟩, s, n, w, e⟩
  · rintro ⟨⟨south, north, west, east⟩, s, n, w, e⟩
    exact ⟨⟨south, s⟩, ⟨north, n⟩, ⟨west, w⟩, ⟨east, e⟩⟩

def Side.clip (s : Side) (x : Binary64) : Binary64 :=
  match s with
  | .minLon | .minLat => x.max s.least
  | .maxLon | .maxLat => x.min s.greatest

theorem side_clip (box : BoundingBox) (s : Side) : box.clip.side s = s.clip (box.side s) := by
  cases s <;> simp only [side, clip, Side.clip]

theorem ext_side {box other : BoundingBox} (h : ∀ s, box.side s = other.side s) : box = other := by
  have west := h .minLon
  have south := h .minLat
  have east := h .maxLon
  have north := h .maxLat
  obtain ⟨minLon, minLat, maxLon, maxLat⟩ := box
  simp only [side] at west south east north
  rw [west, south, east, north]

namespace Side

theorem clip_clip (s : Side) (x : Binary64) : s.clip (s.clip x) = s.clip x := by
  cases s <;> simp only [clip, Binary64.max_max, Binary64.min_min]

theorem clip_eq_nan_iff (s : Side) {x : Binary64} : s.clip x = .nan ↔ x = .nan := by
  have limits := s.limits_ne_nan
  cases s <;> simp only [clip, Binary64.max_eq_nan_iff limits.1, Binary64.min_eq_nan_iff limits.2]

theorem clip_eq_of_same (s : Side) {x : Binary64} (h : (s.clip x).same x = true) : s.clip x = x := by
  cases s <;> simp only [clip] at h ⊢
  case minLon | minLat => exact Binary64.max_eq_of_same h
  case maxLon | maxLat => exact Binary64.min_eq_of_same h

theorem clip_eq_of_admits (s : Side) {x : Binary64} (h : s.admits x = true) : s.clip x = x := by
  simp only [admits, Bool.and_eq_true] at h
  cases s <;> simp only [clip]
  case minLon | minLat => exact Binary64.max_eq_left (Binary64.not_lt_of_le h.1)
  case maxLon | maxLat => exact Binary64.min_eq_left (Binary64.not_lt_of_le h.2)

def axis : Side → Axis
  | .minLon | .maxLon => .longitude
  | .minLat | .maxLat => .latitude

theorem limit_eq (s : Side) : s.limit = s.axis.reach := by cases s <;> rfl

theorem cellOf_clip (s : Side) (x : Binary64) :
    s.axis.cellOf (.binary (s.clip x)) = s.axis.cellOf (.binary x) := by
  have lower := s.axis.cellOf_max x
  have upper := s.axis.cellOf_min x
  rw [← limit_eq] at lower upper
  cases s <;> simp only [clip]
  case minLon | minLat => exact lower
  case maxLon | maxLat => exact upper

end Side

theorem clip_clip (box : BoundingBox) : box.clip.clip = box.clip :=
  ext_side fun s => by rw [side_clip, side_clip, Side.clip_clip]

theorem clip_eq_iff {box : BoundingBox} :
    box.clip = box ↔ ∀ s, Side.clip s (box.side s) = box.side s := by
  constructor
  · intro kept s
    rw [← side_clip, kept]
  · exact fun kept => ext_side fun s => (side_clip box s).trans (kept s)

theorem sides_ne_nan {box : BoundingBox} (lon : box.minLon.lt box.maxLon = true)
    (lat : box.minLat.lt box.maxLat = true) (s : Side) : box.side s ≠ .nan := by
  have lons := Binary64.ne_nan_of_le (Binary64.le_of_lt lon)
  have lats := Binary64.ne_nan_of_le (Binary64.le_of_lt lat)
  cases s with
  | minLon => exact lons.1
  | minLat => exact lats.1
  | maxLon => exact lons.2
  | maxLat => exact lats.2

/-- Clipping compares each side with one limit only; that it is within the other follows from the
order of the sides. -/
theorem flaw_eq_none_iff_clip {box : BoundingBox} :
    box.flaw? = none ↔
      box.clip = box ∧ box.minLon.lt box.maxLon = true ∧ box.minLat.lt box.maxLat = true := by
  rw [flaw_eq_none_iff]
  refine and_congr_left fun ⟨lon, lat⟩ => ?_
  rw [clip_eq_iff]
  refine ⟨fun sound s => s.clip_eq_of_admits (sound s), fun kept s => ?_⟩
  have numbers := sides_ne_nan lon lat
  have limits := Side.limits_ne_nan
  have west := (Binary64.max_eq_self_iff (numbers .minLon) (limits .minLon).1).mp (kept .minLon)
  have south := (Binary64.max_eq_self_iff (numbers .minLat) (limits .minLat).1).mp (kept .minLat)
  have east := (Binary64.min_eq_self_iff (numbers .maxLon) (limits .maxLon).2).mp (kept .maxLon)
  have north := (Binary64.min_eq_self_iff (numbers .maxLat) (limits .maxLat).2).mp (kept .maxLat)
  have lon := Binary64.le_of_lt lon
  have lat := Binary64.le_of_lt lat
  rw [Side.admits, Bool.and_eq_true]
  cases s with
  | minLon => exact ⟨west, Binary64.le_trans lon east⟩
  | minLat => exact ⟨south, Binary64.le_trans lat north⟩
  | maxLon => exact ⟨Binary64.le_trans west lon, east⟩
  | maxLat => exact ⟨Binary64.le_trans south lat, north⟩

theorem clip_sameSides_iff {box : BoundingBox} (numbers : ∀ s, box.side s ≠ .nan) :
    box.clip.SameSides box ↔ box.clip = box := by
  constructor
  · exact fun same => clip_eq_iff.mpr fun s => s.clip_eq_of_same (side_clip box s ▸ same s)
  · intro kept s
    rw [kept, Binary64.same_iff]
    exact ⟨Binary64.le_refl (numbers s), Binary64.le_refl (numbers s)⟩

end BoundingBox

namespace Tile
open BoundingBox (Side)

theorem tiles_congr {box other : BoundingBox}
    (h : ∀ s : Side, s.axis.cellOf (.binary (box.side s)) = s.axis.cellOf (.binary (other.side s))) :
    range box = range other ∧ cover box = cover other := by
  have west : Axis.longitude.cellOf (.binary box.minLon) = _ := h .minLon
  have south : Axis.latitude.cellOf (.binary box.minLat) = _ := h .minLat
  have east : Axis.longitude.cellOf (.binary box.maxLon) = _ := h .maxLon
  have north : Axis.latitude.cellOf (.binary box.maxLat) = _ := h .maxLat
  unfold range cover ofPoint
  rw [west, south, east, north]
  exact ⟨rfl, rfl⟩

def noNumber : Error := .notFinite (.nan false false 0)

theorem cellOf_cases (axis : Axis) (x : Binary64) :
    x = .nan ∧ axis.cellOf (.binary x) = .error noNumber ∨
      x ≠ .nan ∧ ∃ c, axis.cellOf (.binary x) = .ok c := by
  by_cases hx : x = .nan
  · subst hx
    exact .inl ⟨rfl, rfl⟩
  · obtain ⟨c, hc, _⟩ := axis.cellOf_isOk hx
    exact .inr ⟨hx, c, hc⟩

theorem tiles_cases (box : BoundingBox) :
    box.HasNan ∧ range box = .error noNumber ∧ cover box = .error noNumber ∨
      ¬box.HasNan ∧ ∃ corners tiles, range box = .ok corners ∧ cover box = .ok tiles := by
  unfold range cover ofPoint
  rcases cellOf_cases .longitude box.minLon with ⟨nan, west⟩ | ⟨hasWest, x, west⟩ <;> rw [west]
  · exact .inl ⟨⟨.minLon, nan⟩, rfl, rfl⟩
  -- The corners ask for a latitude next, the cover for the other longitude.
  rcases cellOf_cases .latitude box.minLat with ⟨nan, south⟩ | ⟨hasSouth, y, south⟩ <;>
    rcases cellOf_cases .longitude box.maxLon with ⟨nan', east⟩ | ⟨hasEast, x', east⟩ <;>
    rw [south, east]
  · exact .inl ⟨⟨.minLat, nan⟩, rfl, rfl⟩
  · exact .inl ⟨⟨.minLat, nan⟩, rfl, rfl⟩
  · exact .inl ⟨⟨.maxLon, nan'⟩, rfl, rfl⟩
  rcases cellOf_cases .latitude box.maxLat with ⟨nan, north⟩ | ⟨hasNorth, y', north⟩ <;> rw [north]
  · exact .inl ⟨⟨.maxLat, nan⟩, rfl, rfl⟩
  refine .inr ⟨?_, _, _, rfl, rfl⟩
  rintro ⟨s, nan⟩
  cases s with
  | minLon => exact hasWest nan
  | minLat => exact hasSouth nan
  | maxLon => exact hasEast nan
  | maxLat => exact hasNorth nan

end Tile

namespace BoundingBox

/-- Clipping keeps exactly the points of a box within the world, changes nothing a second time and
keeps every NaN. A box is without flaw if and only if it equals its clipped form and its minima are
less than its maxima. No answer about tiles is changed. -/
theorem world_edges_agree (box : BoundingBox) :
    (∀ lat lon, box.clip.contains lat lon = true ↔
      box.contains lat lon = true ∧ world.contains lat lon = true) ∧
    (box.clip.clip = box.clip ∧ ∀ s, box.clip.side s = .nan ↔ box.side s = .nan) ∧
    (box.flaw? = none ↔
      box.clip = box ∧ box.minLon.lt box.maxLon = true ∧ box.minLat.lt box.maxLat = true) ∧
    (box.flaw? = none ↔
      box.clip.SameSides box ∧ box.minLon.lt box.maxLon = true ∧ box.minLat.lt box.maxLat = true) ∧
    (Tile.range box.clip = Tile.range box ∧ Tile.cover box.clip = Tile.cover box) ∧
    (box.HasNan ∧ Tile.range box = .error (.notFinite (.nan false false 0)) ∧
        Tile.cover box = .error (.notFinite (.nan false false 0)) ∨
      ¬box.HasNan ∧ ∃ corners tiles, Tile.range box = .ok corners ∧ Tile.cover box = .ok tiles) := by
  refine ⟨fun lat lon => contains_clip, ⟨box.clip_clip, fun s => ?_⟩, flaw_eq_none_iff_clip, ?_, ?_,
    Tile.tiles_cases box⟩
  · rw [side_clip]
    exact s.clip_eq_nan_iff
  · rw [flaw_eq_none_iff_clip]
    refine and_congr_left fun ⟨lon, lat⟩ => ?_
    exact (clip_sameSides_iff (sides_ne_nan lon lat)).symm
  · refine Tile.tiles_congr fun s => ?_
    rw [side_clip]
    exact s.cellOf_clip (box.side s)

example : (⟨.infinite false, .ofInt 91, .nan, .ofInt 100⟩ : BoundingBox).clip =
    ⟨.infinite false, .ofInt 91, .nan, .ofInt 90⟩ := by
  decide +kernel

end BoundingBox
end MapExtract
