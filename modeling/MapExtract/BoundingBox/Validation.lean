import MapExtract.Error

set_option autoImplicit false
namespace MapExtract.BoundingBox

def area (box : BoundingBox) : Binary64 :=
  (box.maxLon.sub box.minLon).mul (box.maxLat.sub box.minLat)

def contains (box : BoundingBox) (lat lon : Binary64) : Bool :=
  box.minLat.le lat && lat.le box.maxLat && box.minLon.le lon && lon.le box.maxLon

/-- The part of a box within the world. A side without a number keeps none. -/
def clip (box : BoundingBox) : BoundingBox where
  minLon := box.minLon.max Side.minLon.least
  minLat := box.minLat.max Side.minLat.least
  maxLon := box.maxLon.min Side.maxLon.greatest
  maxLat := box.maxLat.min Side.maxLat.greatest

/-- Four numbers between commas: least longitude and latitude, greatest longitude and latitude. -/
def read (text : String) : Except Error BoundingBox :=
  match (text.toList.splitOn ',').map fun part => Binary64.read? (String.ofList part) with
  | [some minLon, some minLat, some maxLon, some maxLat] => .ok { minLon, minLat, maxLon, maxLat }
  | _ => .error .boxFormat

def sides : List Side := [.minLon, .maxLon, .minLat, .maxLat]

/-- The first flaw of a box; there is none if the box is a part of the world with an area. -/
def flaw? (box : BoundingBox) : Option Flaw :=
  match sides.find? fun s => !s.admits (box.side s) with
  | some s => some (.outside s (box.side s))
  | none =>
    if !box.minLon.lt box.maxLon then some .longitudesNotIncreasing
    else if !box.minLat.lt box.maxLat then some .latitudesNotIncreasing
    else none

def validate (box : BoundingBox) (maxArea : Option Binary64) : Except Error Unit :=
  match box.flaw? with
  | some flaw => .error (.invalidBox flaw)
  | none =>
    match maxArea with
    | none => .ok ()
    | some limit => if limit.lt box.area then .error (.boxTooLarge limit) else .ok ()

theorem flaw_eq_none_of_validate {box : BoundingBox} {maxArea : Option Binary64}
    (h : box.validate maxArea = .ok ()) : box.flaw? = none := by
  unfold validate at h
  cases hf : box.flaw? with
  | none => rfl
  | some flaw => simp [hf] at h

end MapExtract.BoundingBox
