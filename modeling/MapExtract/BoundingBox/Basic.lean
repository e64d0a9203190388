import MapExtract.Binary64.Text

set_option autoImplicit false
namespace MapExtract

structure BoundingBox where
  minLon : Binary64
  minLat : Binary64
  maxLon : Binary64
  maxLat : Binary64
deriving DecidableEq, Repr, Inhabited

namespace BoundingBox

inductive Side
  | minLon
  | minLat
  | maxLon
  | maxLat
deriving DecidableEq, Repr

def Side.name : Side → String
  | .minLon => "min_lon"
  | .minLat => "min_lat"
  | .maxLon => "max_lon"
  | .maxLat => "max_lat"

def Side.limit : Side → Nat
  | .minLon | .maxLon => 180
  | .minLat | .maxLat => 90

def side (box : BoundingBox) : Side → Binary64
  | .minLon => box.minLon
  | .minLat => box.minLat
  | .maxLon => box.maxLon
  | .maxLat => box.maxLat

def Side.least (s : Side) : Binary64 := .ofInt (-s.limit)

def Side.greatest (s : Side) : Binary64 := .ofInt s.limit

def Side.admits (s : Side) (x : Binary64) : Bool := s.least.le x && x.le s.greatest

inductive Flaw
  | outside (side : Side) (value : Binary64)
  | longitudesNotIncreasing
  | latitudesNotIncreasing
deriving DecidableEq, Repr

def Flaw.text : Flaw → String
  | .outside side value =>
    let limit := side.limit
    s!"{side.name} {value.text} is outside -{limit} to {limit}"
  | .longitudesNotIncreasing => "min_lon must be less than max_lon"
  | .latitudesNotIncreasing => "min_lat must be less than max_lat"

def text (box : BoundingBox) : String :=
  ",".intercalate [box.minLon.text, box.minLat.text, box.maxLon.text, box.maxLat.text]

end BoundingBox
end MapExtract
