import MapExtract.Error

/-!
Each axis of the world is divided into 65536 cells, and a tile code interleaves the 16 bits of the
two cell numbers, the longitude bit first.
-/

set_option autoImplicit false
namespace MapExtract

inductive Degrees
  | whole (n : Int)
  | binary (x : Binary64)
  | text (s : String)
  | decimal (d : Decimal)
deriving DecidableEq, Repr

namespace Degrees

def places : Nat := 7

def scale : Nat := pow10 places

def asDecimal : Degrees → Except Error Decimal
  | .whole n => .ok (.finite (n < 0) n.natAbs 0)
  | .binary x => .ok x.toDecimal
  | .text s => (Decimal.read s).mapError .unreadable
  | .decimal d => .ok d

/-- The fixed-point form of a decimal; halves are rounded away from zero. -/
def fixedOfDecimal : Decimal → Except Error Int
  | .special value => .error (.notFinite value)
  | .finite negative coefficient exponent =>
    match Decimal.shift? coefficient exponent places with
    | none => .error .overflow
    | some (c, e) => .ok (signed negative (Decimal.toWhole c e))

def toFixed (d : Degrees) : Except Error Int :=
  match d with
  | .whole n => .ok (n * scale)
  | _ => d.asDecimal.bind fixedOfDecimal

end Degrees

inductive Axis
  | longitude
  | latitude
deriving DecidableEq, Repr

namespace Axis

def reach : Axis → Nat
  | .longitude => 180
  | .latitude => 90

def lastCell : Nat := 65535

/-- The cell of a fixed-point coordinate; what lies outside the world belongs to its edge. -/
def cell (axis : Axis) (fixed : Int) : Nat :=
  let fromEdge := (fixed + axis.reach * Degrees.scale) * lastCell
  min (divHalfUp fromEdge.toNat (2 * axis.reach * Degrees.scale)) lastCell

/-- The cell of degrees in any form. Infinities belong to the edges, and a NaN has no cell. -/
def cellOf (axis : Axis) (d : Degrees) : Except Error Nat :=
  match d with
  | .whole n => .ok (axis.cell (n * Degrees.scale))
  | _ => d.asDecimal.bind fun
    | .special (.infinite negative) => .ok (if negative then 0 else lastCell)
    | value => (Degrees.fixedOfDecimal value).map axis.cell

theorem cell_le (axis : Axis) (fixed : Int) : axis.cell fixed ≤ lastCell := Nat.min_le_right _ _

theorem cell_mono (axis : Axis) {a b : Int} (h : a ≤ b) : axis.cell a ≤ axis.cell b := by
  have step : ((a + axis.reach * Degrees.scale) * lastCell).toNat
      ≤ ((b + axis.reach * Degrees.scale) * lastCell).toNat := by
    apply Int.toNat_le_toNat
    exact Int.mul_le_mul_of_nonneg_right (by omega) (by decide)
  have := divHalfUp_mono (2 * axis.reach * Degrees.scale) step
  simp only [cell]
  omega

end Axis

namespace Tile

/-- The low bits of two numbers in pairs, the bit of the first number on the left. -/
def interleave : Nat → Nat → Nat → Nat
  | 0, _, _ => 0
  | bits + 1, x, y => 4 * interleave bits (x / 2) (y / 2) + (2 * (x % 2) + y % 2)

def bits : Nat := 16

/-- The low bits of an integer of any sign, in two's complement. -/
def lowBits (z : Int) : Nat := (z % pow2 bits).toNat

def ofCells (x y : Int) : Nat := interleave bits (lowBits x) (lowBits y)

def ofPoint (lat lon : Degrees) : Except Error Nat := do
  let x ← Axis.longitude.cellOf lon
  let y ← Axis.latitude.cellOf lat
  return ofCells x y

def between (a b : Nat) : List Nat := (List.range (b + 1 - a)).map (a + ·)

def cover (box : BoundingBox) : Except Error (List Nat) := do
  let minX ← Axis.longitude.cellOf (.binary box.minLon)
  let maxX ← Axis.longitude.cellOf (.binary box.maxLon)
  let minY ← Axis.latitude.cellOf (.binary box.minLat)
  let maxY ← Axis.latitude.cellOf (.binary box.maxLat)
  let tiles := (between minX maxX).flatMap fun (x : Nat) =>
    (between minY maxY).map fun (y : Nat) => ofCells x y
  return tiles.mergeSort

/-- The tiles of the two corners. Every tile of the box lies between them, and others may too. -/
def range (box : BoundingBox) : Except Error (Nat × Nat) := do
  let low ← ofPoint (.binary box.minLat) (.binary box.minLon)
  let high ← ofPoint (.binary box.maxLat) (.binary box.maxLon)
  return (low, high)

theorem interleave_lt (n x y : Nat) : interleave n x y < pow2 (2 * n) := by
  induction n generalizing x y with
  | zero => exact Nat.zero_lt_one
  | succ n ih =>
    have := ih (x / 2) (y / 2)
    rw [Nat.mul_succ, pow2_succ, pow2_succ, interleave]
    omega

theorem mem_between {a b n : Nat} : n ∈ between a b ↔ a ≤ n ∧ n ≤ b := by
  simp only [between, List.mem_map, List.mem_range]
  constructor
  · rintro ⟨i, hi, rfl⟩
    omega
  · rintro ⟨ha, hb⟩
    exact ⟨n - a, by omega, by omega⟩

end Tile

namespace Node

def place (n : Node) : Except Error Nat := Tile.ofPoint (.binary n.latitude) (.binary n.longitude)

def located (n : Node) : Except Error Node := do
  let tile ← n.place
  return { n with tile := some (tile : Int) }

/-- The tile under which a node is found: the one it carries, or that of its coordinates. -/
def indexTile (n : Node) : Except Error Int :=
  match n.tile with
  | some tile => .ok tile
  | none => n.place.map fun tile => (tile : Int)

end Node

/-- A node with the tile of its coordinates; other elements have no place. -/
def Element.located : Element → Except Error Element
  | .node n => n.located.map .node
  | e => .ok e

end MapExtract
