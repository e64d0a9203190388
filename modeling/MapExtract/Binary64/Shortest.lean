import MapExtract.Binary64.Basic

/-!
The shortest decimal of a magnitude: the one with the fewest digits that rounds back to it, and of
several the nearest. Grids of ever smaller powers of ten are tried from the leading digit on; on
each, only the two neighbours of the value can be the nearest point.
-/

set_option autoImplicit false
namespace MapExtract.Binary64

/-- The midpoints around a rank, in half units. -/
def lowerMidpoint (rank : Nat) : Nat := units (rank - 1) + units rank

def upperMidpoint (rank : Nat) : Nat := units rank + units (rank + 1)

def roundsTo (rank n d : Nat) : Bool :=
  let low := lowerMidpoint rank * d
  let high := upperMidpoint rank * d
  if rank % 2 = 0 then low ≤ n && n ≤ high else low < n && n < high

def powerOfTen (exponent : Int) : Nat × Nat :=
  if 0 ≤ exponent then (pow10 exponent.toNat, 1) else (1, pow10 (-exponent).toNat)

def decimalRoundsTo (rank digits : Nat) (exponent : Int) : Bool :=
  let (n, d) := powerOfTen exponent
  roundsTo rank (digits * n * (2 * one)) d

def leadingPlace (rank : Nat) : Int :=
  Decimal.leadingExponent (units rank * pow10 324 / one) (-324)

/-- The point of the grid `10 ^ exponent` that rounds to the rank and is nearest to it. -/
def onGrid? (rank : Nat) (exponent : Int) : Option Nat :=
  let (n, d) := powerOfTen exponent
  let step := one * n
  let value := units rank * d
  let below := value / step
  let rest := value % step
  match decimalRoundsTo rank below exponent, decimalRoundsTo rank (below + 1) exponent with
  | false, false => none
  | true, false => some below
  | false, true => some (below + 1)
  | true, true => some (if 2 * rest < step ∨ 2 * rest = step ∧ below % 2 = 0 then below else below + 1)

def mostDigits : Nat := 17

def shortest (rank : Nat) : Nat × Int :=
  let leading := leadingPlace rank
  let grids := (List.range mostDigits).map fun (i : Nat) => leading - i
  (grids.findSome? fun e => (onGrid? rank e).map fun c => (c, e)).getD
    (units rank * (pow10 1074 / one), -1074)

def toDecimal : Binary64 → Decimal
  | .nan => .special (.nan false false 0)
  | .infinite negative => .special (.infinite negative)
  | .finite negative rank =>
    if rank.val = 0 then .finite negative 0 0
    else .finite negative (shortest rank).1 (shortest rank).2

end MapExtract.Binary64
