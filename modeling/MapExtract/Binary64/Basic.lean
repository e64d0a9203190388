import MapExtract.Decimal
import MapExtract.Arithmetic

/-!
Binary floating-point numbers of 64 bits, exactly. The finite magnitudes are numbered in ascending
order; the number of a magnitude is its rank, and its value is a whole count of units of `2 ^
-1074`. Even ranks have even significands.
-/

set_option autoImplicit false
namespace MapExtract

def Binary64.binade : Nat := 0x10000000000000

def Binary64.magnitudes : Nat := 2047 * binade

inductive Binary64
  | nan
  | infinite (negative : Bool)
  | finite (negative : Bool) (rank : Fin Binary64.magnitudes)
deriving DecidableEq, Repr

namespace Binary64

instance : Inhabited Binary64 := ⟨.finite false ⟨0, by decide⟩⟩

/-- The value of a rank: two binades are equally spaced, each later one twice as wide as the last. -/
def units (rank : Nat) : Nat :=
  if rank < binade then rank else (binade + rank % binade) * pow2 (rank / binade - 1)

/-- The rank nearest to the value `n / d`; a half goes to the even rank. -/
def nearestRank (n d : Nat) : Nat :=
  let spare := (n / d).log2 - 52
  spare * binade + divHalfEven n (d * pow2 spare)

def ofRatio (negative : Bool) (n d : Nat) : Binary64 :=
  if h : nearestRank n d < magnitudes then .finite negative ⟨nearestRank n d, h⟩
  else .infinite negative

def zero (negative : Bool) : Binary64 := .finite negative ⟨0, by decide⟩

def one : Nat := pow2 1074

def ofInt (z : Int) : Binary64 := ofRatio (z < 0) (z.natAbs * one) 1

/-- The number nearest to a decimal. Far outside the finite range the answer needs no arithmetic. -/
def ofDecimal (negative : Bool) (coefficient : Nat) (exponent : Int) : Binary64 :=
  let leading := Decimal.leadingExponent coefficient exponent
  if coefficient = 0 ∨ leading < -325 then zero negative
  else if 309 < leading then .infinite negative
  else if 0 ≤ exponent then ofRatio negative (coefficient * pow10 exponent.toNat * one) 1
  else ofRatio negative (coefficient * one) (pow10 (-exponent).toNat)

/-- Where a number stands in the order; the zeros stand together and a NaN nowhere. -/
def position? : Binary64 → Option Int
  | .nan => none
  | .infinite negative => some (signed negative magnitudes)
  | .finite negative rank => some (signed negative rank)

def le (x y : Binary64) : Bool :=
  match x.position?, y.position? with
  | some a, some b => a ≤ b
  | _, _ => false

def lt (x y : Binary64) : Bool :=
  match x.position?, y.position? with
  | some a, some b => a < b
  | _, _ => false

/-- Equality of values: the zeros are equal and a NaN equals nothing. -/
def same (x y : Binary64) : Bool :=
  match x.position?, y.position? with
  | some a, some b => a = b
  | _, _ => false

def max (x y : Binary64) : Binary64 := if x.lt y then y else x

def min (x y : Binary64) : Binary64 := if y.lt x then y else x

def neg : Binary64 → Binary64
  | .nan => .nan
  | .infinite negative => .infinite !negative
  | .finite negative rank => .finite (!negative) rank

/-- The exact sum, rounded once. A sum of zero is negative only if both terms are. -/
def add : Binary64 → Binary64 → Binary64
  | .nan, _ | _, .nan => .nan
  | .infinite a, .infinite b => if a = b then .infinite a else .nan
  | .infinite a, .finite _ _ => .infinite a
  | .finite _ _, .infinite b => .infinite b
  | .finite a m, .finite b n =>
    let sum := signed a (units m) + signed b (units n)
    if sum = 0 then zero (a && b) else ofRatio (sum < 0) sum.natAbs 1

def sub (x y : Binary64) : Binary64 := x.add y.neg

def mul : Binary64 → Binary64 → Binary64
  | .nan, _ | _, .nan => .nan
  | .infinite a, .infinite b => .infinite (a != b)
  | .infinite a, .finite b n => if n.val = 0 then .nan else .infinite (a != b)
  | .finite a m, .infinite b => if m.val = 0 then .nan else .infinite (a != b)
  | .finite a m, .finite b n => ofRatio (a != b) (units m * units n) one

theorem nan_le (x : Binary64) : le .nan x = false := rfl

theorem le_nan (x : Binary64) : le x .nan = false := by
  unfold le
  cases x.position? <;> rfl

theorem le_iff {x y : Binary64} :
    le x y = true ↔ ∃ a b, x.position? = some a ∧ y.position? = some b ∧ a ≤ b := by
  unfold le
  cases x.position? <;> cases y.position? <;> simp

theorem lt_iff {x y : Binary64} :
    lt x y = true ↔ ∃ a b, x.position? = some a ∧ y.position? = some b ∧ a < b := by
  unfold lt
  cases x.position? <;> cases y.position? <;> simp

theorem le_trans {x y z : Binary64} (hxy : le x y = true) (hyz : le y z = true) :
    le x z = true := by
  obtain ⟨a, b, ha, hb, hab⟩ := le_iff.mp hxy
  obtain ⟨b', c, hb', hc, hbc⟩ := le_iff.mp hyz
  have e : b = b' := Option.some.inj (hb.symm.trans hb')
  exact le_iff.mpr ⟨a, c, ha, hc, by omega⟩

end Binary64
end MapExtract
