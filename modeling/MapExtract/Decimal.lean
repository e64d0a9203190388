import MapExtract.Arithmetic
import MapExtract.Text.Character
import MapExtract.Text.Numeral

set_option autoImplicit false
namespace MapExtract

inductive Decimal.Special
  | infinite (negative : Bool)
  | nan (negative signaling : Bool) (payload : Nat)
deriving DecidableEq, Repr

/-- The decimal `coefficient * 10 ^ exponent` with a sign, or a special value. -/
inductive Decimal
  | finite (negative : Bool) (coefficient : Nat) (exponent : Int)
  | special (value : Decimal.Special)
deriving DecidableEq, Repr

namespace Decimal

def digitCount (n : Nat) : Nat := (Nat.toDigits 10 n).length

theorem digitCount_pos (n : Nat) : 0 < digitCount n := Nat.length_toDigits_pos

theorem digitCount_le_iff {n k : Nat} (hk : 0 < k) : digitCount n ≤ k ↔ n < pow10 k :=
  Nat.length_toDigits_le_iff (by decide) hk

def leadingExponent (coefficient : Nat) (exponent : Int) : Int :=
  exponent + digitCount coefficient - 1

def Special.text : Special → String
  | .infinite negative => (if negative then "-" else "") ++ "Infinity"
  | .nan negative signaling payload =>
    (if negative then "-" else "") ++ (if signaling then "sNaN" else "NaN") ++
      (if payload = 0 then "" else toString payload)

def workingDigits : Nat := 28

def workingExponent : Int := 999999

/-- Cuts a coefficient to the working precision; a half goes to the even neighbour. -/
def cut (coefficient : Nat) (exponent : Int) : Nat × Int :=
  let surplus := digitCount coefficient - workingDigits
  (divHalfEven coefficient (pow10 surplus), exponent + surplus)

/-- Moves the point by some places and rounds to the working precision; `none` if the number is too
large before or after rounding. A number below the least leading digit counts as zero. -/
def shift? (coefficient : Nat) (exponent : Int) (places : Int) : Option (Nat × Int) :=
  let moved := exponent + places
  if coefficient = 0 then some (0, 0)
  else if workingExponent < leadingExponent coefficient moved then none
  else if leadingExponent coefficient moved < -workingExponent then some (0, 0)
  else
    let (c, e) := cut coefficient moved
    if workingExponent < leadingExponent c e then none else some (c, e)

def toWhole (coefficient : Nat) (exponent : Int) : Nat :=
  if 0 ≤ exponent then coefficient * pow10 exponent.toNat
  else divHalfUp coefficient (pow10 (-exponent).toNat)

theorem cut_eq_self (coefficient : Nat) (exponent : Int)
    (h : digitCount coefficient ≤ workingDigits) :
    cut coefficient exponent = (coefficient, exponent) := by
  have hs : digitCount coefficient - workingDigits = 0 := by omega
  have hd := divHalfEven_mul 1 coefficient (by decide)
  simp [cut, hs] at hd ⊢
  exact hd

inductive ReadError
  | malformed
  | outOfRange
deriving DecidableEq, Repr

def greatestExponent : Int := 999999999999999999

def leastExponent : Int := -1999999999999999997

def significant (text : String) : List Char :=
  ((Text.trim (fun c => Text.isBlank c || Text.isSeparator c) text.toList).filter (· != '_')).map
    Text.plainDigit

def readSpecial? (cs : List Char) : Option Special :=
  let (negative, body) := Text.splitSign cs
  let word := (body.takeWhile (!·.isDigit)).map Char.toLower
  let rest := body.dropWhile (!·.isDigit)
  if (word = "inf".toList ∨ word = "infinity".toList) ∧ rest = [] then some (.infinite negative)
  else if (word = "nan".toList ∨ word = "snan".toList) ∧ rest.all Char.isDigit then
    some (.nan negative (word = "snan".toList) (Text.digitsValue rest))
  else none

def read (text : String) : Except ReadError Decimal :=
  let cs := significant text
  match readSpecial? cs, Text.Numeral.read? cs with
  | some value, _ => .ok (.special value)
  | none, none => .error .malformed
  | none, some n =>
    if leadingExponent n.coefficient n.exponent ≤ greatestExponent ∧ leastExponent ≤ n.exponent then
      .ok (.finite n.negative n.coefficient n.exponent)
    else .error .outOfRange

end Decimal
end MapExtract
