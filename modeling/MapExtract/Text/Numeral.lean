import MapExtract.Arithmetic
import MapExtract.Text.Character

set_option autoImplicit false
namespace MapExtract.Text

/-- The number `coefficient * 10 ^ exponent` with its sign, as it was written. -/
structure Numeral where
  negative : Bool
  coefficient : Nat
  exponent : Int
deriving DecidableEq, Repr

def digitsValue (ds : List Char) : Nat := Nat.ofDigitChars 10 ds 0

theorem digitsValue_toDigits (n : Nat) : digitsValue (Nat.toDigits 10 n) = n :=
  Nat.ofDigitChars_ten_toDigits

def splitSign : List Char → Bool × List Char
  | '-' :: cs => (true, cs)
  | '+' :: cs => (false, cs)
  | cs => (false, cs)

def readExponent? : List Char → Option Int
  | [] => some 0
  | c :: cs =>
    let (negative, ds) := splitSign cs
    if (c = 'e' ∨ c = 'E') ∧ ds ≠ [] ∧ ds.all Char.isDigit then
      some (signed negative (digitsValue ds))
    else none

def splitFraction : List Char → List Char × List Char
  | '.' :: cs => (cs.takeWhile Char.isDigit, cs.dropWhile Char.isDigit)
  | cs => ([], cs)

def Numeral.read? (cs : List Char) : Option Numeral :=
  let (negative, body) := splitSign cs
  let whole := body.takeWhile Char.isDigit
  let (fraction, tail) := splitFraction (body.dropWhile Char.isDigit)
  if whole = [] ∧ fraction = [] then none
  else
    (readExponent? tail).map fun e =>
      { negative, coefficient := digitsValue (whole ++ fraction), exponent := e - fraction.length }

/-- Each underscore stands between two digits; `before` is the character before the text. -/
def grouped (before : Char) : List Char → Bool
  | [] => before != '_'
  | c :: cs =>
    (if c = '_' then before.isDigit else before != '_' || c.isDigit) && grouped c cs

def ungroup? (cs : List Char) : Option (List Char) :=
  if grouped ' ' cs then some (cs.filter (· != '_')) else none

theorem grouped_of_plain (cs : List Char) (h : ∀ c ∈ cs, c ≠ '_') (before : Char)
    (hb : before ≠ '_') : grouped before cs = true := by
  induction cs generalizing before with
  | nil => simpa [grouped] using hb
  | cons c cs ih =>
    have hc : c ≠ '_' := h c (by simp)
    simp [grouped, hc, hb, ih (fun d hd => h d (by simp [hd])) c hc]

theorem ungroup_eq_self (cs : List Char) (h : ∀ c ∈ cs, c ≠ '_') : ungroup? cs = some cs := by
  rw [ungroup?, if_pos (grouped_of_plain cs h ' ' (by decide))]
  simpa [List.filter_eq_self] using h

def readInt? (text : String) : Option Int :=
  (ungroup? ((trim isBlank text.toList).map plainDigit)).bind fun cs =>
    let (negative, ds) := splitSign cs
    if ds ≠ [] ∧ ds.all Char.isDigit then some (signed negative (digitsValue ds)) else none

end MapExtract.Text
