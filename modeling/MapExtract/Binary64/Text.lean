import MapExtract.Binary64.Shortest
import MapExtract.Text.Character
import MapExtract.Text.Numeral

set_option autoImplicit false
namespace MapExtract.Binary64

structure Layout where
  leastPlain : Int
  mostPlain : Int
  exponentDigits : Nat

/-- From `0.0001` to `9999999999999998.0` numbers are plain; exponents have two digits. -/
def layout : Layout := ⟨-4, 15, 2⟩

def padLeft (width : Nat) (ds : List Char) : List Char :=
  List.replicate (width - ds.length) '0' ++ ds

def dropTrailingZeros (ds : List Char) : List Char :=
  (ds.reverse.dropWhile (· == '0')).reverse

def plain (ds : List Char) (places : Int) : List Char :=
  if places ≤ 0 then "0.".toList ++ List.replicate (-places).toNat '0' ++ ds
  else if ds.length ≤ places.toNat then
    ds ++ List.replicate (places.toNat - ds.length) '0' ++ ".0".toList
  else ds.take places.toNat ++ '.' :: ds.drop places.toNat

def scientific (ds : List Char) (exponent : Int) : List Char :=
  let fraction := ds.drop 1
  ds.take 1 ++ (if fraction = [] then [] else '.' :: fraction) ++
    'e' :: (if exponent < 0 then '-' else '+') ::
      padLeft layout.exponentDigits (Nat.toDigits 10 exponent.natAbs)

def magnitudeText (rank : Nat) : List Char :=
  if rank = 0 then "0.0".toList
  else
    let (coefficient, exponent) := shortest rank
    let leading := Decimal.leadingExponent coefficient exponent
    let ds := dropTrailingZeros (Nat.toDigits 10 coefficient)
    if layout.leastPlain ≤ leading ∧ leading ≤ layout.mostPlain then plain ds (leading + 1)
    else scientific ds leading

def text : Binary64 → String
  | .nan => "nan"
  | .infinite negative => if negative then "-inf" else "inf"
  | .finite negative rank =>
    String.ofList ((if negative then ['-'] else []) ++ magnitudeText rank)

def readName? (cs : List Char) : Option Binary64 :=
  let (negative, body) := Text.splitSign cs
  let word := body.map Char.toLower
  if word = "inf".toList ∨ word = "infinity".toList then some (.infinite negative)
  else if word = "nan".toList then some .nan
  else none

def read? (text : String) : Option Binary64 :=
  let cs := (Text.trim Text.isBlank text.toList).map Text.plainDigit
  (readName? cs).or
    ((Text.ungroup? cs).bind fun ds =>
      (Text.Numeral.read? ds).map fun n => ofDecimal n.negative n.coefficient n.exponent)

end MapExtract.Binary64
