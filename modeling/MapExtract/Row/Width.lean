import MapExtract.Error
import MapExtract.Row.Basic

set_option autoImplicit false
namespace MapExtract
open Element (Kind)

inductive Width
  | word
  | half
  | unsignedHalf
deriving DecidableEq

namespace Width

def ofColumn (column : String) : Width :=
  if column = "version" then .half else if column = "tile" then .unsignedHalf else .word

def machineWord : Width → Int × Int
  | .word | .half => (-0x8000000000000000, 0x8000000000000000)
  | .unsignedHalf => (0, 0x10000000000000000)

def range : Width → Int × Int
  | .word => (-0x8000000000000000, 0x8000000000000000)
  | .half => (-0x80000000, 0x80000000)
  | .unsignedHalf => (0, 0x100000000)

def check (w : Width) (n : Int) : Except Error Unit :=
  if w.range.1 ≤ n ∧ n < w.range.2 then .ok ()
  else if w.machineWord.1 ≤ n ∧ n < w.machineWord.2 then .error .outsideColumn
  else .error .outsideWord

theorem check_eq_ok_iff (w : Width) (n : Int) :
    w.check n = .ok () ↔ w.range.1 ≤ n ∧ n < w.range.2 := by
  unfold check
  split
  · simp_all
  · split <;> simp_all

end Width

def Cell.numbers : Cell → List Int
  | .datum d => d.whole?.toList
  | .ids value => (value.getD []).filterMap Datum.whole?
  | .members value => (value.getD []).filterMap fun m => (m.bind MemberCell.id).bind Datum.whole?
  | _ => []

namespace Row

def columnNumbers (rows : List Row) (column : String) : List Int :=
  rows.flatMap fun r => ((r.lookup column).map Cell.numbers).getD []

def checkWidths (k : Kind) (rows : List Row) : Except Error Unit :=
  (columnsOf k).forM fun column =>
    (columnNumbers rows column).forM (Width.ofColumn column).check

end Row
end MapExtract
