import MapExtract.Table

set_option autoImplicit false
namespace MapExtract

structure TileIndex.Slot where
  tile : Int
  id : Int
deriving DecidableEq, Repr

structure TileIndex where
  slots : List TileIndex.Slot
  tiles : Table Int Int
deriving DecidableEq

namespace TileIndex

def Slot.before (a b : Slot) : Bool := a.tile < b.tile || a.tile = b.tile && a.id < b.id

def countFront (p : Slot → Bool) (slots : List Slot) : Nat := (slots.takeWhile p).length

def insertSlot (s : Slot) : List Slot → List Slot
  | [] => [s]
  | a :: rest => if s.before a then s :: a :: rest else a :: insertSlot s rest

def removeSlot (s : Slot) (slots : List Slot) : List Slot :=
  slots.eraseIdx (countFront (·.before s) slots)

def empty : TileIndex := ⟨[], .empty⟩

/-- Puts a node under a tile; its former slot, if any, goes. -/
def place (x : TileIndex) (id tile : Int) : TileIndex :=
  let kept := match x.tiles.get? id with
    | some former => removeSlot ⟨former, id⟩ x.slots
    | none => x.slots
  { slots := insertSlot ⟨tile, id⟩ kept, tiles := x.tiles.insert id tile }

def range (x : TileIndex) (low high : Int) : List Int :=
  let start := countFront (·.tile < low) x.slots
  let stop := countFront (·.tile ≤ high) x.slots
  ((x.slots.take stop).drop start).map (·.id)

theorem before_irrefl (a : Slot) : a.before a = false := by simp [Slot.before]

theorem before_trans {a b c : Slot} (hab : a.before b = true) (hbc : b.before c = true) :
    a.before c = true := by
  simp only [Slot.before, Bool.or_eq_true, Bool.and_eq_true, decide_eq_true_eq] at *
  omega

theorem eq_of_not_before {a b : Slot} (hab : a.before b = false) (hba : b.before a = false) :
    a = b := by
  obtain ⟨t, i⟩ := a
  obtain ⟨u, j⟩ := b
  simp only [Slot.before, Bool.or_eq_false_iff, Bool.and_eq_false_iff, decide_eq_false_iff_not]
    at hab hba
  rw [Slot.mk.injEq]
  omega

theorem mem_insertSlot {s t : Slot} {slots : List Slot} :
    t ∈ insertSlot s slots ↔ t = s ∨ t ∈ slots := by
  induction slots with
  | nil => simp [insertSlot]
  | cons a rest ih =>
    simp only [insertSlot]
    split
    · simp
    · simp [ih, or_left_comm]

end TileIndex
end MapExtract
