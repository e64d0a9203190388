import MapExtract.Batches

/-!
Writing batches to a numbered series of files. A file is full when it has enough rows, or when its
size is checked and found large enough. It is opened only when there is a batch for it, so no file
is empty.
-/

set_option autoImplicit false
namespace MapExtract.Fixture

structure Limits where
  /-- A file with so many rows is full; zero stands for no limit. -/
  maxRows : Option Int := none
  maxSize : Option Int := none
  batchSize : Int := 10000
  /-- The number of batches between two checks of the size. -/
  checkInterval : Int := 10
deriving DecidableEq

abbrev File (α : Type) := List (List α)

abbrev Sizes := Nat → Nat → Int

variable {α : Type}

namespace File

def contents (f : File α) : List α := f.flatten

def rowCount (f : File α) : Nat := f.contents.length

end File

namespace Limits

def enoughRows (l : Limits) (rows : Nat) : Bool :=
  match l.maxRows with
  | none => false
  | some limit => limit ≠ 0 && limit ≤ rows

/-- Is a file full after the batches in it? The rows are counted first. -/
def isFull (l : Limits) (size : Nat → Int) (f : File α) : Except Error Bool :=
  if l.enoughRows f.rowCount then .ok true
  else
    match l.maxSize with
    | none => .ok false
    | some limit =>
      if l.checkInterval = 0 then .error .sizeCheckIntervalZero
      else .ok (l.checkInterval ∣ f.length && limit ≤ size f.length)

end Limits

/-- A series of files. Only the last file can be open, and an open file holds a batch at least. -/
structure Rolling (α : Type) where
  closed : List (File α)
  current : File α
deriving DecidableEq

namespace Rolling

def empty : Rolling α := ⟨[], []⟩

def number (w : Rolling α) : Nat := w.closed.length + 1

def close (w : Rolling α) : Rolling α :=
  match w.current with
  | [] => w
  | file => ⟨w.closed ++ [file], []⟩

def files (w : Rolling α) : List (File α) := w.close.closed

/-- Writes a batch unless it is empty. A failing check leaves the file open, with the batch in
it. -/
def write (l : Limits) (sizes : Sizes) (w : Rolling α) (batch : List α) :
    Rolling α × Except Error Unit :=
  if batch.isEmpty then (w, .ok ())
  else
    let written := { w with current := w.current ++ [batch] }
    match l.isFull (sizes w.number) written.current with
    | .ok true => (written.close, .ok ())
    | .ok false => (written, .ok ())
    | .error cause => (written, .error cause)

theorem closed_close (w : Rolling α) :
    w.close.closed = w.closed ++ if w.current = [] then [] else [w.current] := by
  unfold close
  split <;> simp_all

theorem current_close (w : Rolling α) : w.close.current = [] := by
  unfold close
  split <;> simp_all

theorem flatten_files_write (l : Limits) (sizes : Sizes) (w : Rolling α) (batch : List α) :
    (w.write l sizes batch).1.files.flatten =
      w.files.flatten ++ if batch.isEmpty then [] else [batch] := by
  have shown : ∀ v : Rolling α, v.files.flatten = v.closed.flatten ++ v.current := by
    intro v
    by_cases h : v.current = [] <;> simp [files, closed_close, h]
  unfold write
  split
  · simp
  · dsimp only
    split <;> simp [shown, closed_close, current_close]

end Rolling

end MapExtract.Fixture
