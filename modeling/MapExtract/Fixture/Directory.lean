import MapExtract.Fixture.Rolling
import MapExtract.Row.Reader
import MapExtract.Row.Width

set_option autoImplicit false
namespace MapExtract.Fixture
open Element (Kind)

def kinds : List Kind := [.node, .way, .relation]

structure ByKind (α : Type) where
  nodes : α
  ways : α
  relations : α
deriving DecidableEq

namespace ByKind

variable {α β : Type}

def all (a : α) : ByKind α := ⟨a, a, a⟩

def get (b : ByKind α) : Kind → α
  | .node => b.nodes
  | .way => b.ways
  | .relation => b.relations

def set (b : ByKind α) (k : Kind) (a : α) : ByKind α :=
  match k with
  | .node => { b with nodes := a }
  | .way => { b with ways := a }
  | .relation => { b with relations := a }

def map (f : α → β) (b : ByKind α) : ByKind β := ⟨f b.nodes, f b.ways, f b.relations⟩

theorem get_set (b : ByKind α) (k j : Kind) (a : α) :
    (b.set k a).get j = if j = k then a else b.get j := by
  cases k <;> cases j <;> rfl

theorem get_map (f : α → β) (b : ByKind α) (k : Kind) : (b.map f).get k = f (b.get k) := by
  cases k <;> rfl

end ByKind

abbrev Writer := ByKind (Rolling Row)

def Rolling.writeRows (l : Limits) (sizes : Sizes) (k : Kind) (w : Rolling Row) (rows : List Row) :
    Rolling Row × Except Error Unit :=
  match Row.checkWidths k rows with
  | .ok () => w.write l sizes rows
  | .error cause => (w, .error cause)

def rowsOf (k : Kind) (es : List Element) : List Row :=
  (es.filter fun e => e.kind = k).map Row.ofElement

namespace Writer

def writeKind (l : Limits) (sizes : Kind → Sizes) (batch : List Element) (w : Writer) (k : Kind) :
    Except Error Writer :=
  match (w.get k).writeRows l (sizes k) k (rowsOf k batch) with
  | (files, .ok ()) => .ok (w.set k files)
  | (_, .error cause) => .error cause

def writeBatch (l : Limits) (sizes : Kind → Sizes) (w : Writer) (batch : List Element) :
    Except Error Writer :=
  kinds.foldlM (writeKind l sizes batch) w

end Writer

def writeRun (l : Limits) (sizes : Kind → Sizes) (es : List Element) :
    Except Error (ByKind (List (File Row))) := do
  let parts ← batchesOf l.batchSize es
  let w ← parts.foldlM (Writer.writeBatch l sizes) (.all .empty)
  return w.map Rolling.files

abbrev Directories := ByKind (Option (List (File Row)))

abbrev Finder := String → Kind → Except Error (Option (List (File Row)))

namespace Directories

def missing : Directories := .all none

/-- Adds the files of a run. Every run makes all three directories. -/
def add (d : Directories) (files : ByKind (List (File Row))) : Directories :=
  kinds.foldl (fun d k => d.set k (some ((d.get k).getD [] ++ files.get k))) d

def drop (d : Directories) (k : Kind) : Directories := d.set k none

end Directories

def readsBefore (a b : Element) : Bool :=
  a.id < b.id || a.id = b.id && a.version ≤ b.version

def readFiles (k : Kind) (files : List (File Row)) : Except Error (List Element) := do
  let elements ← (files.flatMap File.contents).mapM (Row.readElement k)
  return elements.mergeSort readsBefore

def Directories.read (d : Directories) : Except Error (List Element) := do
  let parts ← kinds.mapM fun k => readFiles k ((d.get k).getD [])
  return parts.flatten

end MapExtract.Fixture
