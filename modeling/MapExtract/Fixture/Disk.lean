import MapExtract.Fixture.Address
import MapExtract.Fixture.Directory

set_option autoImplicit false
namespace MapExtract.Fixture
open Element (Kind)

abbrev Place := List String

def namesIn (path : String) : Place :=
  ((path.toList.splitOn '/').map String.ofList).filter (· ≠ "")

def maxNameSize : Nat := 255

def maxPathSize : Nat := 4095

abbrev Disk := List (Place × Directories)

namespace Disk

def has (d : Disk) (place : Place) : Bool :=
  d.any fun (root, directories) => place.isPrefixOf root || kinds.any fun k =>
    (directories.get k).isSome && place = root ++ [directoryName k]

/-- Where one more name of a path leads, if there is something; a dot stays, and two dots go up. -/
def follow (d : Disk) (place : Option Place) (name : String) : Except Error (Option Place) :=
  match place with
  | none => .ok none
  | some place =>
    if name = "." then .ok (some place)
    else if name = ".." then .ok (some place.dropLast)
    else if maxNameSize < name.utf8ByteSize then .error .nameTooLong
    else .ok (if d.has (place ++ [name]) then some (place ++ [name]) else none)

def resolve (d : Disk) (names : List String) : Except Error (Option Place) :=
  names.foldlM (follow d) (some [])

def checkSize (path : String) : Except Error Unit :=
  if maxPathSize < path.utf8ByteSize then .error .nameTooLong else .ok ()

def find (d : Disk) : Finder := fun path k => do
  checkSize path
  let place ← d.resolve (namesIn path)
  return place.bind fun place => d.findSome? fun (root, directories) =>
    if place = root ++ [directoryName k] then directories.get k else none

def fixtureAt (d : Disk) (root : String) : Except Error Directories := do
  let root ← checkPath root
  return { nodes := ← d.find (directoryPath root .node) .node,
           ways := ← d.find (directoryPath root .way) .way,
           relations := ← d.find (directoryPath root .relation) .relation }

def makeBelow (d : Disk) (place : Place) : List String → Disk × Except Error Unit
  | [] => (d, .ok ())
  | name :: names =>
    if name = "." then d.makeBelow place names
    else if name = ".." then d.makeBelow place.dropLast names
    else if maxNameSize < name.utf8ByteSize then (d, .error .nameTooLong)
    else
      let inner := place ++ [name]
      makeBelow (if d.has inner then d else (inner, .missing) :: d) inner names

def make (d : Disk) (path : String) : Disk × Except Error Unit :=
  match (checkPath path).bind checkSize with
  | .ok () => d.makeBelow [] (namesIn path)
  | .error cause => (d, .error cause)

def makeFixture (d : Disk) (root : String) : Disk × Except Error Unit :=
  kinds.foldl (fun (d, outcome) k =>
    match outcome with
    | .ok () => d.make (directoryPath root k)
    | .error cause => (d, .error cause)) (d, .ok ())

def addRun (d : Disk) (root : String) (files : ByKind (List (File Row))) : Except Error Disk := do
  let held ← d.fixtureAt root
  match ← d.resolve (namesIn root) with
  | none => throw .missingDirectory
  | some place => return (place, held.add files) :: d

def cutFixture (place root : Place) (directories : Directories) : Directories :=
  kinds.foldl (fun held k => if root ++ [directoryName k] = place then held.drop k else held)
    directories

def without (d : Disk) (place : Place) : Disk :=
  (d.filter fun (root, _) => !place.isPrefixOf root).map fun (root, directories) =>
    (root, cutFixture place root directories)

/-- Removes a directory with all that is in it. What is in it goes first, and then its path still
has to lead to it. -/
def remove (d : Disk) (path : String) : Except Error Disk := do
  if '\x00' ∈ path.toList then throw .zeroInName
  checkSize path
  let names := namesIn path
  match ← d.resolve names with
  | none => throw .missingDirectory
  | some place =>
    let rest := d.without place
    match ← resolve ((place, .missing) :: rest) names.dropLast with
    | none => throw .missingDirectory
    | some _ =>
      if names.getLast? = some "." then throw .notRemovable
      return (place.dropLast, .missing) :: rest

end Disk
end MapExtract.Fixture
