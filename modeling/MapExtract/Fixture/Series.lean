import MapExtract.Fixture.Disk

set_option autoImplicit false
namespace MapExtract.Fixture

def Disk.checkFile (d : Disk) (path : String) : Except Error Unit := do
  checkSize (← checkPath path)
  match ← d.resolve (namesIn path).dropLast with
  | none => throw .missingDirectory
  | some _ => if maxNameSize < (lastName path).utf8ByteSize then throw .nameTooLong

def paddedNumber (number : Nat) : String :=
  let digits := toString number
  String.ofList (List.replicate (5 - digits.length) '0') ++ digits

structure Series where
  directory : String
  name : String
  run : String

namespace Series

def path (s : Series) (number : Nat) : String :=
  joinPath s.directory [s!"{s.name}_{s.run}_{paddedNumber number}.parquet"]

def fileName (s : Series) (number : Nat) : String :=
  s!"{lastName s.name}_{paddedNumber number}.parquet"

variable {α : Type}

def rowCounts (s : Series) (files : List (File α)) : List (String × Nat) :=
  files.zipIdx 1 |>.map fun (f, number) => (s.fileName number, f.rowCount)

def rowCountsOn (d : Disk) (s : Series) (files : List (File α)) :
    Except Error (List (String × Nat)) := do
  (List.range' 1 files.length).forM fun number => d.checkFile (s.path number)
  return s.rowCounts files

def checkPaths (s : Series) (files : List (File α)) : Except Error Unit :=
  (List.range' 1 files.length).forM fun number => Disk.checkSize (s.path number)

theorem getElem?_rowCounts (s : Series) (files : List (File α)) (i : Nat) :
    (s.rowCounts files)[i]? = files[i]?.map fun f => (s.fileName (i + 1), f.rowCount) := by
  rw [rowCounts, List.getElem?_map, List.getElem?_zipIdx, Option.map_map, Nat.add_comm 1 i]
  rfl

end Series

end MapExtract.Fixture
