import MapExtract.CommandLine.Run
import MapExtract.Row.Line

/-!
The rows in a directory of a fixture are read from its file `rows.tsv`, one row for each line; a
directory without that file counts as missing.
-/

set_option autoImplicit false
namespace MapExtract.CommandLine
open Element (Kind)

def usage : List String :=
  ["usage: --input_path PATH [--verbose] COMMAND",
   "  load                                         loads the fixture",
   "  full --relation_id ID [--max_depth DEPTH]    selects a relation with its members",
   "  map --bbox BOX [--max_area AREA] [--max_nodes COUNT]    selects everything in a box"]

def readDirectory (root : String) (k : Kind) : IO (Option (List (Fixture.File Row))) := do
  try
    let path := Fixture.joinPath (Fixture.directoryPath root k) ["rows.tsv"]
    let lines ← IO.FS.lines path
    return some [[lines.toList.map (Row.ofLine k)]]
  catch _ => return none

def readDirectories (root : String) : IO Fixture.Directories := do
  let nodes ← readDirectory root .node
  let ways ← readDirectory root .way
  let relations ← readDirectory root .relation
  return { nodes, ways, relations }

def Request.execute (r : Request) : IO UInt32 := do
  let home ← IO.getEnv "HOME"
  let homes : Fixture.Homes := fun user => if user = "" then home else none
  let directories ← match r.path homes with
    | .ok root => readDirectories root
    | .error _ => pure Fixture.Directories.missing
  let outcome := r.run homes fun _ k => .ok (directories.get k)
  (outcome.log r.verbose).forM fun line => IO.eprintln line
  outcome.printed.forM fun line => IO.println line
  match outcome.exit with
  | .ok code => return code.toUInt32
  | .error cause =>
    IO.eprintln cause.message
    return 1

end MapExtract.CommandLine

open MapExtract.CommandLine in
def main (words : List String) : IO UInt32 := do
  match Request.read words with
  | .ok request => request.execute
  | .error .helpWanted =>
    usage.forM fun line => IO.println line
    return 0
  | .error .misuse =>
    usage.forM fun line => IO.eprintln line
    return 2
